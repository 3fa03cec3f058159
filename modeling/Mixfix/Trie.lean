/-!
# Tries

A trie is a tree whose edges carry keys; an item may sit at any node, and its path is the sequence of keys that leads
to it. A path may exist without an item, so a branch can be empty (`Trie.isEmpty`) though it is there
(`Trie.branch?`).

The branches of a node are an inductive type of their own (`Branches`): a key with what sits at and below its node, and
the branches beside it.

The item at a path is the one that was set there last (`Trie.get?_set`).
-/

namespace Mixfix

/-- The branches that leave a node. -/
inductive Branches (κ α : Type) where
  | nil
  /-- The edge `key`, the item at its end, the branches below that, and the other branches. -/
  | cons (key : κ) (item : Option α) (below others : Branches κ α)

/-- A node: its item, and the branches that leave it. -/
structure Trie (κ α : Type) where
  item : Option α
  branches : Branches κ α

namespace Branches

variable {κ α : Type}

/-- The node at the end of the edge with a key. -/
def find? [BEq κ] (k : κ) : Branches κ α → Option (Trie κ α)
  | nil => none
  | cons key item below others => if k == key then some ⟨item, below⟩ else others.find? k

/-- The branches of a single path, with an item at its end. -/
def ofPath (item : Option α) (k : κ) : List κ → Branches κ α
  | [] => cons k item nil nil
  | k' :: path => cons k none (ofPath item k' path) nil

/-- Puts an item at the end of a path, which is made where it does not exist. -/
def set [BEq κ] (item : Option α) : (k : κ) → List κ → Branches κ α → Branches κ α
  | k, path, nil => ofPath item k path
  | k, path, cons key old below others =>
    if k == key then
      match path with
      | [] => cons key item below others
      | k' :: path' => cons key old (set item k' path' below) others
    else cons key old below (set item k path others)

/-- Whether no item sits at the end of any path. -/
def isEmpty : Branches κ α → Bool
  | nil => true
  | cons _ item below others => item.isNone && below.isEmpty && others.isEmpty

/-- The paths that hold an item, with their items. -/
def items : Branches κ α → List (List κ × α)
  | nil => []
  | cons key item below others =>
    (match item with
      | some a => [([key], a)]
      | none => []) ++ below.items.map (fun p => (key :: p.1, p.2)) ++ others.items

/-- The keys of the branches. -/
def keys : Branches κ α → List κ
  | nil => []
  | cons key _ _ others => key :: others.keys

end Branches

namespace Trie

variable {κ α : Type} [BEq κ]

omit [BEq κ] in
/-- The trie without items. -/
def empty : Trie κ α := ⟨none, .nil⟩

/-- Puts an item, or the absence of one, at the end of a path, which is made where it does not exist. -/
def set (t : Trie κ α) (path : List κ) (item : Option α) : Trie κ α :=
  match path with
  | [] => { t with item }
  | k :: rest => { t with branches := t.branches.set item k rest }

/-- Puts an item at the end of a path. -/
def insert (t : Trie κ α) (path : List κ) (item : α) : Trie κ α := t.set path (some item)

/-- The node at the end of the edge with a key. -/
def branch? (t : Trie κ α) (k : κ) : Option (Trie κ α) := t.branches.find? k

/-- The node at the end of a path. -/
def walk? (t : Trie κ α) : List κ → Option (Trie κ α)
  | [] => some t
  | k :: path => (t.branch? k).bind fun b => b.walk? path

/-- The item at the end of a path. -/
def get? (t : Trie κ α) (path : List κ) : Option α := (t.walk? path).bind Trie.item

omit [BEq κ] in
/-- Whether no path holds an item. -/
def isEmpty (t : Trie κ α) : Bool := t.item.isNone && t.branches.isEmpty

/-- Whether some path that starts with a key holds an item. -/
def hasItemsUnder (t : Trie κ α) (k : κ) : Bool := (t.branch? k).any fun b => !b.isEmpty

omit [BEq κ] in
/-- Whether the empty path holds an item. -/
def hasRootItem (t : Trie κ α) : Bool := t.item.isSome

/-- The node at the end of the edge with a key, if an item sits there or below. -/
def follow? (t : Trie κ α) (k : κ) : Option (Trie κ α) := (t.branch? k).filter fun b => !b.isEmpty

omit [BEq κ] in
/-- The paths that hold an item, with their items. -/
def items (t : Trie κ α) : List (List κ × α) :=
  (match t.item with
    | some a => [([], a)]
    | none => []) ++ t.branches.items

omit [BEq κ] in
/-- The keys of the edges that leave the root. -/
def keys (t : Trie κ α) : List κ := t.branches.keys

/-- The trie that holds each item at its path reversed. -/
def reversed (t : Trie κ α) : Trie κ α :=
  t.items.foldl (fun r p => r.insert p.1.reverse p.2) empty

/-! ## Requests -/

/-- What is asked of a trie. -/
inductive Request (κ α : Type) where
  /-- To put an item, or the absence of one, at the end of a path. -/
  | set (path : List κ) (item : Option α)
  /-- For the trie that holds each item at its path reversed. -/
  | reversed

/-- What a trie answers, and the trie after the request. -/
def ask (t : Trie κ α) : Request κ α → Option (Trie κ α) × Trie κ α
  | .set path item => (none, t.set path item)
  | .reversed => (some t.reversed, t)

/-- The trie after some requests, from the empty one. -/
def after (rs : List (Request κ α)) : Trie κ α := rs.foldl (fun t r => (t.ask r).2) empty

end Trie

/-! ## Items after one is set -/

namespace Branches

variable {κ α : Type} [BEq κ]

theorem find?_ofPath (item : Option α) (k k' : κ) (path : List κ) :
    (ofPath item k path).find? k' = if k' == k then some (Trie.empty.set path item) else none := by
  cases path <;> rfl

variable [LawfulBEq κ]

/-- Setting an item changes only the branch that its path begins with. -/
theorem find?_set (item : Option α) (k k' : κ) (path : List κ) (b : Branches κ α) :
    (b.set item k path).find? k' =
      if k' == k then some (((b.find? k).getD Trie.empty).set path item) else b.find? k' := by
  fun_induction Branches.set item k path b with
  | case1 k path => exact find?_ofPath item k k' path
  | case2 k key old below others h =>
    cases eq_of_beq h
    by_cases hk : k' == k <;> simp [find?, Trie.set, hk]
  | case3 k key old below others h k₂ path₂ ih =>
    cases eq_of_beq h
    by_cases hk : k' == k <;> simp [find?, Trie.set, hk]
  | case4 k path key old below others h ih =>
    rw [find?, ih]
    by_cases hk : k' == key
    · cases eq_of_beq hk
      have hne : ¬ (k' == k) = true := fun he => h (by rw [eq_of_beq he]; exact beq_self_eq_true k)
      simp [find?, hne]
    · simp [find?, hk, h]

end Branches

namespace Trie

variable {κ α : Type} [BEq κ] [LawfulBEq κ]

omit [LawfulBEq κ] in
/-- No path of the empty trie holds an item. -/
theorem get?_empty (path : List κ) : (empty : Trie κ α).get? path = none := by
  cases path <;> rfl

omit [LawfulBEq κ] in
theorem get?_cons (t : Trie κ α) (k : κ) (path : List κ) :
    t.get? (k :: path) = (t.branch? k).bind fun b => b.get? path := by
  simp only [get?, walk?, Option.bind_assoc]

theorem branch?_set_cons (t : Trie κ α) (k k' : κ) (path : List κ) (item : Option α) :
    (t.set (k :: path) item).branch? k' =
      if k' == k then some (((t.branch? k).getD empty).set path item) else t.branch? k' :=
  Branches.find?_set item k k' path t.branches

/-- Setting an item binds its path and leaves every other path as it is. -/
theorem get?_set (t : Trie κ α) (path path' : List κ) (item : Option α) :
    (t.set path item).get? path' = if path' == path then item else t.get? path' := by
  induction path generalizing t path' with
  | nil => cases path' <;> rfl
  | cons k rest ih =>
    match path' with
    | [] => rfl
    | k' :: rest' =>
      rw [get?_cons, branch?_set_cons, get?_cons]
      by_cases hk : k' == k
      · cases eq_of_beq hk
        have hb : ((k :: rest') == (k :: rest)) = (rest' == rest) := by simp
        rw [if_pos hk, Option.bind_some, ih, hb]
        cases h : t.branch? k <;> simp [get?_empty]
      · have : ((k' :: rest') == (k :: rest)) = false := by simp_all
        simp [hk, this]

end Trie

end Mixfix
