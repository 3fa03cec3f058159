import Mixfix.Proofs.Bracketed
import Mixfix.Proofs.Locality

/-!
# What the text of a tree says

The lines of a tree are its nodes in preorder, each behind two spaces for every level (`Tree.lines_eq_map_preorder`).
The lines below a node are those that follow it with more spaces, so a line with no more spaces ends them
(`Shallow`), and trees with the same lines are alike node by node (`Tree.alike_of_lines_append`): they differ only in
positions and in what no line shows. As long as no name and no description has a line break, the lines can be told from
the text (`Tree.splitOn_describe`). All of this together is `Tree.describe_faithful`.
-/

namespace Mixfix

/-! ## Texts without line breaks -/

namespace Text

theorem not_mem_natDigits (n : Nat) : '\n' ∉ natDigits n := by
  intro h
  have := Nat.isDigit_of_mem_toDigits (by decide) (by decide) h
  cases this

end Text

namespace Decimal

open Text

variable {ds : Text}

theorem not_mem_positional (h : '\n' ∉ ds) (point : Int) : '\n' ∉ positional ds point := by
  unfold positional
  split
  · simp [h]
  · split
    · simp [h]
    · have htake := mt (List.mem_of_mem_take (l := ds) (i := point.toNat)) h
      have hdrop := mt (List.mem_of_mem_drop (l := ds) (i := point.toNat)) h
      simp [htake, hdrop]

theorem not_mem_exponentText (e : Int) : '\n' ∉ exponentText e := by
  have h := not_mem_natDigits e.natAbs
  unfold exponentText
  simp only [List.mem_cons, not_or]
  constructor
  · split <;> decide
  · split
    · simp [h]
    · exact h

theorem not_mem_scientific (h : '\n' ∉ ds) (leading : Int) : '\n' ∉ scientific ds leading := by
  have hexponent := not_mem_exponentText leading
  unfold scientific
  split <;> simp_all

theorem not_mem_format (d : Decimal) : '\n' ∉ d.format := by
  have h := not_mem_natDigits d.digits
  simp only [format]
  split
  · exact not_mem_positional h _
  · exact not_mem_scientific h _

end Decimal

/-- No number is written with a line break. -/
theorem not_mem_formatFloat (x : Float) : '\n' ∉ formatFloat x := by
  have h := (Binary.ofFloat x).shortest.not_mem_format
  unfold formatFloat
  split_ifs <;> simp [h]

namespace Tree

variable {α β : Type}

/-! ## Nodes -/

mutual

/-- The nodes of a tree, each before the nodes below it, and with its depth. -/
def preorder (depth : Nat) : Tree α → List (Nat × Tree α)
  | t@(call _ _ args) => (depth, t) :: preorderAll (depth + 1) args
  | t@(operation _ _ operands) => (depth, t) :: preorderAll (depth + 1) operands
  | t => [(depth, t)]

/-- The nodes of the trees of a list, one tree after the other. -/
def preorderAll (depth : Nat) : List (Tree α) → List (Nat × Tree α)
  | [] => []
  | t :: ts => preorder depth t ++ preorderAll depth ts

end

mutual

/-- A tree has as many nodes as are counted. -/
theorem length_preorder (depth : Nat) (t : Tree α) : (t.preorder depth).length = t.nodeCount := by
  cases t with
  | number | reference | unknown => rfl
  | call p name args =>
    rw [preorder, List.length_cons, length_preorderAll (depth + 1) args, nodeCount, Nat.add_comm]
  | operation p o operands =>
    rw [preorder, List.length_cons, length_preorderAll (depth + 1) operands, nodeCount, Nat.add_comm]

theorem length_preorderAll (depth : Nat) (ts : List (Tree α)) :
    (preorderAll depth ts).length = nodeCountAll ts := by
  cases ts with
  | nil => rfl
  | cons t ts =>
    rw [preorderAll, List.length_append, length_preorder depth t, length_preorderAll depth ts, nodeCountAll]

end

/-- The text that a node takes over into its line: its name, or the description of its operator. -/
def title : Tree α → Text
  | number _ _ => []
  | reference _ name | call _ name _ => name
  | operation _ operator _ => operator.describe
  | unknown _ kind => kind

/-- No name in the tree and no description of an operator has a line break. -/
def Legible (t : Tree α) : Prop := ∀ x ∈ t.preorder 0, '\n' ∉ x.2.title

instance (t : Tree α) : Decidable t.Legible := inferInstanceAs (Decidable (∀ x ∈ t.preorder 0, '\n' ∉ x.2.title))

/-- Two trees have the same shape, and in the same places nodes of the same kind with the same name, the same
description of the operator, or numbers that are written alike. -/
inductive Alike : Tree α → Tree β → Prop
  | number {p q : Int} {v w : Float} (h : formatFloat v = formatFloat w) : Alike (number p v) (number q w)
  | reference {p q : Int} {name : Text} : Alike (reference p name) (reference q name)
  | call {p q : Int} {name : Text} {ts : List (Tree α)} {us : List (Tree β)} (h : List.Forall₂ Alike ts us) :
      Alike (call p name ts) (call q name us)
  | operation {p q : Int} {o : Operator α} {o' : Operator β} {ts : List (Tree α)} {us : List (Tree β)}
      (ho : o.describe = o'.describe) (h : List.Forall₂ Alike ts us) : Alike (operation p o ts) (operation q o' us)
  | unknown {p q : Int} {kind : Text} : Alike (unknown p kind) (unknown q kind)

variable {t : Tree α} {u : Tree β} {ts : List (Tree α)} {us : List (Tree β)} {k l : Nat} {s : Text}
  {rest rest' : List Text}

/-! ## Lines -/

theorem lines_eq (k : Nat) (t : Tree α) :
    t.lines k = (Text.spaces (2 * k) ++ t.label) :: linesAll (k + 1) t.children := by
  cases t with
  | call p name args | operation p o operands => rw [lines, children]
  | number p v | reference p name | unknown p kind => rfl

mutual

/-- The lines are the nodes in preorder, each behind two spaces for every level. -/
theorem lines_eq_map_preorder (k depth : Nat) (t : Tree α) :
    t.lines (k + depth) = (t.preorder depth).map fun x => Text.spaces (2 * (k + x.1)) ++ x.2.label := by
  cases t with
  | number | reference | unknown => rfl
  | call p name args => rw [lines, preorder, List.map_cons, Nat.add_assoc, linesAll_eq_map_preorderAll k _ args]
  | operation p o operands =>
    rw [lines, preorder, List.map_cons, Nat.add_assoc, linesAll_eq_map_preorderAll k _ operands]

theorem linesAll_eq_map_preorderAll (k depth : Nat) (ts : List (Tree α)) :
    linesAll (k + depth) ts = (preorderAll depth ts).map fun x => Text.spaces (2 * (k + x.1)) ++ x.2.label := by
  cases ts with
  | nil => rfl
  | cons t ts =>
    rw [linesAll, preorderAll, List.map_append, lines_eq_map_preorder k depth t,
      linesAll_eq_map_preorderAll k depth ts]

end

theorem not_mem_label (h : '\n' ∉ t.title) : '\n' ∉ t.label := by
  have happend {s s' : Text} (hs : '\n' ∉ s) (hs' : '\n' ∉ s') : '\n' ∉ s ++ s' :=
    fun hmem => (List.mem_append.1 hmem).elim hs hs'
  cases t with
  | number p v => exact happend (by decide) (not_mem_formatFloat v)
  | reference p name | call p name ts | operation p o ts => exact happend (by decide) h
  | unknown p kind => exact happend (happend (by decide) h) (by decide)

theorem Legible.not_mem_lines (h : t.Legible) (k : Nat) : ∀ line ∈ t.lines k, '\n' ∉ line := by
  rw [← Nat.add_zero k, lines_eq_map_preorder]
  intro line hline
  obtain ⟨x, hx, rfl⟩ := List.mem_map.1 hline
  have hlabel := not_mem_label (h x hx)
  simp [Text.spaces, hlabel]

/-- The lines can be told from the text. -/
theorem splitOn_describe (h : t.Legible) (k : Nat) : (t.describe k).splitOn '\n' = t.lines k := by
  refine List.splitOn_intercalate '\n' (h.not_mem_lines k) ?_
  rw [lines_eq]
  exact List.cons_ne_nil _ _

/-- What a node is called begins with a letter. -/
theorem isSpace_head_label (t : Tree α) : ∀ c, t.label.head? = some c → Text.isSpace c = false := by
  intro c hc
  cases t with
  | number | reference | call | operation | unknown => cases hc; rfl

/-! ## Trees with the same lines -/

/-- The next line, if there is one, is that of a node above the level. -/
def Shallow (k : Nat) (rest : List Text) : Prop := ∀ line, rest.head? = some line → line.leadingSpaces < 2 * k

theorem leadingSpaces_spaces_append (h : ∀ c, s.head? = some c → Text.isSpace c = false) (n : Nat) :
    (Text.spaces n ++ s).leadingSpaces = n := by
  have hspaces : ∀ c ∈ Text.spaces n, Text.isSpace c = true := fun c hc => by rw [List.eq_of_mem_replicate hc]; rfl
  rw [Text.leadingSpaces, List.takeWhile_append_of_pos hspaces, List.length_append, Text.spaces, List.length_replicate]
  cases s with
  | nil => rfl
  | cons c s => rw [List.takeWhile_cons_of_neg (by simp [h c rfl]), List.length_nil, Nat.add_zero]

/-- Nodes that are called the same are of the same kind and show the same; so if the nodes below them are alike, they
are. -/
theorem Alike.of_label (h : t.label = u.label) (hbelow : List.Forall₂ Alike t.children u.children) : Alike t u := by
  have hhead := congrArg List.head? h
  cases t with
  | number p v =>
    cases u with
    | number q w => exact .number (List.append_cancel_left h)
    | reference | call | operation | unknown => cases hhead
  | reference p name =>
    cases u with
    | reference q name' =>
      cases List.append_cancel_left h
      exact .reference
    | number | call | operation | unknown => cases hhead
  | call p name ts =>
    cases u with
    | call q name' us =>
      cases List.append_cancel_left h
      exact .call hbelow
    | number | reference | operation | unknown => cases hhead
  | operation p o ts =>
    cases u with
    | operation q o' us => exact .operation (List.append_cancel_left h) hbelow
    | number | reference | call | unknown => cases hhead
  | unknown p kind =>
    cases u with
    | unknown q kind' =>
      cases List.append_cancel_left (List.append_cancel_right h)
      exact .unknown
    | number | reference | call | operation => cases hhead

theorem Alike.label_eq (h : Alike t u) : t.label = u.label := by
  cases h with
  | number h => exact congrArg ("Number: ".toList ++ ·) h
  | operation ho h => exact congrArg ("Operation: ".toList ++ ·) ho
  | reference | call | unknown => rfl

theorem Alike.children (h : Alike t u) : List.Forall₂ Alike t.children u.children := by
  cases h with
  | call h | operation _ h => exact h
  | number | reference | unknown => exact .nil

/-- A property that every tree has if the trees directly below its root have it is one of all trees. -/
@[elab_as_elim]
theorem childInduction {motive : Tree α → Prop} (step : ∀ t, (∀ s ∈ t.children, motive s) → motive t) (t : Tree α) :
    motive t := by
  refine step t ?_
  cases t with
  | number | reference | unknown => exact fun _ => nofun
  | call p name ts => exact fun s (hs : s ∈ ts) => childInduction step s
  | operation p o ts => exact fun s (hs : s ∈ ts) => childInduction step s

theorem Alike.lines_eq (h : Alike t u) (k : Nat) : t.lines k = u.lines k := by
  induction t using childInduction generalizing u k with
  | step t ih =>
    have hall {ts : List (Tree α)} {us : List (Tree β)} (hts : ∀ s ∈ ts, s ∈ t.children)
        (hall : List.Forall₂ Alike ts us) : linesAll (k + 1) ts = linesAll (k + 1) us := by
      induction hall with
      | nil => rfl
      | cons h _ ihs =>
        rw [List.forall_mem_cons] at hts
        rw [linesAll, linesAll, ih _ hts.1 h, ihs hts.2]
    rw [Tree.lines_eq, Tree.lines_eq, h.label_eq, hall (fun _ hs => hs) h.children]

theorem leadingSpaces_head_lines (t : Tree α) (k : Nat) :
    ∀ line, (t.lines k ++ rest).head? = some line → line.leadingSpaces = 2 * k := by
  intro line hline
  rw [Tree.lines_eq, List.cons_append] at hline
  cases hline
  exact leadingSpaces_spaces_append t.isSpace_head_label _

theorem not_shallow_linesAll_cons : ¬ Shallow k (linesAll k (t :: ts) ++ rest) := by
  intro h
  rw [linesAll, List.append_assoc, Tree.lines_eq, List.cons_append] at h
  have hline := h _ rfl
  rw [leadingSpaces_spaces_append t.isSpace_head_label] at hline
  exact Nat.lt_irrefl _ hline

/-- No line of trees at a level is one of a node below that level at first. -/
theorem Shallow.linesAll_append (h : Shallow k rest) (ts : List (Tree α)) :
    Shallow (k + 1) (linesAll k ts ++ rest) := by
  cases ts with
  | nil => exact fun line hline => (h line hline).trans (by omega)
  | cons t ts =>
    rw [linesAll, List.append_assoc]
    intro line hline
    rw [leadingSpaces_head_lines t k line hline]
    omega

/-- Where trees at a level end, a line above that level follows; so trees with the same lines end together. -/
theorem alikeAll_of_linesAll_append (ih : ∀ t ∈ ts, ∀ {u : Tree β} {k l : Nat} {rest rest' : List Text},
      Shallow (k + 1) rest → Shallow (l + 1) rest' → t.lines k ++ rest = u.lines l ++ rest' →
        k = l ∧ Alike t u ∧ rest = rest')
    (hrest : Shallow k rest) (hrest' : Shallow k rest') (h : linesAll k ts ++ rest = linesAll k us ++ rest') :
    List.Forall₂ Alike ts us ∧ rest = rest' := by
  induction ts generalizing us with
  | nil =>
    cases us with
    | nil => exact ⟨.nil, h⟩
    | cons u us =>
      rw [show rest = linesAll k (u :: us) ++ rest' from h] at hrest
      exact absurd hrest not_shallow_linesAll_cons
  | cons t ts ihs =>
    cases us with
    | nil =>
      rw [show rest' = linesAll k (t :: ts) ++ rest from h.symm] at hrest'
      exact absurd hrest' not_shallow_linesAll_cons
    | cons u us =>
      rw [List.forall_mem_cons] at ih
      rw [linesAll, linesAll, List.append_assoc, List.append_assoc] at h
      obtain ⟨-, halike, hbehind⟩ := ih.1 (hrest.linesAll_append ts) (hrest'.linesAll_append us) h
      obtain ⟨hall, hrests⟩ := ihs ih.2 hbehind
      exact ⟨.cons halike hall, hrests⟩

/-- Trees with the same lines are alike, whatever follows the lines, if it does not go on with lines of nodes below the
roots. -/
theorem alike_of_lines_append (hrest : Shallow (k + 1) rest) (hrest' : Shallow (l + 1) rest')
    (h : t.lines k ++ rest = u.lines l ++ rest') : k = l ∧ Alike t u ∧ rest = rest' := by
  induction t using childInduction generalizing u k l rest rest' with
  | step t ih =>
    rw [Tree.lines_eq, Tree.lines_eq, List.cons_append, List.cons_append] at h
    obtain ⟨hline, hbelow⟩ := List.cons.inj h
    obtain ⟨hspaces, hlabel⟩ := Text.spaces_append_inj t.isSpace_head_label u.isSpace_head_label hline
    obtain rfl : k = l := by omega
    obtain ⟨hall, hrests⟩ := alikeAll_of_linesAll_append ih hrest hrest' hbelow
    exact ⟨rfl, .of_label hlabel hall, hrests⟩

/-- Two texts are the same exactly if they are those of trees that are alike, at the same indent. -/
theorem describe_eq_iff (ht : t.Legible) (hu : u.Legible) : t.describe k = u.describe l ↔ k = l ∧ Alike t u := by
  constructor
  · intro h
    have hlines := congrArg (List.splitOn '\n') h
    rw [splitOn_describe ht, splitOn_describe hu] at hlines
    have hnil (n : Nat) : Shallow n [] := fun _ => nofun
    obtain ⟨hk, halike, -⟩ := alike_of_lines_append (hnil _) (hnil _) (congrArg (· ++ []) hlines)
    exact ⟨hk, halike⟩
  · rintro ⟨rfl, halike⟩
    rw [describe, describe, halike.lines_eq]

/-- **The text of a tree says what the tree is.** If no name and no description has a line break, the text has one line
for each node that is counted. The lines are the nodes in preorder, and a node at depth `d` stands behind
`2 * (k + d)` spaces. Two such texts are the same exactly if the indents are, and the trees have the same shape, with
nodes of the same kind, name, description and written number in the same places. -/
theorem describe_faithful (t : Tree α) (k : Nat) (ht : t.Legible) :
    (t.describe k).splitOn '\n' = ((t.preorder 0).map fun x => Text.spaces (2 * (k + x.1)) ++ x.2.label) ∧
      ((t.describe k).splitOn '\n').length = t.nodeCount ∧
      ∀ (u : Tree β) (l : Nat), u.Legible → (t.describe k = u.describe l ↔ k = l ∧ Alike t u) := by
  have hlines : (t.describe k).splitOn '\n' =
      (t.preorder 0).map fun x => Text.spaces (2 * (k + x.1)) ++ x.2.label := by
    rw [splitOn_describe ht, ← lines_eq_map_preorder, Nat.add_zero]
  refine ⟨hlines, ?_, fun u l hu => describe_eq_iff ht hu⟩
  rw [hlines, List.length_map, length_preorder]

/-- A call in a call, whose argument has a name like a line. -/
def nestedSample : Tree Unit := .call 0 ['f'] [.call 2 ['g'] [.reference 4 "  Number: 1.0".toList]]

/-- The same nodes, but both arguments are those of one call. -/
def flatSample : Tree Unit := .call 0 ['f'] [.call 2 ['g'] [], .reference 4 "  Number: 1.0".toList]

theorem describe_faithful_sample : nestedSample.Legible ∧ flatSample.Legible ∧
    (nestedSample.describe 1).splitOn '\n' =
      ["  FunctionCall: f".toList, "    FunctionCall: g".toList, "      Variable:   Number: 1.0".toList] ∧
    nestedSample.describe 1 ≠ flatSample.describe 1 := by
  have hlegible : nestedSample.Legible := by decide
  obtain ⟨hlines, -, hiff⟩ := describe_faithful nestedSample (β := Unit) 1 hlegible
  refine ⟨hlegible, by decide, hlines.trans (by decide), fun h => ?_⟩
  obtain ⟨-, hcall⟩ := (hiff flatSample 1 (by decide)).1 h
  cases hcall with
  | call hargs => cases hargs with | cons _ hnil => cases hnil

end Tree

end Mixfix
