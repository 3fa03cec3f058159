import Mixfix.Proofs.Operations
import Mixfix.Proofs.Spelled
import Mixfix.Proofs.Within

/-!
# Sentences of one infix operator

The grammar of a registry with a single infix operator of tokens `t₁ … tₙ` (`Registry.HasOnly`) is
`E → A | A t₁ E … tₙ E` if the operator is right-associative and `E → A | E t₁ E … tₙ A` if it is left-associative, with
`A → number | ( E )`. A `Sentence` is a derivation. It has the tokens that are derived, and for the places where they
stand in a list the trees and the sections of its operands, which are those that the indices of the tokens of the
operator cut (`Sentence.cutAt_joints`).

The tokens of an operand are an operand of the registry, and its sites are those of whole operators (`Sentence.nests`).
None is outside of brackets in an atom. So the side that a scan begins from has an atom, and the scan comes to the sites
of the operator at the root before all others (`Sentence.exists_beside`).
-/

namespace Mixfix

variable {α : Type}

/-! ## Derivations -/

/-- The symbols `A` and `E` of the grammar, and what stands behind the first operand of an operation: the given tokens
of the operator, each with an operand behind it. -/
inductive Category where
  | atom
  | expr
  | rest (ts : List Text)

namespace Category

/-- Whether it is an operand that is derived. -/
def isOperand : Category → Bool
  | rest _ => false
  | _ => true

@[simp] theorem isOperand_atom : atom.isOperand = true := rfl

@[simp] theorem isOperand_expr : expr.isOperand = true := rfl

@[simp] theorem isOperand_rest (ts : List Text) : (rest ts).isOperand = false := rfl

end Category

namespace Associativity

/-- The symbol of the first operand. -/
def first : Associativity → Category
  | .right => .atom
  | .left => .expr

/-- The symbol of the last operand. -/
def last : Associativity → Category
  | .right => .expr
  | .left => .atom

@[simp] theorem isOperand_first (a : Associativity) : a.first.isOperand = true := by cases a <;> rfl

@[simp] theorem isOperand_last (a : Associativity) : a.last.isOperand = true := by cases a <;> rfl

end Associativity

/-- A derivation of the grammar `E → A | A t₁ E … tₙ E`, `A → number | ( E )` of a right-associative operator, or of the
grammar `E → A | E t₁ E … tₙ A`, `A → number | ( E )` of a left-associative one. -/
inductive Sentence (a : Associativity) (path : List Text) : Category → Type
  | number {t : Text} {v : Float} : readNumber? t = some v → Float → Sentence a path .atom
  | brackets : Sentence a path .expr → Sentence a path .atom
  | atom : Sentence a path .atom → Sentence a path .expr
  | operation : Sentence a path a.first → Sentence a path (.rest path) → Sentence a path .expr
  | last (t : Text) : Sentence a path a.last → Sentence a path (.rest [t])
  | next (t : Text) {ts : List Text} :
      Sentence a path .expr → Sentence a path (.rest ts) → Sentence a path (.rest (t :: ts))

namespace Sentence

variable {a : Associativity} {path ts : List Text} {c : Category}

/-- The tokens that are derived. -/
def tokens : {c : Category} → Sentence a path c → List Token
  | _, number (t := t) _ w => [.number t w]
  | _, brackets s => .fixed Token.openText :: (s.tokens ++ [.fixed Token.closeText])
  | _, atom x => x.tokens
  | _, operation x r => x.tokens ++ r.tokens
  | _, last t y => .fixed t :: y.tokens
  | _, next t s r => .fixed t :: (s.tokens ++ r.tokens)

/-- The tree whose tokens stand in a list from an index on, and for the rest of an operation those of its operands. -/
def trees (o : Operator α) (full : TokenList) : {c : Category} → Sentence a path c → Nat → List (Tree α)
  | _, number (v := v) _ _, i => [.number (full.positionAt i) v]
  | _, brackets s, i => s.trees o full (i + 1)
  | _, atom x, i => x.trees o full i
  | _, operation x r, i =>
    let j := i + x.tokens.length
    [.operation (full.positionAt j) o (x.trees o full i ++ r.trees o full j)]
  | _, last _ y, i => y.trees o full (i + 1)
  | _, next _ s r, i => s.trees o full (i + 1) ++ r.trees o full (i + 1 + s.tokens.length)

/-- The tokens of an operand, without a token before it, and for the rest of an operation those of its operands, each
with the token before it. -/
def parts : {c : Category} → Sentence a path c → List (Text × List Token)
  | _, last t y => [(t, y.tokens)]
  | _, next t s r => (t, s.tokens) :: r.parts
  | _, s => [([], s.tokens)]

/-- The section of an operand whose tokens stand in a list from an index on, and for the rest of an operation those of
its operands. -/
def sections (full : TokenList) : {c : Category} → Sentence a path c → Nat → List TokenList
  | _, last _ y, i => y.sections full (i + 1)
  | _, next _ s r, i => s.sections full (i + 1) ++ r.sections full (i + 1 + s.tokens.length)
  | _, s, i => [full.slice i (i + s.tokens.length)]

theorem parts_eq (s : Sentence a path c) (h : c.isOperand = true) : s.parts = [([], s.tokens)] := by
  cases s with
  | number _ _ | brackets _ | atom _ | operation _ _ => rfl
  | last t y | next t s r => cases h

/-- The parts of an operand tell its tokens. -/
theorem parts_eq_iff {s s' : Sentence a path c} (h : c.isOperand = true) :
    s.parts = s'.parts ↔ s.tokens = s'.tokens := by
  rw [s.parts_eq h, s'.parts_eq h]
  simp

theorem sections_eq (s : Sentence a path c) (h : c.isOperand = true) (full : TokenList) (i : Nat) :
    s.sections full i = [full.slice i (i + s.tokens.length)] := by
  cases s with
  | number _ _ | brackets _ | atom _ | operation _ _ => rfl
  | last t y | next t s r => cases h

theorem tokens_ne_nil (s : Sentence a path c) : s.tokens ≠ [] := by
  induction s with
  | number _ _ | brackets _ _ | last _ _ _ | next _ _ _ _ _ => exact List.cons_ne_nil _ _
  | atom x ih => exact ih
  | operation x r ih _ => exact List.append_ne_nil_of_left_ne_nil ih _

/-! ### The rest of an operation -/

theorem parts_ne_nil (s : Sentence a path c) : s.parts ≠ [] := by
  cases s <;> exact List.cons_ne_nil _ _

theorem map_fst_parts : {ts : List Text} → (r : Sentence a path (.rest ts)) → r.parts.map Prod.fst = ts
  | _, last _ _ => rfl
  | _, next t _ r => congrArg (t :: ·) (map_fst_parts r)

/-- A token of the operator stands in the rest of an operation. -/
theorem fixed_mem {t : Text} : {ts : List Text} → (r : Sentence a path (.rest ts)) → t ∈ ts → .fixed t ∈ r.tokens
  | _, last _ _, h => by
    rw [List.mem_singleton.1 h]
    exact List.mem_cons_self
  | _, next _ s r, h => by
    rcases List.mem_cons.1 h with rfl | h
    · exact List.mem_cons_self
    · exact List.mem_cons_of_mem _ (List.mem_append_right _ (fixed_mem r h))

/-- A sentence that begins with a number and lacks a token of the operator is the number. -/
theorem eq_nil_of_lacks {d : Sentence a path .expr} {s t : Text} {w : Float} {us : List Token}
    (hd : d.tokens = .number t w :: us) (hs : s ∈ path) (hlacks : .fixed s ∉ d.tokens) : us = [] := by
  cases d with
  | atom x =>
    cases x with
    | number h w => exact (List.cons.inj hd).2.symm
    | brackets d => cases (List.cons.inj hd).1
  | operation x r => exact absurd (List.mem_append_right _ (r.fixed_mem hs)) hlacks

theorem joined_parts : {ts : List Text} → (r : Sentence a path (.rest ts)) → (m : List Token) →
    TokenList.joined m r.parts = m ++ r.tokens
  | _, last _ _, _ => rfl
  | _, next t s r, m => congrArg (m ++ .fixed t :: ·) (joined_parts r s.tokens)

/-- The last part is the last operand. -/
theorem exists_getLast_parts : {ts : List Text} → (r : Sentence a path (.rest ts)) →
    ∃ y : Sentence a path a.last, (r.parts.getLast r.parts_ne_nil).2 = y.tokens
  | _, last t y => ⟨y, rfl⟩
  | _, next t s r => by
    obtain ⟨y, hy⟩ := exists_getLast_parts r
    refine ⟨y, ?_⟩
    rw [← hy]
    exact congrArg Prod.snd (List.getLast_cons r.parts_ne_nil)

/-- Operands with tokens before them are the rest of an operation. -/
theorem exists_rest {ps : List (Text × List Token)} (hne : ps ≠ []) (hts : ps.map Prod.fst = ts)
    (hps : ∀ p ∈ ps, ∃ s : Sentence a path .expr, s.tokens = p.2)
    (hlast : ∃ y : Sentence a path a.last, y.tokens = (ps.getLast hne).2) :
    ∃ r : Sentence a path (.rest ts), r.parts = ps := by
  induction ps generalizing ts with
  | nil => exact absurd rfl hne
  | cons p ps ih =>
    obtain ⟨t, m⟩ := p
    subst hts
    cases ps with
    | nil =>
      obtain ⟨y, rfl⟩ := hlast
      exact ⟨last t y, rfl⟩
    | cons q ps =>
      obtain ⟨s, rfl⟩ := hps (t, m) List.mem_cons_self
      rw [List.getLast_cons (List.cons_ne_nil q ps)] at hlast
      obtain ⟨r, hr⟩ := ih (List.cons_ne_nil q ps) rfl (fun p hp => hps p (List.mem_cons_of_mem _ hp)) hlast
      exact ⟨next t s r, congrArg ((t, s.tokens) :: ·) hr⟩

/-- The sections around the tokens of an operation are those of its operands. -/
theorem cutFrom_joints {full : TokenList} (hfull : full.Faithful) {i j : Nat} (hj : j ≤ full.size) :
    {ts : List Text} → (r : Sentence a path (.rest ts)) → {k : Nat} → {m : List Token} →
    i + (k + m.length + r.tokens.length) = j → (full.slice i j).cutFrom k (TokenList.joints k m r.parts) =
      full.slice (i + k) (i + (k + m.length)) :: r.sections full (i + (k + m.length))
  | _, last t y, k, m, h => by
    simp only [tokens, List.length_cons] at h
    have hsize : (full.slice i j).size = k + m.length + 1 + y.tokens.length := by
      rw [TokenList.size_slice hj]
      omega
    rw [parts, TokenList.joints, TokenList.joints, TokenList.cutFrom, TokenList.cutFrom, hsize,
      hfull.slice_slice hj (by omega) (by omega), hfull.slice_slice hj (by omega) (by omega), sections,
      sections_eq y a.isOperand_last]
    simp only [Nat.add_assoc]
  | _, next t s r, k, m, h => by
    simp only [tokens, List.length_cons, List.length_append] at h
    have hrest := @cutFrom_joints full hfull i j hj _ r (k + m.length + 1) s.tokens (by omega)
    rw [parts, TokenList.joints, TokenList.cutFrom, hfull.slice_slice hj (by omega) (by omega), hrest, sections,
      sections_eq s rfl]
    simp only [Nat.add_assoc, List.singleton_append]

theorem cutAt_joints {full : TokenList} (hfull : full.Faithful) (x : Sentence a path a.first)
    (r : Sentence a path (.rest ts)) {i j : Nat} (hj : j ≤ full.size)
    (h : i + (x.tokens.length + r.tokens.length) = j) :
    (full.slice i j).cutAt (TokenList.joints 0 x.tokens r.parts) =
      x.sections full i ++ r.sections full (i + x.tokens.length) := by
  have hcut := @cutFrom_joints a path full hfull i j hj _ r 0 x.tokens (by omega)
  rw [TokenList.cutAt, hcut, sections_eq x a.isOperand_first]
  simp

/-- The tree of an operand is one. -/
theorem exists_tree (d : Sentence a path c) (hc : c.isOperand = true) (o : Operator α) (full : TokenList) (i : Nat) :
    ∃ t, d.trees o full i = [t] := by
  induction d generalizing i with
  | number _ _ => exact ⟨_, rfl⟩
  | brackets d ih => exact ih rfl (i + 1)
  | atom x ih => exact ih rfl i
  | operation x rest _ _ => exact ⟨_, rfl⟩
  | last t y _ => cases hc
  | next t d rest _ _ => cases hc

/-- The sections have no more tokens than the derivation. -/
theorem size_le_of_mem_sections {full s : TokenList} (d : Sentence a path c) {i : Nat} (hs : s ∈ d.sections full i) :
    s.size ≤ d.tokens.length := by
  have hslice {i : Nat} (n : Nat) (h : s ∈ [full.slice i (i + n)]) : s.size ≤ n := by
    have hle := (full.size_slice_le i (i + n)).1
    rw [List.mem_singleton.1 h]
    omega
  induction d generalizing i with
  | number h w => exact hslice _ hs
  | brackets d _ => exact hslice _ hs
  | atom x _ => exact hslice _ hs
  | operation x r _ _ => exact hslice _ hs
  | last t y ih => exact Nat.le_succ_of_le (ih hs)
  | next t d r ihd ihr =>
    rw [tokens, List.length_cons, List.length_append]
    rcases List.mem_append.1 hs with h | h
    · have := ihd h
      omega
    · have := ihr h
      omega

/-- The sections of operands have fewer tokens than the operation. -/
theorem size_lt_of_mem_operands {full s : TokenList} {x : Sentence a path a.first} {r : Sentence a path (.rest path)}
    {i : Nat} (hs : s ∈ x.sections full i ++ r.sections full (i + x.tokens.length)) :
    s.size < (operation x r).tokens.length := by
  have hx := List.length_pos_iff.2 x.tokens_ne_nil
  have hr := List.length_pos_iff.2 r.tokens_ne_nil
  rw [tokens, List.length_append]
  rcases List.mem_append.1 hs with hs | hs
  · have := x.size_le_of_mem_sections hs
    omega
  · have := r.size_le_of_mem_sections hs
    omega

/-- The trees have no more nodes than the derivation has tokens, even with one for the operation itself. -/
theorem nodeCountAll_trees_le (o : Operator α) (full : TokenList) (d : Sentence a path c) (i : Nat) :
    Tree.nodeCountAll (d.trees o full i) + (bif c.isOperand then 0 else 1) ≤ d.tokens.length := by
  induction d generalizing i with
  | number h w => simp [trees, Tree.nodeCountAll, Tree.nodeCount, tokens, Category.isOperand]
  | brackets d ih =>
    have := ih (i + 1)
    simp only [Category.isOperand_atom, Category.isOperand_expr, cond_true] at this ⊢
    rw [trees, tokens, List.length_cons, List.length_append]
    omega
  | atom x ih => exact ih i
  | operation x r ihx ihr =>
    have hx := ihx i
    have hr := ihr (i + x.tokens.length)
    simp only [Associativity.isOperand_first, Category.isOperand_expr, Category.isOperand_rest, cond_true, cond_false]
      at hx hr ⊢
    rw [trees, tokens, List.length_append, Tree.nodeCountAll, Tree.nodeCountAll, Tree.nodeCount,
      Tree.nodeCountAll_append]
    omega
  | last t y ih =>
    have := ih (i + 1)
    simp only [Associativity.isOperand_last, Category.isOperand_rest, cond_true, cond_false] at this ⊢
    rw [trees, tokens, List.length_cons]
    omega
  | next t d r ihd ihr =>
    have hd := ihd (i + 1)
    have hr := ihr (i + 1 + d.tokens.length)
    simp only [Category.isOperand_expr, Category.isOperand_rest, cond_true, cond_false] at hd hr ⊢
    rw [trees, tokens, List.length_cons, List.length_append, Tree.nodeCountAll_append]
    omega

/-! ### Derivations in a list -/

/-- The tokens stand in a list from an index on. -/
def StandsAt (d : Sentence a path c) (full : TokenList) (i : Nat) : Prop :=
  ∃ pre post, full.tokens = pre ++ d.tokens ++ post ∧ pre.length = i

namespace StandsAt

theorem le_size {d : Sentence a path c} (h : d.StandsAt full i) : i + d.tokens.length ≤ full.size := by
  obtain ⟨pre, post, htokens, rfl⟩ := h
  rw [TokenList.size_eq, htokens, List.length_append, List.length_append]
  omega

theorem tokens_slice {d : Sentence a path c} (h : d.StandsAt full i) :
    (full.slice i (i + d.tokens.length)).tokens = d.tokens := by
  obtain ⟨pre, post, htokens, rfl⟩ := h
  exact TokenList.tokens_slice_mid htokens

theorem size_slice {d : Sentence a path c} (h : d.StandsAt full i) :
    (full.slice i (i + d.tokens.length)).size = d.tokens.length := by
  rw [TokenList.size_eq, h.tokens_slice]

theorem size_slice_pos {d : Sentence a path c} (h : d.StandsAt full i) :
    0 < (full.slice i (i + d.tokens.length)).size := by
  rw [h.size_slice]
  exact List.length_pos_iff.2 d.tokens_ne_nil

theorem isEmpty_slice {d : Sentence a path c} (h : d.StandsAt full i) :
    (full.slice i (i + d.tokens.length)).isEmpty = false := TokenList.isEmpty_of_size_pos h.size_slice_pos

theorem position_slice {d : Sentence a path c} (h : d.StandsAt full i) :
    (full.slice i (i + d.tokens.length)).position = full.positionAt i := by
  rw [TokenList.position_eq, TokenList.positionAt_slice h.le_size (Nat.le_add_right _ _), Nat.add_zero]

theorem brackets {d : Sentence a path .expr} (h : (brackets d).StandsAt full i) : d.StandsAt full (i + 1) := by
  obtain ⟨pre, post, htokens, rfl⟩ := h
  exact ⟨pre ++ [.fixed Token.openText], .fixed Token.closeText :: post, by rw [htokens, tokens]; simp, by simp⟩

theorem operation {x : Sentence a path a.first} {r : Sentence a path (.rest path)}
    (h : (operation x r).StandsAt full i) : x.StandsAt full i ∧ r.StandsAt full (i + x.tokens.length) := by
  obtain ⟨pre, post, htokens, rfl⟩ := h
  exact ⟨⟨pre, r.tokens ++ post, by rw [htokens, tokens]; simp, rfl⟩,
    pre ++ x.tokens, post, by rw [htokens, tokens]; simp, List.length_append⟩

theorem last {t : Text} {y : Sentence a path a.last} (h : (last t y).StandsAt full i) : y.StandsAt full (i + 1) := by
  obtain ⟨pre, post, htokens, rfl⟩ := h
  exact ⟨pre ++ [.fixed t], post, by rw [htokens, tokens]; simp, by simp⟩

theorem next {t : Text} {s : Sentence a path .expr} {r : Sentence a path (.rest ts)}
    (h : (next t s r).StandsAt full i) : s.StandsAt full (i + 1) ∧ r.StandsAt full (i + 1 + s.tokens.length) := by
  obtain ⟨pre, post, htokens, rfl⟩ := h
  exact ⟨⟨pre ++ [.fixed t], r.tokens ++ post, by rw [htokens, tokens]; simp, by simp⟩,
    pre ++ .fixed t :: s.tokens, post, by rw [htokens, tokens]; simp, by simp; omega⟩

end StandsAt

end Sentence

/-! ## Registries with one operator -/

/-- The registry holds one operator only, an infix one whose tokens are distinct and are no brackets or separators. -/
structure Registry.HasOnly (r : Registry α) (o : Operator α) (a : Associativity) : Prop where
  reachable : r.Reachable
  operators_eq : r.operators = [o]
  infixed : o.fixity = .infixed a
  avoids : r.AvoidsBuiltins
  nodup : o.tokens.Nodup

namespace Registry.HasOnly

variable {r : Registry α} {o : Operator α} {a : Associativity}

theorem mem (h : r.HasOnly o a) : o ∈ r.operators := by
  rw [h.operators_eq]
  exact List.mem_singleton_self o

theorem eq_of_mem (h : r.HasOnly o a) {o' : Operator α} (ho' : o' ∈ r.operators) : o' = o := by
  rw [h.operators_eq] at ho'
  exact List.mem_singleton.1 ho'

theorem own (h : r.HasOnly o a) : r.Own where
  reachable := h.reachable
  avoids := h.avoids
  nodup o' ho' _ := by
    rw [h.eq_of_mem ho']
    exact h.nodup
  own o₁ ho₁ _ o₂ ho₂ _ _ _ := by rw [h.eq_of_mem ho₁, h.eq_of_mem ho₂]

theorem separate (h : r.HasOnly o a) : r.Separate := h.own.unmixed.toSeparate

theorem tokens_ne_nil (h : r.HasOnly o a) : o.tokens ≠ [] := (h.separate.formed h.mem).tokens_ne

theorem infix_token (h : r.HasOnly o a) {t : Text} (ht : t ∈ o.tokens) :
    (Token.fixed t).isBuiltin = false ∧ r.isInfixToken (.fixed t) = true :=
  h.separate.infix_token h.mem ⟨a, h.infixed⟩ ht

end Registry.HasOnly

/-- The group is the only one of the registry, and holds the operator and no other. -/
structure Registry.OnlyGroup (r : Registry α) (o : Operator α) (a : Associativity) (group : Group α) : Prop where
  groups_eq : r.groups.1 = [group]
  held : group.get? (.infixed a) o.tokens = some o
  only : ∀ f path o', group.get? f path = some o' → f = .infixed a ∧ path = o.tokens ∧ o' = o

theorem Registry.HasOnly.exists_group {r : Registry α} {o : Operator α} {a : Associativity} (h : r.HasOnly o a) :
    ∃ group, r.OnlyGroup o a group := by
  have hr := h.reachable.wellFormed
  have hgroups : r.groups.1 = [(Group.empty o.priority).addPlaced o] := by
    rw [hr.groups_eq_foldl, h.operators_eq]
    · rfl
    · rw [h.operators_eq]
      exact List.pairwise_singleton _ _
  refine ⟨_, hgroups, ?_, ?_⟩
  · obtain ⟨group, hm, hholds⟩ := hr.exists_holds h.mem
    rw [hgroups, List.mem_singleton] at hm
    rw [Group.Holds, h.infixed, hm] at hholds
    exact hholds
  · intro f path o' ho'
    obtain ⟨hmem, hf, hpath⟩ := hr.consistent (by rw [hgroups]; exact List.mem_singleton_self _) f path o' ho'
    obtain rfl := h.eq_of_mem hmem
    exact ⟨hf.symm.trans h.infixed, hpath.symm, rfl⟩

namespace Registry.OnlyGroup

variable {r : Registry α} {o : Operator α} {a : Associativity} {group : Group α}

theorem mem (h : r.OnlyGroup o a group) : group ∈ r.groups.1 := by
  rw [h.groups_eq]
  exact List.mem_singleton_self group

/-- The group holds nothing of another kind. -/
theorem get?_eq_none (h : r.OnlyGroup o a group) {f : Fixity} (hf : f ≠ .infixed a) (path : List Text) :
    group.get? f path = none := by
  exact Option.eq_none_iff_forall_ne_some.2 fun o' ho' => hf (h.only f path o' ho').1

end Registry.OnlyGroup

/-! ## Sites -/

namespace Associativity

variable {β : Type}

/-- What a scan for operators of the associativity comes to first, beside what it comes to later. -/
def beside (a : Associativity) (v x : List β) : List β :=
  match a with
  | .right => v ++ x
  | .left => x ++ v

theorem beside_beside (a : Associativity) (v x y : List β) : a.beside (a.beside v x) y = a.beside v (a.beside x y) := by
  cases a with
  | right => exact List.append_assoc v x y
  | left => exact (List.append_assoc y x v).symm

theorem beside_nil (a : Associativity) (v : List β) : a.beside v [] = v := by
  cases a with
  | right => exact List.append_nil v
  | left => exact List.nil_append v

end Associativity

/-- The tokens are an operand, and their sites are those of whole operators. -/
structure Registry.Nests (r : Registry α) (ts : List Token) : Prop where
  operand : r.Operand ts
  nested : ∀ before behind index, Scan.Nested (fun p => (r.infixOps.get? p).isSome = true)
    (Site.inTokens r before behind index 0 ts)

namespace Sentence

variable {r : Registry α} {o : Operator α} {a : Associativity} {c : Category} {before behind : List Token} {index : Nat}

/-- The sites behind those of the first operand, and before those of the last, spell the operator. -/
theorem exists_spelled (h : r.HasOnly o a) {x : Sentence a o.tokens a.first}
    {rest : Sentence a o.tokens (.rest o.tokens)} (hx : r.Nests x.tokens) (hrest : ∀ p ∈ rest.parts, r.Nests p.2) :
    ∃ behind' before' index' w own, Site.inTokens r before behind index 0 (operation x rest).tokens =
        Site.inTokens r before behind' index 0 x.tokens ++
          (w ++ Site.inTokens r before' behind index' 0 (rest.parts.getLast rest.parts_ne_nil).2) ∧
      Scan.Spelled (fun p => (r.infixOps.get? p).isSome = true) o.tokens w own ∧
        own.map Site.index = TokenList.joints index x.tokens rest.parts := by
  have htoken (p : Text × List Token) (hp : p ∈ rest.parts) : p.1 ∈ o.tokens := by
    rw [← rest.map_fst_parts]
    exact List.mem_map_of_mem hp
  have hspelled := @exists_spelled_joined _ r (fun p => (r.infixOps.get? p).isSome = true) before behind index _ _
    rest.parts_ne_nil hx.operand fun p hp =>
      ⟨h.infix_token (htoken p hp), (hrest p hp).operand, (hrest p hp).nested⟩
  rwa [joined_parts, rest.map_fst_parts] at hspelled

theorem nests_of_parts {d : Sentence a o.tokens c} (hc : c.isOperand = true) (h : ∀ p ∈ d.parts, r.Nests p.2) :
    r.Nests d.tokens := by
  rw [d.parts_eq hc] at h
  exact h _ (List.mem_singleton_self _)

/-- The operands of a derivation nest. -/
theorem nests_parts (h : r.HasOnly o a) (d : Sentence a o.tokens c) : ∀ p ∈ d.parts, r.Nests p.2 := by
  have hone {c : Category} {d : Sentence a o.tokens c} (hc : c.isOperand = true) (hd : r.Nests d.tokens) :
      ∀ p ∈ d.parts, r.Nests p.2 := by
    intro p hp
    rw [d.parts_eq hc, List.mem_singleton] at hp
    rwa [hp]
  induction d with
  | number ht w =>
    refine hone rfl ⟨.singleton rfl rfl, fun before behind index => ?_⟩
    rw [tokens, Site.inTokens_singleton rfl]
    exact .nil
  | brackets d ih =>
    have hm := (nests_of_parts rfl ih).operand.balanced
    refine hone rfl ⟨.brackets h.separate.toWellFormed.sparesBrackets hm, fun before behind index => ?_⟩
    rw [tokens, Site.inTokens_brackets hm]
    exact .nil
  | atom x ih => exact hone rfl ⟨(nests_of_parts rfl ih).operand, (nests_of_parts rfl ih).nested⟩
  | operation x rest ihx ihrest =>
    have hx := nests_of_parts a.isOperand_first ihx
    refine hone rfl ⟨?_, fun before behind index => ?_⟩
    · rw [tokens, ← joined_parts]
      refine operand_joined hx.operand fun p hp => ⟨(h.infix_token ?_).1, (ihrest p hp).operand⟩
      rw [← rest.map_fst_parts]
      exact List.mem_map_of_mem hp
    · obtain ⟨_, _, _, w, own, hsites, hspelled, -⟩ := exists_spelled h hx ihrest
      rw [hsites]
      have hlast := ihrest _ (List.getLast_mem rest.parts_ne_nil)
      refine (hx.nested _ _ _).append (.whole ?_ hspelled (hlast.nested _ _ _))
      rw [h.separate.get?_infix h.mem h.infixed]
      rfl
  | last t y ih =>
    intro p hp
    rw [List.mem_singleton.1 hp]
    exact nests_of_parts a.isOperand_last ih
  | next t d rest ihd ihrest =>
    intro p hp
    rcases List.mem_cons.1 hp with rfl | hp
    · exact nests_of_parts rfl ihd
    · exact ihrest p hp

theorem nests (h : r.HasOnly o a) (d : Sentence a o.tokens c) (hc : c.isOperand = true) : r.Nests d.tokens :=
  nests_of_parts hc (nests_parts h d)

/-- No site stands outside of brackets in an atom. -/
theorem sites_atom (h : r.HasOnly o a) (x : Sentence a o.tokens c) (hc : c = .atom) :
    Site.inTokens r before behind index 0 x.tokens = [] := by
  subst hc
  cases x with
  | number ht w => exact Site.inTokens_singleton rfl
  | brackets d => exact Site.inTokens_brackets (nests h d rfl).operand.balanced

/-- A scan comes to the sites of the operator of an operation first. -/
theorem exists_beside (h : r.HasOnly o a) (x : Sentence a o.tokens a.first)
    (rest : Sentence a o.tokens (.rest o.tokens)) :
    ∃ w z own, Site.inTokens r before behind index 0 (operation x rest).tokens = a.beside w z ∧
      Scan.Spelled (fun p => (r.infixOps.get? p).isSome = true) o.tokens w own ∧
        own.map Site.index = TokenList.joints index x.tokens rest.parts := by
  obtain ⟨_, _, _, w, own, hsites, hspelled, hown⟩ :=
    @exists_spelled _ r o a before behind index h x rest (nests h x a.isOperand_first) (nests_parts h rest)
  obtain ⟨y, hy⟩ := rest.exists_getLast_parts
  rw [hy] at hsites
  cases a with
  | right =>
    rw [sites_atom h x rfl, List.nil_append] at hsites
    exact ⟨w, _, own, hsites, hspelled, hown⟩
  | left =>
    rw [sites_atom h y rfl, List.append_nil] at hsites
    exact ⟨w, _, own, hsites, hspelled, hown⟩

end Sentence

end Mixfix
