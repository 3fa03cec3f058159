import Mathlib.Algebra.Order.BigOperators.Group.List
import Mathlib.Algebra.Order.Group.Nat
import Mixfix.Proofs.Operations
import Mixfix.Proofs.Spelled
import Mixfix.Proofs.Within

/-!
# Printed trees are parsed back

A tree is printed with its first and last operands in brackets, unless these are literals, variables or calls, and the
operands in between bare (`Prints`). If no two infix operators share a token and none of their tokens is prefix or
postfix, such tokens parse to the tree again, positions apart, whatever the priorities are (`Grammar.parse_printed`).
-/

namespace Mixfix

variable {α : Type}

/-! ## Printing -/

/-- The tokens of a first or last operand: those of an operation are put in brackets. -/
def outer : Tree α → List Token → List Token
  | .operation _ _ _, ts => .fixed Token.openText :: (ts ++ [.fixed Token.closeText])
  | _, ts => ts

/-- A tree is printed as tokens. Operands are trees with the tokens that they are printed as. -/
inductive Prints (g : Grammar α) : Tree α → List Token → Prop
  | number {p : Int} {t : Text} {v w : Float} : readNumber? t = some v → Prints g (.number p v) [.number t w]
  | reference {p : Int} {t : Text} : t.trim ∈ g.vars → Prints g (.reference p t.trim) [.raw t]
  | callEmpty {p : Int} {t : Text} : t.trim ∈ g.functions →
      Prints g (.call p t.trim []) [.raw t, .fixed Token.openText, .fixed Token.closeText]
  | call {p : Int} {t : Text} {x : Tree α × List Token} {xs : List (Tree α × List Token)} : t.trim ∈ g.functions →
      (∀ y ∈ x :: xs, Prints g y.1 y.2) → Prints g (.call p t.trim (x.1 :: xs.map Prod.fst))
        (.raw t :: .fixed Token.openText ::
          (TokenList.joined x.2 (xs.map fun y => (Token.separatorText, y.2)) ++ [.fixed Token.closeText]))
  | prefixed {p : Int} {o : Operator α} {t : Text} {x : Tree α} {ts : List Token} : o ∈ g.operators.operators →
      o.fixity = .prefixed → o.tokens = [t] → Prints g x ts → Prints g (.operation p o [x]) (.fixed t :: outer x ts)
  | postfixed {p : Int} {o : Operator α} {t : Text} {x : Tree α} {ts : List Token} : o ∈ g.operators.operators →
      o.fixity = .postfixed → o.tokens = [t] → Prints g x ts → Prints g (.operation p o [x]) (outer x ts ++ [.fixed t])
  | infixed {p : Int} {o : Operator α} {t : Text} {x y : Tree α} {us vs : List Token}
      {mids : List (Text × Tree α × List Token)} : o ∈ g.operators.operators → (∃ a, o.fixity = .infixed a) →
      o.tokens = mids.map Prod.fst ++ [t] → Prints g x us → (∀ m ∈ mids, Prints g m.2.1 m.2.2) → Prints g y vs →
      Prints g (.operation p o (x :: (mids.map fun m => m.2.1) ++ [y]))
        (TokenList.joined (outer x us) ((mids.map fun m => (m.1, m.2.2)) ++ [(t, outer y vs)]))

variable {g : Grammar α} {t : Tree α} {ts : List Token}

theorem length_le_outer (t : Tree α) (ts : List Token) : ts.length ≤ (outer t ts).length := by
  cases t with
  | number p v | reference p n | unknown p k | call p n xs => exact Nat.le_refl _
  | operation p o xs =>
    rw [outer, List.length_cons, List.length_append]
    omega

/-- The operands of an infix operator with the tokens that stand for them. -/
def operandsOf (x y : Tree α) (us vs : List Token) (mids : List (Text × Tree α × List Token)) :
    List (Tree α × List Token) := (x, outer x us) :: (mids.map Prod.snd ++ [(y, outer y vs)])

theorem map_fst_operandsOf (x y : Tree α) (us vs : List Token) (mids : List (Text × Tree α × List Token)) :
    (operandsOf x y us vs mids).map Prod.fst = x :: (mids.map fun m => m.2.1) ++ [y] := by
  simp [operandsOf, Function.comp_def]

theorem map_snd_operandsOf (x y : Tree α) (us vs : List Token) (mids : List (Text × Tree α × List Token)) (t : Text) :
    (operandsOf x y us vs mids).map Prod.snd =
      outer x us :: ((mids.map fun m => (m.1, m.2.2)) ++ [(t, outer y vs)]).map Prod.snd := by
  simp [operandsOf, Function.comp_def]

/-- A tree is printed in at least as many tokens as it has nodes. -/
theorem Prints.nodeCount_le (h : Prints g t ts) : t.nodeCount ≤ ts.length := by
  induction h with
  | number _ | reference _ | callEmpty _ => simp [Tree.nodeCount, Tree.nodeCountAll]
  | @call p t x xs _ _ ih =>
    have hargs := Tree.nodeCountAll_le ih
    have hjoined := TokenList.length_joined x.2 (xs.map fun y => (Token.separatorText, y.2))
    have hsnd : (Prod.snd ∘ fun y : Tree α × List Token => (Token.separatorText, y.2)) = Prod.snd := rfl
    rw [List.map_map, hsnd] at hjoined
    rw [Tree.nodeCount, List.length_cons, List.length_cons, List.length_append, hjoined]
    exact Nat.le_trans (Nat.add_le_add_left hargs 1) (by rw [List.map_cons]; omega)
  | @prefixed p o t x ts _ _ _ _ ih =>
    have := length_le_outer x ts
    rw [Tree.nodeCount, Tree.nodeCountAll, Tree.nodeCountAll, List.length_cons]
    omega
  | @postfixed p o t x ts _ _ _ _ ih =>
    have := length_le_outer x ts
    rw [Tree.nodeCount, Tree.nodeCountAll, Tree.nodeCountAll, List.length_append, List.length_singleton]
    omega
  | @infixed p o t x y us vs mids _ _ _ _ _ _ ihx ihm ihy =>
    have hle : ∀ z ∈ operandsOf x y us vs mids, z.1.nodeCount ≤ z.2.length := by
      simp only [operandsOf, List.mem_cons, List.mem_append, List.not_mem_nil, or_false]
      rintro z (rfl | hz | rfl)
      · exact Nat.le_trans ihx (length_le_outer x us)
      · obtain ⟨m, hm, rfl⟩ := List.mem_map.1 hz
        exact ihm m hm
      · exact Nat.le_trans ihy (length_le_outer y vs)
    have hcount := Tree.nodeCountAll_le hle
    rw [map_fst_operandsOf, map_snd_operandsOf x y us vs mids t] at hcount
    rw [Tree.nodeCount, TokenList.length_joined, List.length_append, List.length_singleton]
    omega

/-! ## What printed tokens are like -/

section Printed

variable {before behind : List Token} {index : Nat}

theorem operand_outer (hr : g.operators.Separate) (h : g.operators.Operand ts) (t : Tree α) :
    g.operators.Operand (outer t ts) := by
  cases t with
  | number p v | reference p n | unknown p k | call p n xs => exact h
  | operation p o xs => exact .brackets hr.toWellFormed.sparesBrackets h.balanced

/-- Printed tokens are an operand. -/
theorem Prints.operand (hr : g.operators.Separate) (h : Prints g t ts) : g.operators.Operand ts := by
  have hspares := hr.toWellFormed.sparesBrackets
  induction h with
  | number _ => exact .singleton rfl rfl
  | reference _ => exact .singleton rfl rfl
  | callEmpty _ => exact .called (m := []) hspares rfl rfl .nil
  | @call p t x xs _ _ ih =>
    refine .called hspares rfl rfl (balanced_joined (ih x List.mem_cons_self).balanced fun p hp => ?_)
    obtain ⟨y, hy, rfl⟩ := List.mem_map.1 hp
    exact ⟨rfl, (ih y (List.mem_cons_of_mem _ hy)).balanced⟩
  | @prefixed p o t x ts ho hf hts _ ih =>
    have ht := hr.isPrefixToken_iff.2 ⟨o, ho, hf, hts⟩
    exact .prefixed (operand_outer hr ih x) (hr.of_prefix ht).1 ht
  | @postfixed p o t x ts ho hf hts _ ih =>
    have ht := hr.isPostfixToken_iff.2 ⟨o, ho, hf, hts⟩
    exact .postfixed (operand_outer hr ih x) (hr.of_postfix ht).1 ht
  | @infixed p o t x y us vs mids ho hf hts _ _ _ ihx ihm ihy =>
    refine operand_joined (operand_outer hr ihx x) fun q hq => ?_
    rcases List.mem_append.1 hq with hq | hq
    · obtain ⟨m, hm, rfl⟩ := List.mem_map.1 hq
      exact ⟨hr.isBuiltin_of_mem ho (by rw [hts]; exact List.mem_append_left _ (List.mem_map_of_mem hm)), ihm m hm⟩
    · rw [List.mem_singleton.1 hq]
      exact ⟨hr.isBuiltin_of_mem ho (by rw [hts]; exact List.mem_append_right _ (List.mem_singleton_self t)),
        operand_outer hr ihy y⟩

/-- The sites of an operand in brackets, and of literals, variables and calls. -/
theorem Prints.sites_outer (hr : g.operators.Separate) (h : Prints g t ts) :
    Site.inTokens g.operators before behind index 0 (outer t ts) = [] := by
  have hb := (h.operand hr).balanced
  have hcall {t : Text} {m : List Token} (hm : Balanced m) : Site.inTokens g.operators before behind index 0
      (.raw t :: .fixed Token.openText :: (m ++ [.fixed Token.closeText])) = [] := by
    rw [← List.singleton_append, Site.inTokens_append, Site.inTokens_singleton rfl]
    exact Site.inTokens_brackets hm
  cases h with
  | number _ | reference _ => exact Site.inTokens_singleton rfl
  | callEmpty _ => exact hcall .nil
  | @call p t x xs _ hxs =>
    refine hcall (balanced_joined ((hxs x List.mem_cons_self).operand hr).balanced fun p hp => ?_)
    obtain ⟨y, hy, rfl⟩ := List.mem_map.1 hp
    exact ⟨rfl, ((hxs y (List.mem_cons_of_mem _ hy)).operand hr).balanced⟩
  | prefixed _ _ _ _ | postfixed _ _ _ _ | infixed _ _ _ _ _ _ => exact Site.inTokens_brackets hb

/-- No operator token stands at the ends of an outer operand. -/
theorem Prints.ends_outer (hr : g.operators.Separate) (h : Prints g t ts) :
    (∃ s v, outer t ts = s :: v ∧ g.operators.isOperatorToken s = false) ∧
      ∃ u s, outer t ts = u ++ [s] ∧ g.operators.isOperatorToken s = false := by
  have hopen := hr.toWellFormed.sparesBrackets.opening
  have hclose := hr.toWellFormed.sparesBrackets.closing
  cases h with
  | number _ | reference _ => exact ⟨⟨_, [], rfl, rfl⟩, [], _, rfl, rfl⟩
  | @callEmpty p t _ => exact ⟨⟨_, _, rfl, rfl⟩, [.raw t, .fixed Token.openText], _, rfl, hclose⟩
  | call _ _ => exact ⟨⟨_, _, rfl, rfl⟩, _ :: _ :: _, _, rfl, hclose⟩
  | prefixed _ _ _ _ | postfixed _ _ _ _ | infixed _ _ _ _ _ _ =>
    exact ⟨⟨_, _, rfl, hopen⟩, _ :: _, _, rfl, hclose⟩

/-- No site stands outside of brackets in a printed prefix operation. -/
theorem Prints.sites_prefixed (hr : g.operators.Unmixed) {t : Text} {x : Tree α}
    (ht : g.operators.isPrefixToken (.fixed t) = true) (hx : Prints g x ts) :
    Site.inTokens g.operators before behind index 0 (.fixed t :: outer x ts) = [] := by
  obtain ⟨hb, hi⟩ := hr.not_infix_of_prefix ht
  rw [← List.singleton_append, Site.inTokens_append, Site.inTokens_singleton hi, bracketDepth_cons,
    Token.weight_of_plain (Token.isPlain_of_not_builtin hb), List.nil_append]
  exact hx.sites_outer hr.toSeparate

/-- No site stands outside of brackets in a printed postfix operation. -/
theorem Prints.sites_postfixed (hr : g.operators.Unmixed) {t : Text} {x : Tree α}
    (ht : g.operators.isPostfixToken (.fixed t) = true) (hx : Prints g x ts) :
    Site.inTokens g.operators before behind index 0 (outer x ts ++ [.fixed t]) = [] := by
  rw [Site.inTokens_append, Site.inTokens_singleton (hr.not_infix_of_postfix ht).2, List.append_nil]
  exact hx.sites_outer hr.toSeparate

/-- The sites of a printed infix operation spell its operator, if those of the operands in between are nested. -/
theorem exists_spelled_outer {P : List Text → Prop} {o : Operator α} {t : Text} {x y : Tree α} {us vs : List Token}
    {mids : List (Text × Tree α × List Token)} (hr : g.operators.Separate) (ho : o ∈ g.operators.operators)
    (hf : ∃ a, o.fixity = .infixed a) (hts : o.tokens = mids.map Prod.fst ++ [t]) (hx : Prints g x us)
    (hmids : ∀ m ∈ mids, Prints g m.2.1 m.2.2 ∧ ∀ before behind index,
      Scan.Nested P (Site.inTokens g.operators before behind index 0 m.2.2)) (hy : Prints g y vs) :
    ∃ own, Scan.Spelled P o.tokens (Site.inTokens g.operators before behind index 0
        (TokenList.joined (outer x us) ((mids.map fun m => (m.1, m.2.2)) ++ [(t, outer y vs)]))) own ∧
      own.map Site.index = TokenList.joints index (outer x us)
        ((mids.map fun m => (m.1, m.2.2)) ++ [(t, outer y vs)]) := by
  have hmap : ((mids.map fun m => (m.1, m.2.2)) ++ [(t, outer y vs)]).map Prod.fst = o.tokens := by
    rw [hts]
    simp [Function.comp_def]
  have htoken (s : Text) (hs : s ∈ o.tokens) := hr.infix_token ho hf hs
  obtain ⟨_, _, _, w, own, hw, hspelled, hown⟩ := @exists_spelled_joined _ _ P before behind index (outer x us)
    ((mids.map fun m => (m.1, m.2.2)) ++ [(t, outer y vs)]) (by simp) (operand_outer hr (hx.operand hr) x)
    fun p hp => by
      refine ⟨htoken p.1 (by rw [← hmap]; exact List.mem_map_of_mem hp), ?_⟩
      rcases List.mem_append.1 hp with hp | hp
      · obtain ⟨m, hm, rfl⟩ := List.mem_map.1 hp
        exact ⟨(hmids m hm).1.operand hr, (hmids m hm).2⟩
      · rw [List.mem_singleton.1 hp]
        refine ⟨operand_outer hr (hy.operand hr) y, fun _ _ _ => ?_⟩
        rw [hy.sites_outer hr]
        exact .nil
  rw [hx.sites_outer hr, List.getLast_append_singleton, hy.sites_outer hr, List.nil_append, List.append_nil] at hw
  rw [hmap, ← hw] at hspelled
  exact ⟨own, hspelled, hown⟩

/-- The sites of printed tokens are those of whole operators. -/
theorem Prints.nested (hr : g.operators.Unmixed) (h : Prints g t ts) :
    Scan.Nested (fun p => (g.operators.infixOps.get? p).isSome = true)
      (Site.inTokens g.operators before behind index 0 ts) := by
  have hseparate := hr.toSeparate
  have hleaf {t : Tree α} {ts : List Token} (h : Prints g t ts) (houter : outer t ts = ts) {before behind : List Token}
      {index : Nat} : Scan.Nested (fun p => (g.operators.infixOps.get? p).isSome = true)
        (Site.inTokens g.operators before behind index 0 ts) := by
    have := @Prints.sites_outer _ g _ _ before behind index hseparate h
    rw [houter] at this
    rw [this]
    exact .nil
  induction h generalizing before behind index with
  | number ht => exact hleaf (.number (p := 0) ht) rfl
  | reference ht => exact hleaf (.reference (p := 0) ht) rfl
  | callEmpty ht => exact hleaf (.callEmpty (p := 0) ht) rfl
  | call ht hxs _ => exact hleaf (.call (p := 0) ht hxs) rfl
  | @prefixed p o t x ts ho hf hts hx _ =>
    rw [hx.sites_prefixed hr (hseparate.isPrefixToken_iff.2 ⟨o, ho, hf, hts⟩)]
    exact .nil
  | @postfixed p o t x ts ho hf hts hx _ =>
    rw [hx.sites_postfixed hr (hseparate.isPostfixToken_iff.2 ⟨o, ho, hf, hts⟩)]
    exact .nil
  | @infixed p o t x y us vs mids ho hf hts hx hmids hy ihx ihm ihy =>
    obtain ⟨own, hspelled, -⟩ := @exists_spelled_outer _ g before behind index _ _ _ _ _ _ _ _ hseparate ho hf hts hx
      (fun m hm => ⟨hmids m hm, fun _ _ _ => ihm m hm⟩) hy
    refine Scan.Nested.single ?_ hspelled
    obtain ⟨a, ha⟩ := hf
    rw [hseparate.get?_infix ho ha]
    rfl

end Printed

/-! ## Reading printed tokens -/

/-- A tree stands in a section that its tokens, perhaps in brackets, are the tokens of. -/
def Stands (g : Grammar α) (t : Tree α) (ts : List Token) : Prop :=
  Prints g t ts ∨ ∃ us, Prints g t us ∧ ts = .fixed Token.openText :: (us ++ [.fixed Token.closeText])

theorem Prints.stands_outer (h : Prints g t ts) : Stands g t (outer t ts) := by
  cases t with
  | number p v | reference p n | unknown p k | call p n xs => exact Or.inl h
  | operation p o xs => exact Or.inr ⟨ts, h, rfl⟩

theorem Stands.balanced (hr : g.operators.Separate) (h : Stands g t ts) : Balanced ts := by
  rcases h with h | ⟨us, h, rfl⟩
  · exact (h.operand hr).balanced
  · exact (h.operand hr).balanced.wrap

theorem Stands.size_pos (hr : g.operators.Separate) {l : TokenList} (h : Stands g t l.tokens) : 0 < l.size := by
  rw [TokenList.size_eq, List.length_pos_iff]
  rcases h with h | ⟨us, -, hl⟩
  · exact (h.operand hr).ne_nil
  · rw [hl]
    exact List.cons_ne_nil _ _

namespace Grammar

open TokenList

variable {source : Text} {l : TokenList} {gs : List (Group α)} {group : Group α} {op : Reading α} {o : Operator α}

/-- Trees stand in the sections below a root, which have fewer tokens together than the section itself, and the root is
that of a tree with these trees below it. -/
structure Opens (g : Grammar α) (l : TokenList) (t : Tree α) (reading : Reading α) : Prop where
  lt_size : ((sections reading).map size).sum < l.size
  trees : ∃ ts, List.Forall₂ (fun s t => s.Faithful ∧ Stands g t s.tokens) (sections reading) ts ∧
    ∀ ts', List.Forall₂ (fun t t' => t'.strip = t.strip) ts ts' → (nodeOf l reading ts').strip = t.strip

/-- Trees that stand in the parts of a list stand in the sections. -/
theorem Opens.of_isPart {whole : TokenList} {reading : Reading α} {kids : List (Tree α × List Token)}
    (hw : whole.Faithful) (hparts : List.Forall₂ whole.IsPart (sections reading) (kids.map Prod.snd))
    (hkids : ∀ k ∈ kids, Stands g k.1 k.2) (hlt : ((kids.map Prod.snd).map List.length).sum < l.size)
    (hnode : ∀ ts', List.Forall₂ (fun t t' => t'.strip = t.strip) (kids.map Prod.fst) ts' →
      (nodeOf l reading ts').strip = t.strip) : Opens g l t reading := by
  refine ⟨by rwa [sum_size_of_isPart hparts], kids.map Prod.fst, ?_, hnode⟩
  rw [List.forall₂_map_right_iff] at hparts ⊢
  refine List.Forall₂.flip (((List.forall₂_and_left kids _).2 ⟨hkids, hparts.flip⟩).imp fun k s hs => ?_)
  exact ⟨IsPart.faithful hs.2 hw, by rw [hs.2.1]; exact hs.1⟩

/-- Without sites, the operation is the one that some group reads at the start or at the end, if no group reads
another. -/
theorem readOperation?_of_ends (hr : g.operators.WellFormed) (hb : Balanced l.tokens)
    (hsites : Site.ofTokens g.operators l.tokens = []) (hgs : ∀ group ∈ gs, group ∈ g.operators.groups.1)
    (hall : ∀ group ∈ gs, ∀ op', (readPrefix? l group).orElse (fun _ => readPostfix? l group) = some op' → op' = op)
    (hsome : ∃ group ∈ gs, (readPrefix? l group).orElse (fun _ => readPostfix? l group) = some op) :
    g.readOperation? l (Mark.ofTokens g.operators l.tokens) gs = some op := by
  induction gs with
  | nil =>
    obtain ⟨group, hm, -⟩ := hsome
    cases hm
  | cons group gs ih =>
    have hsound := hr.sound (hgs group List.mem_cons_self)
    have hread : g.readOperation? l (Mark.ofTokens g.operators l.tokens) (group :: gs) =
        ((readPrefix? l group).orElse fun _ => readPostfix? l group).orElse fun _ =>
          g.readOperation? l (Mark.ofTokens g.operators l.tokens) gs := by
      rw [readOperation?, readRight?, scanRight_ofTokens hsound, readLeft?, scanLeft_ofTokens hsound hb, hsites,
        List.reverse_nil, sitesFound_nil, sitesFound_nil]
      cases readPrefix? l group <;> rfl
    rw [hread]
    cases hop : (readPrefix? l group).orElse fun _ => readPostfix? l group with
    | some op' => rw [hall group List.mem_cons_self op' hop]; rfl
    | none =>
      refine ih (fun group' hm => hgs group' (List.mem_cons_of_mem _ hm))
        (fun group' hm => hall group' (List.mem_cons_of_mem _ hm)) ?_
      obtain ⟨group', hm, h⟩ := hsome
      rcases List.mem_cons.1 hm with rfl | hm
      · rw [hop] at h
        cases h
      · exact ⟨group', hm, h⟩

/-- A prefix operator is read before an operand without operator tokens at its ends. -/
theorem readOperation?_prefix (hr : g.operators.Unmixed) (hb : Balanced l.tokens)
    (hsites : Site.ofTokens g.operators l.tokens = []) (ho : o ∈ g.operators.operators) (hf : o.fixity = .prefixed)
    {t : Text} {u : List Token} {x : Token} (hts : o.tokens = [t]) (hl : l.tokens = .fixed t :: (u ++ [x]))
    (hx : g.operators.isOperatorToken x = false) :
    g.readOperation? l (Mark.ofTokens g.operators l.tokens) g.operators.groups.1 =
      some (.operation l.position o [l.slice 1 l.size]) := by
  have hafter (group : Group α) (hm : group ∈ g.operators.groups.1) : readPostfix? l group = none :=
    readPostfix?_of_last hr.toSeparate hm fun y hy => by
      rw [hl, ← List.cons_append, List.getLast?_concat] at hy
      cases hy
      exact hx
  refine readOperation?_of_ends hr.toWellFormed hb hsites (fun _ hm => hm) (fun group hm op' hop' => ?_) ?_
  · rw [hafter group hm] at hop'
    have hop'' : readPrefix? l group = some op' := by
      cases h : readPrefix? l group with
      | none => rw [h] at hop'; cases hop'
      | some op'' => rw [h] at hop'; exact hop'
    obtain ⟨t', o', ts, htokens, -, ho', rfl⟩ := readPrefix?_eq_some_iff.1 hop''
    obtain ⟨hmem, hf', hts'⟩ := hr.consistent hm .prefixed [t'] o' ho'
    rw [hl] at htokens
    obtain ⟨ht, -⟩ := List.cons.inj htokens
    cases ht
    rw [hr.eq_of_tokens hmem ho (hf'.trans hf.symm) (hts'.trans hts.symm)]
  · obtain ⟨group, hm, hholds⟩ := hr.exists_holds ho
    rw [Group.Holds, hf, hts] at hholds
    refine ⟨group, hm, ?_⟩
    rw [readPrefix?_eq_some_iff.2 ⟨t, o, _, hl, by simp, hholds, rfl⟩]
    rfl

/-- A postfix operator is read behind an operand without operator tokens at its ends. -/
theorem readOperation?_postfix (hr : g.operators.Unmixed) (hb : Balanced l.tokens)
    (hsites : Site.ofTokens g.operators l.tokens = []) (ho : o ∈ g.operators.operators) (hf : o.fixity = .postfixed)
    {t : Text} {v : List Token} {x : Token} (hts : o.tokens = [t]) (hl : l.tokens = x :: v ++ [.fixed t])
    (hx : g.operators.isOperatorToken x = false) :
    g.readOperation? l (Mark.ofTokens g.operators l.tokens) g.operators.groups.1 =
      some (.operation (l.positionAt (l.size - 1)) o [l.slice 0 (l.size - 1)]) := by
  have hahead (group : Group α) (hm : group ∈ g.operators.groups.1) : readPrefix? l group = none :=
    readPrefix?_of_head hr.toSeparate hm fun y hy => by
      rw [hl] at hy
      cases hy
      exact hx
  refine readOperation?_of_ends hr.toWellFormed hb hsites (fun _ hm => hm) (fun group hm op' hop' => ?_) ?_
  · rw [hahead group hm] at hop'
    obtain ⟨t', o', ts, htokens, -, ho', rfl⟩ := readPostfix?_eq_some_iff.1 hop'
    obtain ⟨hmem, hf', hts'⟩ := hr.consistent hm .postfixed [t'] o' ho'
    rw [hl] at htokens
    obtain ⟨-, ht⟩ := List.append_inj' htokens rfl
    cases ht
    rw [hr.eq_of_tokens hmem ho (hf'.trans hf.symm) (hts'.trans hts.symm)]
  · obtain ⟨group, hm, hholds⟩ := hr.exists_holds ho
    rw [Group.Holds, hf, hts] at hholds
    refine ⟨group, hm, ?_⟩
    rw [hahead group hm, readPostfix?_eq_some_iff.2 ⟨t, o, _, hl, by simp, hholds, rfl⟩]
    rfl

/-- The sites of a printed infix operation spell its operator. -/
theorem spells_joined (hr : g.operators.Unmixed) {t : Text} {x y : Tree α} {us vs : List Token}
    {mids : List (Text × Tree α × List Token)} (ho : o ∈ g.operators.operators) (hf : ∃ a, o.fixity = .infixed a)
    (hts : o.tokens = mids.map Prod.fst ++ [t]) (hx : Prints g x us) (hmids : ∀ m ∈ mids, Prints g m.2.1 m.2.2)
    (hy : Prints g y vs)
    (hl : l.tokens = joined (outer x us) ((mids.map fun m => (m.1, m.2.2)) ++ [(t, outer y vs)])) :
    ∃ own, Spells g l o own ∧
      own.map Site.index = joints 0 (outer x us) ((mids.map fun m => (m.1, m.2.2)) ++ [(t, outer y vs)]) := by
  have hseparate := hr.toSeparate
  obtain ⟨own, hspelled, hown⟩ := @exists_spelled_outer _ g [] [] 0 _ _ _ _ _ _ _ _ hseparate ho hf hts hx
    (fun m hm => ⟨hmids m hm, fun _ _ _ => (hmids m hm).nested hr⟩) hy
  rw [← hl] at hspelled
  obtain ⟨⟨s, v, hfirst, hs⟩, -⟩ := hx.ends_outer hseparate
  obtain ⟨-, u, e, hlast, he⟩ := hy.ends_outer hseparate
  refine ⟨own, ⟨?_, ho, hf, ?_, fun z hz => ?_, fun z hz => ?_⟩, hown⟩
  · rw [hl]
    exact ((Prints.infixed (p := 0) ho hf hts hx hmids hy).operand hseparate).balanced
  · exact hspelled
  · obtain ⟨rest, hrest⟩ := exists_joined_eq_append (outer x us) ((mids.map fun m => (m.1, m.2.2)) ++ [(t, outer y vs)])
    rw [hl, hrest, hfirst] at hz
    cases hz
    exact hs
  · have hend : ∃ w, l.tokens = w ++ outer y vs := by
      rw [hl]
      generalize (mids.map fun m => (m.1, m.2.2)) = rest
      generalize outer x us = m
      induction rest generalizing m with
      | nil => exact ⟨m ++ [.fixed t], by simp [joined]⟩
      | cons p rest ih =>
        obtain ⟨w, hw⟩ := ih p.2
        exact ⟨m ++ .fixed p.1 :: w, by rw [List.cons_append, joined, hw]; simp⟩
    obtain ⟨w, hw⟩ := hend
    rw [hw, hlast, ← List.append_assoc, List.getLast?_concat] at hz
    cases hz
    exact he

/-- An operation that is read opens the tree of its operator and of the trees that stand in its parts. -/
theorem opens_of_shows (hr : g.operators.Separate) (hl : l.Faithful) {p position : Int} {operands : List TokenList}
    {kids : List (Tree α × List Token)}
    (h : Shows g.operators l (.operation position o operands) (kids.map Prod.snd))
    (hkids : ∀ k ∈ kids, Stands g k.1 k.2) :
    Opens g l (.operation p o (kids.map Prod.fst)) (.operation position o operands) := by
  have hlt := h.lt_size hr
  obtain ⟨_, _, _, heq, hparts⟩ := h.isPart
  cases heq
  refine .of_isPart hl hparts hkids hlt fun ts hts => ?_
  rw [nodeOf, Tree.strip, Tree.strip, Tree.stripAll_of_forall₂ hts]

/-- A root without parts opens the tree that it is the node of. -/
theorem opens_of_leaf {reading : Reading α} (hs : sections reading = []) (hpos : 0 < l.size)
    (hnode : (nodeOf l reading []).strip = t.strip) : Opens g l t reading := by
  refine ⟨by simpa [hs] using hpos, [], by rw [hs]; exact .nil, fun ts hts => ?_⟩
  rw [List.forall₂_nil_left_iff.1 hts]
  exact hnode

/-- An operation that shows its parts is what is read. -/
theorem read_of_shows (hr : g.operators.Separate) (hn : g.NamesApart) (hl : l.Faithful)
    (ho : g.operators.Operand l.tokens) {op : Reading α} {parts : List (List Token)}
    (hop : g.readOperation? l (Mark.ofTokens g.operators l.tokens) g.operators.groups.1 = some op)
    (hs : Shows g.operators l op parts) (hparts : ∀ m ∈ parts, Balanced m) :
    g.read source g.operators.groups.1 l = .ok op := by
  obtain ⟨u, s, v, huv, hu, hp, hs⟩ := hs.exists_operatorToken hr hparts
  exact read_of_operatorToken hn hl ho huv hu hp hs hop

/-- A printed call opens its tree, unless there are too many arguments. -/
theorem read_of_printed_call (hr : g.operators.Unmixed) (hn : g.NamesApart) (hl : l.Faithful) {p : Int} {t : Text}
    {x : Tree α × List Token} {xs : List (Tree α × List Token)} (ht : t.trim ∈ g.functions)
    (hxs : ∀ y ∈ x :: xs, Prints g y.1 y.2)
    (htokens : l.tokens = .raw t :: .fixed Token.openText ::
      (joined x.2 (xs.map fun y => (Token.separatorText, y.2)) ++ [.fixed Token.closeText])) :
    Within (g.limits.callArguments < l.size) (Opens g l (.call p t.trim ((x :: xs).map Prod.fst)))
      (g.read source g.operators.groups.1 l) := by
  have hsize := l.size_eq
  have hop (m : List Token) (hm : m ∈ x.2 :: xs.map Prod.snd) : g.operators.Operand m := by
    rcases List.mem_cons.1 hm with rfl | hm
    · exact (hxs x List.mem_cons_self).operand hr.toSeparate
    · obtain ⟨y, hy, rfl⟩ := List.mem_map.1 hm
      exact (hxs y (List.mem_cons_of_mem _ hy)).operand hr.toSeparate
  have hmap : (xs.map fun y => (Token.separatorText, y.2)) =
      (xs.map Prod.snd).map fun m => (Token.separatorText, m) := by simp [Function.comp_def]
  have hsnd : ((xs.map Prod.snd).map fun m => (Token.separatorText, m)).map Prod.snd = xs.map Prod.snd := by
    simp [Function.comp_def]
  rw [htokens, hmap] at hsize
  rw [hmap] at htokens
  have hlength := length_joined x.2 ((xs.map Prod.snd).map fun m => (Token.separatorText, m))
  have hargs := cutAt_joints (tokens_arguments htokens)
  rw [hsnd] at hlength hargs
  simp only [List.length_cons, List.length_append, hlength, List.length_map] at hsize
  rw [read_call hr.toWellFormed.sparesBrackets hn hl (balanced_arguments fun m hm => (hop m hm).balanced) htokens ht,
    readArguments_joined (tokens_arguments htokens) hop]
  refine ((Within.check fun hlt => ?_).map fun _ _ => ?_).map fun _ h => h
  · rw [Limits.bound, List.length_map] at hlt
    omega
  · refine .of_isPart (hl.slice (by omega)) hargs (fun k hk => Or.inl (hxs k hk)) ?_ fun ts hts => ?_
    · rw [List.map_cons]
      omega
    · rw [nodeOf, Tree.strip, Tree.strip, Tree.stripAll_of_forall₂ hts, List.map_cons]

/-- The root of printed tokens opens the tree, unless there are too many arguments. -/
theorem read_of_prints (hr : g.operators.Unmixed) (hn : g.NamesApart) (hl : l.Faithful) (h : Prints g t ts)
    (htokens : l.tokens = ts) :
    Within (g.limits.callArguments < l.size) (Opens g l t) (g.read source g.operators.groups.1 l) := by
  have hseparate := hr.toSeparate
  have hsize := l.size_eq
  have hoperand := h.operand hseparate
  rw [htokens] at hsize
  rw [← htokens] at hoperand
  cases h with
  | @number p t v w ht =>
    rw [read_number (fun _ hm => hr.sound hm) hn hl htokens ht]
    exact .ok (opens_of_leaf rfl (by simp [hsize]) rfl)
  | reference ht =>
    rw [read_raw hl htokens ht]
    exact .ok (opens_of_leaf rfl (by simp [hsize]) rfl)
  | callEmpty ht =>
    rw [read_call hr.toWellFormed.sparesBrackets hn hl .nil htokens ht, readArguments_nil (tokens_arguments htokens)]
    exact .ok (opens_of_leaf rfl (by simp [hsize]) rfl)
  | call ht hxs => exact read_of_printed_call hr hn hl ht hxs htokens
  | @prefixed p o t x ts ho hf hts hx =>
    obtain ⟨-, u, e, hlast, he⟩ := hx.ends_outer hseparate
    have hsites : Site.ofTokens g.operators l.tokens = [] := by
      rw [htokens]
      exact hx.sites_prefixed hr (hseparate.isPrefixToken_iff.2 ⟨o, ho, hf, hts⟩)
    have hop := readOperation?_prefix hr hoperand.balanced hsites ho hf hts (htokens.trans (by rw [hlast])) he
    have hs : Shows g.operators l (.operation l.position o [l.slice 1 l.size]) [outer x ts] :=
      .prefixed ho hf hts htokens
    rw [read_of_shows hseparate hn hl hoperand hop hs (by simpa using hx.stands_outer.balanced hseparate)]
    exact .ok (@opens_of_shows _ g l _ hseparate hl _ _ _ [(x, outer x ts)] hs (by simpa using hx.stands_outer))
  | @postfixed p o t x ts ho hf hts hx =>
    obtain ⟨⟨e, v, hfirst, he⟩, -⟩ := hx.ends_outer hseparate
    have hsites : Site.ofTokens g.operators l.tokens = [] := by
      rw [htokens]
      exact hx.sites_postfixed hr (hseparate.isPostfixToken_iff.2 ⟨o, ho, hf, hts⟩)
    have hop := readOperation?_postfix hr hoperand.balanced hsites ho hf hts (htokens.trans (by rw [hfirst])) he
    have hs : Shows g.operators l (.operation (l.positionAt (l.size - 1)) o [l.slice 0 (l.size - 1)]) [outer x ts] :=
      .postfixed ho hf hts htokens
    rw [read_of_shows hseparate hn hl hoperand hop hs (by simpa using hx.stands_outer.balanced hseparate)]
    exact .ok (@opens_of_shows _ g l _ hseparate hl _ _ _ [(x, outer x ts)] hs (by simpa using hx.stands_outer))
  | @infixed p o t x y us vs mids ho hf hts hx hmids hy =>
    obtain ⟨own, hspells, hown⟩ := spells_joined hr ho hf hts hx hmids hy htokens
    have hop := readOperation?_of_spelled hr hspells
    rw [hown] at hop
    have hs : Shows g.operators l (.operation _ o (l.cutAt _)) (outer x us :: _) :=
      .infixed ho hf (by simp [hts, Function.comp_def]) htokens
    rw [← map_snd_operandsOf] at hs
    have hkids (k : Tree α × List Token) (hk : k ∈ operandsOf x y us vs mids) : Stands g k.1 k.2 := by
      simp only [operandsOf, List.mem_cons, List.mem_append, List.not_mem_nil, or_false] at hk
      rcases hk with rfl | hk | rfl
      · exact hx.stands_outer
      · obtain ⟨m, hm, rfl⟩ := List.mem_map.1 hk
        exact Or.inl (hmids m hm)
      · exact hy.stands_outer
    rw [read_of_shows hseparate hn hl hoperand hop hs fun m hm => ?_, ← map_fst_operandsOf x y us vs mids]
    · exact .ok (opens_of_shows hseparate hl hs hkids)
    · obtain ⟨k, hk, rfl⟩ := List.mem_map.1 hm
      exact (hkids k hk).balanced hseparate

/-- The root of a section that a tree stands in opens the tree, unless there are too many arguments. -/
theorem read_of_stands (hr : g.operators.Unmixed) (hn : g.NamesApart) (hl : l.Faithful) (h : Stands g t l.tokens) :
    Within (g.limits.callArguments < l.size) (Opens g l t) (g.read source g.operators.groups.1 l) := by
  rcases h with h | ⟨us, h, htokens⟩
  · exact read_of_prints hr hn hl h rfl
  · have hsize : l.size = us.length + 2 := by
      rw [size_eq, htokens]
      simp
    rw [read_brackets hr.toWellFormed.sparesBrackets (h.operand hr.toSeparate).balanced htokens]
    refine .ok (@Opens.of_isPart _ _ _ _ _ _ [(t, us)] hl ?_ ?_ (by simp [hsize]) fun ts hts => ?_)
    · exact .cons ⟨tokens_inner htokens, 1, l.size - 1, by omega, by omega, rfl⟩ .nil
    · rw [List.forall_mem_singleton]
      exact Or.inl h
    · obtain ⟨t', ts', ht', -, rfl⟩ := List.forall₂_cons_left_iff.1 hts
      exact ht'

/-- A tree that stands in a section is built, unless the levels or the allowed arguments are fewer than the tokens. -/
theorem build_of_stands (hr : g.operators.Unmixed) (hn : g.NamesApart) {levels : Nat} (hl : l.Faithful)
    (h : Stands g t l.tokens) :
    Within (levels < l.size ∨ g.limits.callArguments < l.size) (fun t' => t'.strip = t.strip)
      (g.build source g.operators.groups.1 levels l) := by
  induction levels generalizing l t with
  | zero => exact within_build_zero (Or.inl (h.size_pos hr.toSeparate))
  | succ levels ih =>
    refine within_build_succ ((read_of_stands hr hn hl h).imp Or.inr fun reading hopens => ?_)
    obtain ⟨kids, hkids, hnode⟩ := hopens.trees
    have hsection (s : TokenList) (hs : s ∈ sections reading) : s.size < l.size :=
      Nat.lt_of_le_of_lt (List.le_sum_of_mem (List.mem_map_of_mem hs)) hopens.lt_size
    refine rests_of_forall₂ (((List.forall₂_and_left _ kids).2 ⟨hsection, hkids⟩).imp fun s k hk => ?_) hnode
    obtain ⟨hlt, hfaithful, hstands⟩ := hk
    exact ⟨isEmpty_of_size_pos (hstands.size_pos hr.toSeparate),
      (ih hfaithful hstands).imp (by omega) fun _ ht => ht⟩

/-- Printed tokens parse to the tree, positions apart, unless a limit is below the number of tokens. -/
theorem parse_printed (hr : g.operators.Own) (hn : g.NamesApart) (hl : l.Faithful) (h : Prints g t l.tokens) :
    (∃ t', g.parse source l = .ok t' ∧ t'.strip = t.strip) ∨
      ∃ e, g.parse source l = .error e ∧ e.code = .limitExceeded ∧ ∃ limit, g.limits.bound limit < l.size :=
  within_parse (build_of_stands hr.unmixed hn hl (Or.inl h)) fun t' ht' => by
    rw [Tree.nodeCount_of_strip ht', size_eq]
    exact h.nodeCount_le

/-- A grammar with a conditional that binds tightest, a binary operator, a sign and a function. -/
def printedSample : Grammar Unit where
  operators := Registry.empty.addAll
    [⟨.prefixed, [['-']], 0.0, ()⟩, ⟨.infixed .left, [['+']], 1.0, ()⟩, ⟨.infixed .right, [['?'], [':']], 2.0, ()⟩]
  vars := [['x']]
  functions := [['f']]
  limits := {}

theorem operators_printedSample : printedSample.operators.operators =
    [⟨.prefixed, [['-']], 0.0, ()⟩, ⟨.infixed .left, [['+']], 1.0, ()⟩,
     ⟨.infixed .right, [['?'], [':']], 2.0, ()⟩] := rfl

theorem own_printedSample : printedSample.operators.Own where
  reachable := Registry.Reachable.empty.addAll (by
    simp only [List.forall_mem_cons]
    exact ⟨⟨by decide, fun _ => rfl⟩, ⟨by decide, fun _ => rfl⟩, ⟨by decide, fun h => absurd rfl (h .right)⟩, by simp⟩)
  avoids := by
    rw [Registry.AvoidsBuiltins, operators_printedSample]
    decide
  nodup := by simp [operators_printedSample]
  own := by simp [operators_printedSample]

/-- The tokens of `f(1)?x+f():(-x)`. -/
def printedSampleTokens : List Token :=
  [.raw ['f'], .fixed ['('], .number ['1'] 1.0, .fixed [')'], .fixed ['?'], .raw ['x'], .fixed ['+'], .raw ['f'],
    .fixed ['('], .fixed [')'], .fixed [':'], .fixed ['('], .fixed ['-'], .raw ['x'], .fixed [')']]

theorem parse_printed_sample : ∃ l t, l.tokens = printedSampleTokens ∧ printedSample.operators.Own ∧
    printedSample.NamesApart ∧ l.Faithful ∧ Prints printedSample t l.tokens ∧
      ((∃ t', printedSample.parse [] l = .ok t' ∧ t'.strip = t.strip) ∨
        ∃ e, printedSample.parse [] l = .error e ∧ e.code = .limitExceeded ∧
          ∃ limit, printedSample.limits.bound limit < l.size) := by
  have hn : printedSample.NamesApart := ⟨by decide +kernel, by decide +kernel⟩
  obtain ⟨v, hv⟩ : ∃ v, readNumber? ['1'] = some v := Option.isSome_iff_exists.1 (by decide +kernel)
  have hx : Prints printedSample (.reference 0 ['x']) [.raw ['x']] :=
    .reference (t := ['x']) (by decide)
  have hnumber : Prints printedSample (.number 0 v) [.number ['1'] 1.0] := .number hv
  have hcall := @Prints.call _ printedSample 0 ['f'] (_, _) [] (by decide)
    (by simpa using hnumber)
  have hsum := @Prints.infixed _ printedSample 0 ⟨.infixed .left, [['+']], 1.0, ()⟩ ['+'] _ _ _ _ []
    (by simp [operators_printedSample]) ⟨_, rfl⟩ rfl hx (by simp)
    (.callEmpty (p := 0) (t := ['f']) (by decide))
  have hsign := Prints.prefixed (g := printedSample) (p := 0) (o := ⟨.prefixed, [['-']], 0.0, ()⟩) (t := ['-'])
    (by simp [operators_printedSample]) rfl rfl hx
  have h := @Prints.infixed _ printedSample 0 ⟨.infixed .right, [['?'], [':']], 2.0, ()⟩ [':'] _ _ _ _ [(['?'], _, _)]
    (by simp [operators_printedSample]) ⟨_, rfl⟩ rfl hcall
    (by simpa using hsum) hsign
  have hl := faithful_adjoining printedSampleTokens
  have htokens := tokens_adjoining printedSampleTokens
  have h' := (congrArg (Prints printedSample _) htokens).mpr h
  exact ⟨adjoining printedSampleTokens, _, htokens, own_printedSample, hn, hl, h',
    parse_printed own_printedSample hn hl h'⟩

/-- A grammar with a variable that begins with white space. -/
def blankVariable : Grammar Unit where
  operators := Registry.empty
  vars := [['\t', 'x']]
  functions := []
  limits := {}

/-- A grammar with a sign that begins with white space, and with this sign without it in a name. -/
def blankSign : Grammar Unit where
  operators := Registry.empty.addAll [⟨.prefixed, [['\t', '-']], 0.0, ()⟩]
  vars := [['a'], ['-', 'a']]
  functions := []
  limits := {}

/-- The one token of a text at the start. -/
def rawList (t : Text) : TokenList := { items := [⟨0, .raw t⟩], trailing := 0, text := t, offset := 0 }

/-- A sign before a text. -/
def signedList (s t : Text) : TokenList :=
  { items := [⟨0, .fixed s⟩, ⟨0, .raw t⟩], trailing := 0, text := s ++ t, offset := 0 }

theorem own_blankVariable : blankVariable.operators.Own := by
  have hempty : blankVariable.operators.operators = [] := rfl
  exact ⟨.empty, by simp [Registry.AvoidsBuiltins, hempty], by simp [hempty], by simp [hempty]⟩

theorem operators_blankSign : blankSign.operators.operators = [⟨.prefixed, [['\t', '-']], 0.0, ()⟩] := rfl

theorem own_blankSign : blankSign.operators.Own := by
  refine ⟨Registry.Reachable.empty.addAll ?_, ?_, by simp [operators_blankSign], by simp [operators_blankSign]⟩
  · rw [List.forall_mem_singleton]
    exact ⟨by decide, fun _ => rfl⟩
  · rw [Registry.AvoidsBuiltins, operators_blankSign]
    decide

theorem parse_blankVariable : (match blankVariable.parse [] (rawList ['\t', 'x']) with
    | .error e => e.code == .unparsableExpression
    | .ok _ => false) = true := by
  rw [parse, own_blankVariable.reachable.wellFormed.groups_eq_foldl (by decide +kernel)]
  decide +kernel

theorem parse_blankSign : (match blankSign.parse [] (signedList ['\t', '-'] ['a']) with
    | .ok (.reference _ name) => name == ['-', 'a']
    | _ => false) = true := by
  rw [parse, own_blankSign.reachable.wellFormed.groups_eq_foldl (by decide +kernel)]
  decide +kernel

/-- The test of names must leave out the white space around tokens, and names must have none at their ends: a variable
that begins with white space is not found, and an operand with its sign is found as another variable. -/
theorem parse_blank_names :
    (blankVariable.operators.Own ∧ (∀ name ∈ blankVariable.vars, name ≠ [] ∧ (readNumber? name).isNone = true ∧
        ∀ t ∈ blankVariable.operators.tokens, ¬ t <:+: name) ∧ ['\t', 'x'] ∈ blankVariable.vars ∧
      (rawList ['\t', 'x']).Faithful ∧
      ∃ e, blankVariable.parse [] (rawList ['\t', 'x']) = .error e ∧ e.code = .unparsableExpression) ∧
    (blankSign.operators.Own ∧ (∀ name ∈ blankSign.vars, name ≠ [] ∧ (readNumber? name).isNone = true ∧
        ∀ t ∈ blankSign.operators.tokens, ¬ t <:+: name) ∧ (signedList ['\t', '-'] ['a']).Faithful ∧
      (∃ t, Prints blankSign t (signedList ['\t', '-'] ['a']).tokens ∧ ∃ o, t = .operation 0 o [.reference 2 ['a']]) ∧
      ∃ p, blankSign.parse [] (signedList ['\t', '-'] ['a']) = .ok (.reference p ['-', 'a'])) := by
  have hprints : Prints blankSign (.operation 0 ⟨.prefixed, [['\t', '-']], 0.0, ()⟩ [.reference 2 ['a']])
      (signedList ['\t', '-'] ['a']).tokens :=
    .prefixed (x := .reference 2 ['a']) (by simp [operators_blankSign]) rfl rfl (.reference (t := ['a']) (by decide))
  refine ⟨⟨own_blankVariable, by decide +kernel, by decide, rfl, ?_⟩, own_blankSign, by decide +kernel, rfl,
    ⟨_, hprints, _, rfl⟩, ?_⟩
  · have herror := parse_blankVariable
    split at herror
    · next e he => exact ⟨e, he, beq_iff_eq.1 herror⟩
    · cases herror
  · have hread := parse_blankSign
    split at hread
    · next p name ht => exact ⟨p, by rw [ht, beq_iff_eq.1 hread]⟩
    · cases hread

end Grammar

end Mixfix
