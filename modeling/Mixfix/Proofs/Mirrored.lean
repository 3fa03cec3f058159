import Mixfix.Proofs.Registry
import Mixfix.Proofs.Scans
import Mixfix.Proofs.Sites

/-!
# Sections read backwards

A section is mirrored by reversing its tokens and exchanging the brackets (`Token.mirror`), and a registry by exchanging
its prefix and postfix operators (`Registry.mirrored`); the mirrored registry is reached by registering the mirrored
operators in the same order (`Registry.Reachable.mirrored`). A token may be part of an infix operator if and only if it
may be after mirroring, so the marks of the mirrored tokens are those of the tokens read backwards
(`Mark.ofTokens_mirror`). As the scans read nothing but marks, a backward scan is the mirror image of a forward scan
(`Scan.backward_eq_forward_mirror`).
-/

namespace Mixfix

/-! ## Mirrored registries -/

/-- The place on the other side of the operand. -/
def Fixity.mirrored : Fixity → Fixity
  | prefixed => postfixed
  | postfixed => prefixed
  | f => f

/-- The operator with its tokens on the other side of the operand. -/
def Operator.mirrored {α : Type} (o : Operator α) : Operator α := { o with fixity := o.fixity.mirrored }

/-- The mirrored operator is refused for the same reason, if any. -/
theorem Operator.refusal?_mirrored {α : Type} (o : Operator α) : o.mirrored.refusal? = o.refusal? := by
  obtain ⟨fixity, tokens, priority, action⟩ := o
  match fixity, tokens with
  | .prefixed, [] | .prefixed, _ :: _ | .postfixed, [] | .postfixed, _ :: _ | .infixed _, _ | .unplaced, _ => rfl

/-- The table with its operators mirrored. -/
def Table.mirrored {κ α : Type} (t : Table κ (Operator α)) : Table κ (Operator α) :=
  ⟨t.entries.map fun e => (e.1, e.2.mirrored)⟩

namespace Table

variable {κ α : Type} [BEq κ]

theorem mirrored_insert (t : Table κ (Operator α)) (k : κ) (o : Operator α) :
    (t.insert k o).mirrored = t.mirrored.insert k o.mirrored := by
  have hentries (es : List (κ × Operator α)) : (insertEntry k o es).map (fun e => (e.1, e.2.mirrored)) =
      insertEntry k o.mirrored (es.map fun e => (e.1, e.2.mirrored)) := by
    induction es with
    | nil => rfl
    | cons e es ih =>
      rw [insertEntry, List.map_cons, insertEntry]
      split
      · rfl
      · rw [List.map_cons, ih]
  exact congrArg Table.mk (hentries t.entries)

theorem contains_mirrored (t : Table κ (Operator α)) (k : κ) : t.mirrored.contains k = t.contains k := by
  have hlookup (es : List (κ × Operator α)) :
      (es.map fun e => (e.1, e.2.mirrored)).lookup k = (es.lookup k).map Operator.mirrored := by
    induction es with
    | nil => rfl
    | cons e es ih =>
      obtain ⟨k', o⟩ := e
      simp only [List.map_cons, List.lookup_cons]
      cases k == k' <;> simp [ih]
  rw [contains, contains, get?, mirrored, hlookup, Option.isSome_map]
  rfl

end Table

namespace Registry

variable {α : Type} {r : Registry α}

/-- The registry with its prefix and postfix operators exchanged. -/
def mirrored (r : Registry α) : Registry α where
  operatorTokens := r.operatorTokens
  prefixOps := r.postfixOps.mirrored
  postfixOps := r.prefixOps.mirrored
  infixOps := r.infixOps

theorem mirrored_addToken (r : Registry α) (t : Text) : (r.addToken t).mirrored = r.mirrored.addToken t := by
  rw [addToken, addToken]
  have htokens : r.mirrored.tokens = r.tokens := rfl
  rw [htokens]
  split <;> rfl

theorem mirrored_addTokens (r : Registry α) (ts : List Text) :
    (ts.foldl addToken r).mirrored = ts.foldl addToken r.mirrored := by
  induction ts generalizing r with
  | nil => rfl
  | cons t ts ih => rw [List.foldl_cons, List.foldl_cons, ih, mirrored_addToken]

theorem mirrored_put (r : Registry α) (o : Operator α) : (r.put o).mirrored = r.mirrored.put o.mirrored := by
  cases hf : o.fixity with
  | prefixed =>
    have hf' : o.mirrored.fixity = .postfixed := congrArg Fixity.mirrored hf
    simp only [put, hf, hf']
    exact congrArg (fun t => { r.mirrored with postfixOps := t }) (Table.mirrored_insert r.prefixOps o.token o)
  | postfixed =>
    have hf' : o.mirrored.fixity = .prefixed := congrArg Fixity.mirrored hf
    simp only [put, hf, hf']
    exact congrArg (fun t => { r.mirrored with prefixOps := t }) (Table.mirrored_insert r.postfixOps o.token o)
  | infixed a =>
    have ho : o.mirrored = o := by
      cases o
      cases hf
      rfl
    rw [ho]
    simp only [put, hf]
    rfl
  | unplaced =>
    have hf' : o.mirrored.fixity = .unplaced := congrArg Fixity.mirrored hf
    simp only [put, hf, hf']

/-- Registering the mirrored operator makes the mirrored registry. -/
theorem mirrored_add (r : Registry α) (o : Operator α) : (r.add o).2.mirrored = (r.mirrored.add o.mirrored).2 := by
  cases hrefusal : o.refusal? with
  | some e =>
    rw [add_of_refusal? hrefusal, add_of_refusal? (o.refusal?_mirrored.trans hrefusal)]
    rfl
  | none =>
    rw [add_of_not_refused hrefusal, add_of_not_refused (o.refusal?_mirrored.trans hrefusal), mirrored_addTokens,
      mirrored_put]
    rfl

/-- The mirrored registry is one that registrations make. -/
theorem Reachable.mirrored (h : r.Reachable) : r.mirrored.Reachable := by
  induction h with
  | empty => exact .empty
  | @addToken r t _ ih => rw [mirrored_addToken]; exact ih.addToken t
  | @add r o ho _ ih =>
    rw [mirrored_add]
    refine .add ⟨ho.tokens_ne, fun hf => ho.single fun a ha => ?_⟩ ih
    exact hf a (congrArg Fixity.mirrored ha)
  | @groups r _ ih =>
    have hgroups : r.groups.2.mirrored = r.mirrored := by
      rw [Registry.groups]
      split <;> rfl
    rw [hgroups]
    exact ih

end Registry

/-! ## Mirrored tokens -/

namespace Token

/-- The token with the bracket turned around, if it is one. -/
def mirrored : Token → Token
  | fixed t => if t == openText then fixed closeText else if t == closeText then fixed openText else fixed t
  | t => t

/-- Tokens in reverse, with the brackets turned around. -/
def mirror (ts : List Token) : List Token := (ts.map mirrored).reverse

theorem length_mirror (ts : List Token) : (mirror ts).length = ts.length := by simp [mirror]

theorem mirror_cons (t : Token) (ts : List Token) : mirror (t :: ts) = mirror ts ++ [t.mirrored] := by simp [mirror]

theorem mirror_append_cons (u v : List Token) (t : Token) :
    mirror (u ++ t :: v) = mirror v ++ t.mirrored :: mirror u := by
  simp [mirror]

/-- Tokens at an index, and at its mirror image. -/
theorem exists_split {ts : List Token} {i j : Nat} (h : j + (i + 1) = ts.length) :
    ∃ u t v, ts = u ++ t :: v ∧ u.length = i ∧ v.length = j := by
  refine ⟨ts.take i, ts[i], ts.drop (i + 1), ?_, by simp; omega, by simp; omega⟩
  rw [← List.drop_eq_getElem_cons, List.take_append_drop]

/-- Only brackets are changed by mirroring. -/
theorem mirrored_cases (t : Token) :
    t = .fixed openText ∨ t = .fixed closeText ∨ t.isOpen = false ∧ t.isClose = false ∧ t.mirrored = t := by
  cases t with
  | fixed t =>
    by_cases ho : t = openText
    · exact .inl (congrArg fixed ho)
    · by_cases hc : t = closeText
      · exact .inr (.inl (congrArg fixed hc))
      · simp [mirrored, isOpen, isClose, isFixed, ho, hc]
  | raw t | number t x => exact .inr (.inr ⟨rfl, rfl, rfl⟩)

theorem isOpen_mirrored (t : Token) : t.mirrored.isOpen = t.isClose := by
  obtain rfl | rfl | ⟨ho, hc, ht⟩ := t.mirrored_cases
  · rfl
  · rfl
  · rw [ht, ho, hc]

theorem isClose_mirrored (t : Token) : t.mirrored.isClose = t.isOpen := by
  obtain rfl | rfl | ⟨ho, hc, ht⟩ := t.mirrored_cases
  · rfl
  · rfl
  · rw [ht, ho, hc]

theorem isClose_of_isOpen {t : Token} (h : t.isOpen = true) : t.isClose = false := by
  obtain rfl | rfl | ⟨-, hc, -⟩ := t.mirrored_cases
  · rfl
  · cases h
  · exact hc

theorem mirrored_of_plain {t : Token} (ho : t.isOpen = false) (hc : t.isClose = false) : t.mirrored = t := by
  obtain rfl | rfl | ⟨-, -, ht⟩ := t.mirrored_cases
  · cases ho
  · cases hc
  · exact ht

end Token

namespace Registry

variable {α : Type} {r : Registry α}

/-- Operator tokens are no brackets. -/
theorem mirrored_of_isOperatorToken (h : r.WellFormed) {t : Token} (ht : r.isOperatorToken t = true) :
    t.mirrored = t := by
  obtain rfl | rfl | ⟨-, -, hplain⟩ := t.mirrored_cases
  · rw [h.isOperatorToken_builtin (by decide)] at ht
    cases ht
  · rw [h.isOperatorToken_builtin (by decide)] at ht
    cases ht
  · exact hplain

theorem isOperatorToken_mirrored (h : r.WellFormed) (t : Token) :
    r.mirrored.isOperatorToken t.mirrored = r.isOperatorToken t := by
  have hopen := h.isOperatorToken_builtin (t := Token.openText) (by decide)
  have hclose := h.isOperatorToken_builtin (t := Token.closeText) (by decide)
  obtain rfl | rfl | ⟨-, -, ht⟩ := t.mirrored_cases
  · exact hclose.trans hopen.symm
  · exact hopen.trans hclose.symm
  · rw [ht]
    rfl

theorem meetsOperand_mirrored (h : r.WellFormed) {p p' : Token → Bool}
    (hp : ∀ t, r.isOperatorToken t = true → p' t = p t) (ts : List Token) :
    r.mirrored.MeetsOperand p' (ts.map Token.mirrored) ↔ r.MeetsOperand p ts := by
  induction ts with
  | nil => rfl
  | cons t ts ih =>
    rw [List.map_cons, MeetsOperand, MeetsOperand, isOperatorToken_mirrored h]
    split
    · next ht => rw [mirrored_of_isOperatorToken h ht, hp t ht, ih]
    · rfl

theorem canBeInfix_mirrored (h : r.WellFormed) (before behind : List Token) :
    r.mirrored.canBeInfix (behind.map Token.mirrored) (before.map Token.mirrored) = r.canBeInfix before behind := by
  have hpostfix (t : Token) (_ : r.isOperatorToken t = true) : r.mirrored.isPostfixToken t = r.isPrefixToken t := by
    cases t with
    | fixed t => exact Table.contains_mirrored r.prefixOps t
    | raw t | number t x => rfl
  have hprefix (t : Token) (_ : r.isOperatorToken t = true) : r.mirrored.isPrefixToken t = r.isPostfixToken t := by
    cases t with
    | fixed t => exact Table.contains_mirrored r.postfixOps t
    | raw t | number t x => rfl
  rw [Bool.eq_iff_iff, canBeInfix_iff, canBeInfix_iff, meetsOperand_mirrored h hpostfix,
    meetsOperand_mirrored h hprefix, and_comm]

end Registry

/-! ## Mirrored marks -/

namespace Mark

variable {α : Type} {r : Registry α}

theorem ofToken_mirrored (h : r.WellFormed) (before behind : List Token) (t : Token) :
    ofToken r.mirrored (behind.map Token.mirrored) t.mirrored (before.map Token.mirrored) =
      (ofToken r before t behind).reversed := by
  have hinfix (t : Token) : r.mirrored.isInfixToken t = r.isInfixToken t := rfl
  rw [ofToken, ofToken, Token.isOpen_mirrored, Token.isClose_mirrored, Registry.canBeInfix_mirrored h, hinfix]
  cases ho : t.isOpen with
  | true =>
    have hc : t.isClose = false := Token.isClose_of_isOpen ho
    rw [hc]
    rfl
  | false =>
    cases hc : t.isClose with
    | true => rfl
    | false =>
      rw [Token.mirrored_of_plain ho hc]
      simp only [Bool.false_eq_true, if_false]
      split <;> rfl

theorem getElem?_ofTokens (u v : List Token) (t : Token) :
    (ofTokens r (u ++ t :: v))[u.length]? = some (ofToken r u.reverse t v) := by
  have hfrom (before : List Token) :
      (ofTokensFrom r before (u ++ t :: v))[u.length]? = some (ofToken r (u.reverse ++ before) t v) := by
    induction u generalizing before with
    | nil => rfl
    | cons t' u ih => simpa [ofTokensFrom] using ih (t' :: before)
  have := hfrom []
  rwa [List.append_nil] at this

/-- The marks of the mirrored tokens are those of the tokens read backwards. -/
theorem ofTokens_mirror (h : r.WellFormed) (ts : List Token) :
    ofTokens r.mirrored (Token.mirror ts) = mirror (ofTokens r ts) := by
  have hlength := length_ofTokens r ts
  have hlength' := length_ofTokens r.mirrored (Token.mirror ts)
  refine List.ext_getElem? fun i => ?_
  by_cases hi : i < ts.length
  · obtain ⟨u, t, v, rfl, -, hv⟩ := @Token.exists_split ts (ts.length - 1 - i) i (by omega)
    have hi : (Token.mirror v).length = i := by rw [Token.length_mirror, hv]
    have hmark := @getElem?_mirror (ofTokens r (u ++ t :: v)) u.length i (by rw [hlength]; simp; omega)
    rw [List.getElem?_toArray, List.getElem?_toArray, getElem?_ofTokens] at hmark
    rw [hmark, Token.mirror_append_cons, ← hi, getElem?_ofTokens, Option.map_some, ← ofToken_mirrored h]
    simp [Token.mirror]
  · have hmarks : (mirror (ofTokens r ts)).length = ts.length := by simp [mirror, hlength]
    have hmarks' : (ofTokens r.mirrored (Token.mirror ts)).length = ts.length := by rw [hlength', Token.length_mirror]
    rw [List.getElem?_eq_none (by omega), List.getElem?_eq_none (by omega)]

end Mark

namespace Scan

/-- A backward scan is the mirror image of a forward scan: on the mirrored tokens, under the mirrored registry, and with
the indices counted from the other end. -/
theorem backward_eq_forward_mirror {α β : Type} {r : Registry α} (hr : r.Reachable) (ts : List Token) (t : Trie Text β)
    {s : Nat} (hs : s < ts.length) (a b : Nat) :
    backward t (Mark.ofTokens r ts) s (Site.inPart a b) =
      (forward t (Mark.ofTokens r.mirrored (Token.mirror ts)) (ts.length - 1 - s)
        (Site.inPart (ts.length - b) (ts.length - a))).map (mirror ts.length) := by
  have hlength := Mark.length_ofTokens r ts
  have hskip (i j : Nat) (hj : j + (i + 1) = (Mark.ofTokens r ts).length) :
      Site.inPart (ts.length - b) (ts.length - a) j = Site.inPart a b i := by
    simp only [Site.inPart, Bool.and_eq_decide, decide_eq_true_eq, decide_eq_decide]
    omega
  rw [Mark.ofTokens_mirror hr.wellFormed, backward_eq_mirror (by rwa [hlength]) t hskip, hlength]

/-- A registry with a prefix operator and an infix operator of two tokens. -/
def signedSample : Registry Unit :=
  Registry.empty.addAll [⟨.prefixed, [['-']], 2.0, ()⟩, ⟨.infixed .left, [['a'], ['b']], 1.0, ()⟩]

/-- The tokens of `1 a (2) b -3`. -/
def signedTokens : List Token :=
  [.number ['1'] 1.0, .fixed ['a'], .fixed ['('], .number ['2'] 2.0, .fixed [')'], .fixed ['b'], .fixed ['-'],
    .number ['3'] 3.0]

/-- Both scans find the operator around the brackets, which they ignore. -/
theorem backward_eq_forward_mirror_sample : signedSample.Reachable ∧ 7 < signedTokens.length ∧
    backward (Trie.empty.insert [['b'], ['a']] ()) (Mark.ofTokens signedSample signedTokens) 7 (Site.inPart 2 5) =
      (forward (Trie.empty.insert [['b'], ['a']] ())
        (Mark.ofTokens signedSample.mirrored (Token.mirror signedTokens)) 0 (Site.inPart 3 6)).map (mirror 8) ∧
    backward (Trie.empty.insert [['b'], ['a']] ()) (Mark.ofTokens signedSample signedTokens) 7 (Site.inPart 2 5) =
      some [1, 5] := by
  have hr : signedSample.Reachable := .addAll .empty fun o ho => by
    rcases List.mem_pair.1 ho with rfl | rfl
    · exact ⟨List.cons_ne_nil _ _, fun _ => rfl⟩
    · exact ⟨List.cons_ne_nil _ _, fun h => absurd rfl (h .left)⟩
  exact ⟨hr, by decide, backward_eq_forward_mirror hr signedTokens _ (by decide) 2 5, by decide +kernel⟩

end Scan

end Mixfix
