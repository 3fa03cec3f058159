import Mixfix.Proofs.Operations

/-!
# Every tree that is parsed is derived from its tokens

A section yields a tree (`Grammar.Yields`) if it is in brackets around a section that yields the tree, if it is the text
of a variable or a number literal, if it is the name of a function before brackets around sections that yield the
arguments, or if the tokens of a registered operator stand in it, outside of brackets, with sections around them that
yield the operands. Tokens may be shared between operators, and operators may have any number of tokens. What the parser
gives is always such a tree (`Grammar.yields_of_parse`): each root that is read has its parts where the rules want them
(`Grammar.Shows`), and the sections below it are built in turn.
-/

namespace Mixfix

namespace TokenList

variable {l : TokenList}

/-- The token stands at the index, outside of brackets. -/
def StandsAt (l : TokenList) (t : Token) (i : Nat) : Prop := l.tokens[i]? = some t ∧ bracketDepth (l.tokens.take i) = 0

theorem standsAt_iff {t : Token} {i : Nat} :
    l.StandsAt t i ↔ ∃ u v, l.tokens = u ++ t :: v ∧ i = u.length ∧ bracketDepth u = 0 := by
  constructor
  · rintro ⟨ht, hdepth⟩
    obtain ⟨hlt, heq⟩ := List.getElem?_eq_some_iff.1 ht
    refine ⟨l.tokens.take i, l.tokens.drop (i + 1), ?_, (List.length_take_of_le hlt.le).symm, hdepth⟩
    rw [← heq, ← List.drop_eq_getElem_cons hlt, List.take_append_drop]
  · rintro ⟨u, v, h, rfl, hdepth⟩
    refine ⟨by rw [h]; simp, ?_⟩
    rwa [h, List.take_left]

/-- The tokens between parts stand at the joints. -/
theorem standsAt_joints {pre m : List Token} {rest : List (Text × List Token)} (h : l.tokens = pre ++ joined m rest)
    (hpre : bracketDepth pre = 0) (hm : ∀ m' ∈ m :: rest.map Prod.snd, bracketDepth m' = 0)
    (hplain : ∀ t ∈ rest.map Prod.fst, (Token.fixed t).weight = 0) :
    List.Forall₂ (fun i t => l.StandsAt (.fixed t) i) (joints pre.length m rest) (rest.map Prod.fst) := by
  induction rest generalizing pre m with
  | nil => exact .nil
  | cons p rest ih =>
    obtain ⟨t, m'⟩ := p
    rw [List.map_cons] at hm hplain
    obtain ⟨hdepth, hm⟩ := List.forall_mem_cons.1 hm
    obtain ⟨ht, hplain⟩ := List.forall_mem_cons.1 hplain
    have hsplit : l.tokens = pre ++ m ++ .fixed t :: joined m' rest := by rw [h, joined, List.append_assoc]
    have hlength : (pre ++ m ++ [Token.fixed t]).length = pre.length + m.length + 1 := by simp; omega
    have hrest := @ih (pre ++ m ++ [.fixed t]) m' (by rw [hsplit]; simp) (by simp [hpre, hdepth, ht]) hm hplain
    rw [hlength] at hrest
    exact .cons (standsAt_iff.2 ⟨pre ++ m, _, hsplit, (List.length_append ..).symm, by simp [hpre, hdepth]⟩) hrest

theorem lt_of_mem_joints {m : List Token} {rest : List (Text × List Token)} {start i : Nat}
    (h : i ∈ joints start m rest) : start ≤ i := by
  induction rest generalizing start m with
  | nil => cases h
  | cons p rest ih =>
    rcases List.mem_cons.1 h with rfl | h
    · exact Nat.le_add_right _ _
    · have := ih h
      omega

theorem pairwise_joints (m : List Token) (rest : List (Text × List Token)) (start : Nat) :
    (joints start m rest).Pairwise (· < ·) := by
  induction rest generalizing start m with
  | nil => exact .nil
  | cons p rest ih => exact .cons (fun i hi => lt_of_mem_joints hi) (ih _ _)

/-- The slots of a list without tokens are none, and those of another list are the sections between the separators that
stand outside of brackets. -/
inductive Slots (l : TokenList) : List TokenList → Prop
  | none : l.tokens = [] → Slots l []
  | some {points : List Nat} : l.tokens ≠ [] → points.Pairwise (· < ·) →
      (∀ i, i ∈ points ↔ l.StandsAt (.fixed Token.separatorText) i) → Slots l (l.cutAt points)

end TokenList

namespace Grammar

variable {α : Type} {g : Grammar α} {source : Text} {l : TokenList} {t : Tree α}

/-! ## Derivations -/

/-- The section yields the tree. -/
inductive Yields (g : Grammar α) : TokenList → Tree α → Prop
  | brackets {l : TokenList} {m : List Token} {t : Tree α} :
      l.tokens = .fixed Token.openText :: (m ++ [.fixed Token.closeText]) → Balanced m →
      Yields g (l.slice 1 (l.size - 1)) t → Yields g l t
  | reference {l : TokenList} : l.trimmedText ∈ g.vars → Yields g l (.reference l.position l.trimmedText)
  | number {l : TokenList} {v : Float} : readNumber? l.text = some v → Yields g l (.number l.position v)
  /-- The brackets of the arguments begin with the first open bracket that is not the first token. -/
  | call {l : TokenList} {pre m : List Token} {args : List TokenList} {ts : List (Tree α)} :
      l.tokens = pre ++ .fixed Token.openText :: (m ++ [.fixed Token.closeText]) → pre ≠ [] →
      (∀ s ∈ pre.tail, s.isOpen = false) → Balanced m → (l.slice 0 pre.length).trimmedText ∈ g.functions →
      (l.slice (pre.length + 1) (l.size - 1)).Slots args → List.Forall₂ (Yields g) args ts →
      Yields g l (.call l.position (l.slice 0 pre.length).trimmedText ts)
  | prefixed {l : TokenList} {s : Text} {rest : List Token} {o : Operator α} {t : Tree α} :
      l.tokens = .fixed s :: rest → g.operators.prefixOps.get? s = some o → Yields g (l.slice 1 l.size) t →
      Yields g l (.operation l.position o [t])
  | postfixed {l : TokenList} {s : Text} {rest : List Token} {o : Operator α} {t : Tree α} :
      l.tokens = rest ++ [.fixed s] → g.operators.postfixOps.get? s = some o → Yields g (l.slice 0 (l.size - 1)) t →
      Yields g l (.operation (l.positionAt (l.size - 1)) o [t])
  | infixed {l : TokenList} {points : List Nat} {o : Operator α} {ts : List (Tree α)} :
      g.operators.infixOps.get? o.tokens = some o → points.Pairwise (· < ·) →
      List.Forall₂ (fun i s => l.StandsAt (.fixed s) i) points o.tokens → List.Forall₂ (Yields g) (l.cutAt points) ts →
      Yields g l (.operation (l.positionAt (points.headD 0)) o ts)

/-! ## Built trees -/

/-- The arguments that are read are in the slots. -/
theorem slots_of_readArguments {args : TokenList} {name : Text} {parts : List TokenList}
    (h : g.readArguments source l name args = .ok parts) : args.Slots parts := by
  rcases readArguments_cases h with ⟨hnil, rfl⟩ | ⟨hne, rfl⟩
  · exact .none hnil
  · refine .some hne (TokenList.pairwise_splitPoints args.tokens) fun i => ?_
    rw [TokenList.mem_splitPoints, TokenList.standsAt_iff]
    constructor
    · rintro ⟨u, s, v, htokens, rfl, hdepth, -, hs⟩
      exact ⟨u, v, by rw [htokens, Token.isSeparator_iff.1 hs], Nat.zero_add _, by simpa using hdepth⟩
    · rintro ⟨u, v, htokens, rfl, hdepth⟩
      exact ⟨u, _, v, htokens, (Nat.zero_add _).symm, by simpa using hdepth, rfl, rfl⟩

/-- An operation that is read yields the tree of its operator and of the trees that its sections yield. -/
theorem Shows.yields (hr : g.operators.WellFormed) (havoids : g.operators.AvoidsBuiltins) {position : Int}
    {o : Operator α} {operands : List TokenList} {parts : List (List Token)} {ts : List (Tree α)}
    (h : Shows g.operators l (.operation position o operands) parts) (hb : ∀ m ∈ parts, Balanced m)
    (hts : List.Forall₂ (Yields g) operands ts) : g.Yields l (.operation position o ts) := by
  cases h with
  | @infixed _ m rest hmem hf htokens hl =>
    obtain ⟨a, hf⟩ := hf
    refine .infixed (hr.get?_infix hmem hf) (TokenList.pairwise_joints m rest 0) ?_ hts
    rw [htokens]
    refine @TokenList.standsAt_joints _ [] m rest hl rfl (fun m' hm => (hb m' hm).depth_eq) fun s hs => ?_
    exact havoids.weight_eq hmem (by rw [htokens]; exact hs)
  | @prefixed _ s rest hmem hf htokens hl =>
    obtain ⟨t, ts', ht, htail, rfl⟩ := List.forall₂_cons_left_iff.1 hts
    rw [List.forall₂_nil_left_iff] at htail
    subst htail
    have ho := hr.get?_prefix hmem hf
    rw [Operator.token, htokens] at ho
    exact .prefixed hl ho ht
  | @postfixed _ s rest hmem hf htokens hl =>
    obtain ⟨t, ts', ht, htail, rfl⟩ := List.forall₂_cons_left_iff.1 hts
    rw [List.forall₂_nil_left_iff] at htail
    subst htail
    have ho := hr.get?_postfix hmem hf
    rw [Operator.token, htokens] at ho
    exact .postfixed hl ho ht

theorem yields_of_build (hr : g.operators.WellFormed) (havoids : g.operators.AvoidsBuiltins) {levels : Nat}
    (hb : Balanced l.tokens) (h : g.build source g.operators.groups.1 levels l = .ok t) : g.Yields l t := by
  induction levels generalizing l t with
  | zero => cases h
  | succ levels ih =>
    obtain ⟨reading, hread, h⟩ := build_succ_eq_ok_iff.1 h
    -- the sections below a root are balanced, and are built with one level less
    have hbalanced := balanced_of_read hr havoids hb hread
    have hbelow {ts : List (Tree α)}
        (hts : List.Forall₂ (fun s t => g.build source g.operators.groups.1 levels s = .ok t) (sections reading) ts) :
        List.Forall₂ (Yields g) (sections reading) ts :=
      ((List.forall₂_and_left _ ts).2 ⟨hbalanced, hts⟩).imp fun _ _ h => ih h.1 h.2
    rcases (read_cases hread).2 with ⟨hin, rfl⟩ | ⟨-, ⟨hvar, rfl⟩ | ⟨-, hcall | ⟨-, hop | ⟨-, v, hv, rfl⟩⟩⟩⟩
    · obtain ⟨m, hl, hm, hinner⟩ := exists_of_isInBrackets hb hin
      rw [treeOf, hinner] at h
      exact .brackets hl hm (ih (by rw [tokens_inner hl]; exact hm) h)
    · cases h
      exact .reference hvar
    · obtain ⟨pre, m, args, hpre, hopen, -, hm, hl, hname, hargs, rfl⟩ := exists_of_readCall? hb hcall
      obtain ⟨ts, hts, rfl⟩ := treeOf_call_eq_ok_iff.1 h
      exact .call hl hpre hopen hm hname (slots_of_readArguments hargs) (hbelow (hts.imp fun _ _ h => h.2))
    · obtain ⟨parts, hshows, hparts⟩ := exists_of_readOperation? hr havoids hb (fun _ hm => hm) hop
      obtain ⟨position, o, operands, rfl, -⟩ := hshows.isPart
      obtain ⟨ts, hts, rfl⟩ := treeOf_operation_eq_ok_iff.1 h
      exact hshows.yields hr havoids hparts (hbelow hts)
    · cases h
      exact .number hv

/-- What is parsed is yielded by the whole list. -/
theorem yields_of_parse (hr : g.operators.Reachable) (havoids : g.operators.AvoidsBuiltins) (hb : Balanced l.tokens)
    (h : g.parse source l = .ok t) : g.Yields l t :=
  yields_of_build hr.wellFormed havoids hb (build_of_parse h)

/-- A grammar with a token that is the first of two infix operators, and prefix. -/
def sharedSample : Grammar Unit where
  operators := Registry.empty.addAll
    [⟨.prefixed, [['a']], 0.0, ()⟩, ⟨.infixed .right, [['a'], ['b']], 1.0, ()⟩, ⟨.infixed .left, [['a']], 2.0, ()⟩]
  vars := [['x']]
  functions := [['f']]
  limits := {}

theorem operators_sharedSample : sharedSample.operators.operators =
    [⟨.prefixed, [['a']], 0.0, ()⟩, ⟨.infixed .right, [['a'], ['b']], 1.0, ()⟩,
     ⟨.infixed .left, [['a']], 2.0, ()⟩] := rfl

theorem reachable_sharedSample : sharedSample.operators.Reachable := Registry.Reachable.empty.addAll (by
  simp only [List.forall_mem_cons]
  exact ⟨⟨by decide, fun _ => rfl⟩, ⟨by decide, fun h => absurd rfl (h .right)⟩, ⟨by decide, fun _ => rfl⟩, by simp⟩)

/-- The tokens of `f(x,1)ax ba x`. -/
def sharedSampleTokens : List Token :=
  [.raw ['f'], .fixed ['('], .raw ['x'], .fixed [','], .number ['1'] 1.0, .fixed [')'], .fixed ['a'], .raw ['x'],
    .fixed ['b'], .fixed ['a'], .raw ['x']]

theorem parse_sharedSample : (match sharedSample.parse [] (TokenList.adjoining sharedSampleTokens) with
    | .ok (.operation _ o _) => o.tokens == [['a'], ['b']]
    | _ => false) = true := by
  rw [parse, reachable_sharedSample.wellFormed.groups_eq_foldl (by decide +kernel)]
  decide +kernel

theorem yields_of_parse_sample : ∃ p o ts, sharedSample.operators.Reachable ∧ sharedSample.operators.AvoidsBuiltins ∧
    Balanced (TokenList.adjoining sharedSampleTokens).tokens ∧
    sharedSample.parse [] (TokenList.adjoining sharedSampleTokens) = .ok (.operation p o ts) ∧
      o.tokens = [['a'], ['b']] ∧ sharedSample.Yields (TokenList.adjoining sharedSampleTokens) (.operation p o ts) := by
  have havoids : sharedSample.operators.AvoidsBuiltins := by
    rw [Registry.AvoidsBuiltins, operators_sharedSample]
    decide
  have hb := (TokenList.checkBrackets_eq_ok_iff (TokenList.adjoining sharedSampleTokens) []).1 rfl
  have hparse := parse_sharedSample
  split at hparse
  · next p o ts h =>
    exact ⟨p, o, ts, reachable_sharedSample, havoids, hb, h, beq_iff_eq.1 hparse,
      yields_of_parse reachable_sharedSample havoids hb h⟩
  · cases hparse

end Grammar

end Mixfix
