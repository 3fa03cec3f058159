import Mixfix.Proofs.Calculator

/-!
# Expressions in place of a variable

The tokens of a variable may be replaced by an expression in brackets: in the text (`Row.replace`), in its tokens
(`Token.substitute`) and in its tree (`Tree.substitute`). The three agree. The text with the replacements has the tokens
with the replacements (`Builder.IsCalculator.tokens_replace`), and these mean the tree with the replacements
(`Means.substitute`), since each root keeps its form around parts with brackets in place of some operands. So building a
text with an expression put in for a variable gives the tree with the tree of the expression put in
(`Builder.build_replace`).
-/

namespace Mixfix

variable {α : Type}

/-! ## Trees -/

namespace Tree

mutual

/-- The tree with another tree in place of every reference to a name. -/
def substitute (t : Tree α) (x : Text) (u : Tree α) : Tree α :=
  match t with
  | number position value => number position value
  | reference position name => if name = x then u else reference position name
  | call position name args => call position name (substituteAll args x u)
  | operation position operator operands => operation position operator (substituteAll operands x u)
  | unknown position kind => unknown position kind

/-- The trees of a list with another tree in place of every reference to a name. -/
def substituteAll (ts : List (Tree α)) (x : Text) (u : Tree α) : List (Tree α) :=
  match ts with
  | [] => []
  | t :: ts => substitute t x u :: substituteAll ts x u

end

variable {x : Text} {u : Tree α}

theorem substituteAll_eq_map (ts : List (Tree α)) : substituteAll ts x u = ts.map fun t => t.substitute x u := by
  induction ts with
  | nil => rfl
  | cons t ts ih => rw [substituteAll, ih, List.map_cons]

mutual

theorem strip_substitute (t : Tree α) : (t.substitute x u).strip = t.strip.substitute x u.strip := by
  cases t with
  | number p v | unknown p k => rfl
  | reference p n =>
    rw [substitute, strip, substitute]
    split <;> rfl
  | call p n args => rw [substitute, strip, strip, substitute, stripAll_substituteAll]
  | operation p o operands => rw [substitute, strip, strip, substitute, stripAll_substituteAll]

theorem stripAll_substituteAll (ts : List (Tree α)) :
    stripAll (substituteAll ts x u) = substituteAll (stripAll ts) x u.strip := by
  cases ts with
  | nil => rfl
  | cons t ts => rw [substituteAll, stripAll, stripAll, substituteAll, strip_substitute, stripAll_substituteAll]

end

end Tree

/-! ## Tokens -/

/-- What stands in place of a token: the tokens of an expression in brackets for a name, and else the token. -/
def Token.substitute (x : Text) (es : List Token) : Token → List Token
  | raw t => if t.trim = x then .fixed openText :: (es ++ [.fixed closeText]) else [raw t]
  | t => [t]

theorem TokenList.weave_flatMap (f : Token → List Token) (fs ps : List (List Token)) :
    (weave fs ps).flatMap f = weave (fs.map fun ts => ts.flatMap f) (ps.map fun ts => ts.flatMap f) := by
  induction ps generalizing fs with
  | nil =>
    have hflatten : fs.flatten.flatMap f = (fs.map fun ts => ts.flatMap f).flatten := by
      simp only [List.flatMap_def, List.map_flatten, List.flatten_flatten, List.map_map, Function.comp_def]
    cases fs <;> exact hflatten
  | cons p ps ih =>
    match fs with
    | [] => rfl
    | fr :: fs => rw [weave, List.map_cons, List.map_cons, weave, List.flatMap_append, List.flatMap_append, ih]

open TokenList

variable {g : Grammar α} {r : Registry α} {ts es : List Token} {t u : Tree α} {x q c : Text} {o : Operator α}

/-- Each name is an operand, and brackets replace it. -/
theorem Wraps.substitute (hes : Balanced es) (ts : List Token) : Wraps r ts (ts.flatMap (Token.substitute x es)) := by
  induction ts with
  | nil => exact .nil
  | cons t ts ih =>
    rw [List.flatMap_cons]
    match t with
    | .raw t =>
      rw [Token.substitute]
      split
      · exact (Wraps.whole (.singleton rfl rfl) hes).append ih
      · exact ih.token
    | .fixed t | .number t v => exact ih.token

/-- The root of tokens is a reference to the name, or its own tokens stay, and it is a root of what its parts become. -/
theorem Form.substitute {frames parts : List (List Token)} {node : List (Tree α) → Tree α}
    (h : Form g frames parts node) (hx : x ∉ g.functions) (es : List Token) (u : Tree α) :
    (∃ t, t.trim = x ∧ frames = [[.raw t]] ∧ parts = [] ∧ node = fun _ => .reference 0 x) ∨
      (frames.map fun ts => ts.flatMap (Token.substitute x es)) = frames ∧
        ∀ ts, (node ts).substitute x u = node (ts.map fun t => t.substitute x u) := by
  have hname {t : Text} (ht : t.trim ∈ g.functions) : t.trim ≠ x := fun heq => hx (by rwa [← heq])
  have hfixed (ts : List Text) : (ts.map Token.fixed).flatMap (Token.substitute x es) = ts.map Token.fixed := by
    rw [List.flatMap_map]
    exact List.map_eq_flatMap.symm
  cases h with
  | number t v => exact Or.inr ⟨rfl, fun _ => rfl⟩
  | @reference t ht =>
    by_cases heq : t.trim = x
    · exact Or.inl ⟨t, heq, rfl, rfl, by rw [heq]⟩
    · exact Or.inr ⟨by simp [Token.substitute, heq], fun _ => if_neg heq⟩
  | brackets m => exact Or.inr ⟨rfl, fun ts => by cases ts <;> rfl⟩
  | callEmpty ht => exact Or.inr ⟨by simp [Token.substitute, hname ht], fun ts => by
      rw [Tree.substitute, Tree.substituteAll_eq_map]⟩
  | call m ms ht => exact Or.inr ⟨by simp [Token.substitute, hname ht], fun ts => by
      rw [Tree.substitute, Tree.substituteAll_eq_map]⟩
  | @operation o parts hchooses =>
    refine Or.inr ⟨?_, fun ts => by rw [Tree.substitute, Tree.substituteAll_eq_map]⟩
    rw [Operator.frames]
    split
    · simp [hfixed]
    · simp [hfixed]
    · simp [hfixed]
    · simp [Function.comp_def, Token.substitute]

/-- Tokens with an expression in place of a name mean the tree with the tree of the expression in place of the name. -/
theorem Means.substitute (hr : g.operators.Conditional q c o) (hx : x ∉ g.functions) (hu : Means g es u)
    (h : Means g ts t) : Means g (ts.flatMap (Token.substitute x es)) (t.substitute x u) := by
  have hbalanced := ((hu.derivable hr).operand hr.toSeparate).balanced
  induction h with
  | @intro frames node ps hform hps ih =>
    rcases hform.substitute hx es u with ⟨t, ht, rfl, hparts, rfl⟩ | ⟨hframes, hnode⟩
    · have hbrackets := @Means.intro _ g _ _ [(es, u)] (.brackets es) (by simpa using hu)
      rw [hparts]
      simpa [weave, Token.substitute, ht, Tree.substitute] using hbrackets
    · have hmeans : ∀ p ∈ ps.map fun p => (p.1.flatMap (Token.substitute x es), p.2.substitute x u),
          Means g p.1 p.2 := List.forall_mem_map.2 ih
      have hfst : (ps.map fun p => (p.1.flatMap (Token.substitute x es), p.2.substitute x u)).map Prod.fst =
          (ps.map Prod.fst).map fun ts => ts.flatMap (Token.substitute x es) := by simp
      have hsnd : (ps.map fun p => (p.1.flatMap (Token.substitute x es), p.2.substitute x u)).map Prod.snd =
          (ps.map Prod.snd).map fun t => t.substitute x u := by simp
      rw [weave_flatMap, hframes, hnode, ← hfst, ← hsnd]
      refine .intro (hform.wraps hr ?_ ?_ ?_) hmeans
      · exact List.forall_mem_map.2 fun p hp => (hps p hp).derivable hr
      · rw [hfst]
        exact List.forall₂_map_right_iff.2 (List.forall₂_same.2 fun m _ => .substitute hbalanced m)
      · exact List.forall_mem_map.2 fun p hp => (hmeans p hp).derivable hr

/-! ## Texts -/

/-- The token with the spaces before it as text, or another text in its place if its text, trimmed, is a name. -/
def Spaced.replace (s : Spaced) (x w : Text) : Text :=
  Text.spaces s.spaces ++ if s.token.text.trim = x then w else s.token.text

/-- The text of a row with another text in place of every token whose text, trimmed, is a name. -/
def Row.replace (row : Row) (x w : Text) : Text :=
  (row.items.flatMap fun s => s.replace x w) ++ Text.spaces row.trailing

namespace Builder

variable {κ : Type} {b : Builder κ} {text : Text}

/-- The tokens of a text with an expression in brackets in place of a name are its tokens with those of the expression
in brackets in place of the name. -/
theorem IsCalculator.tokens_replace (h : b.IsCalculator) (x e text : Text) :
    (b.tokenList ((b.tokenList text).replace x ('(' :: (e ++ [')'])))).tokens =
      (b.tokenList text).tokens.flatMap fun t =>
        if t.text.trim = x then .fixed Token.openText :: ((b.tokenList e).tokens ++ [.fixed Token.closeText])
        else [t] := by
  obtain ⟨items, n, hrow⟩ : ∃ items n, (b.tokenList text).toRow = ⟨items, n⟩ := ⟨_, _, rfl⟩
  -- the items before the ones to replace have been looked at, and stay
  suffices hall : ∀ pre : List Spaced, (b.tokenList text).toRow = ⟨pre ++ items, n⟩ →
      (b.tokenList (pre.flatMap Spaced.render ++ Row.replace ⟨items, n⟩ x ('(' :: (e ++ [')'])))).tokens =
        pre.map Spaced.token ++ (items.map Spaced.token).flatMap fun t =>
          if t.text.trim = x then .fixed Token.openText :: ((b.tokenList e).tokens ++ [.fixed Token.closeText])
          else [t] by
    rw [hrow]
    exact hall [] hrow
  clear hrow
  induction items generalizing text with
  | nil =>
    intro pre hpre
    rw [List.append_nil] at hpre
    have hwhole := (@TokenList.ofText_parts _ text h.neat [] pre n hpre).2
    rw [List.map_nil, List.flatMap_nil, List.append_nil, Row.replace, List.flatMap_nil, List.nil_append]
    exact congrArg Row.tokens hwhole
  | cons s items ih =>
    intro pre hpre
    have hpre' : (b.tokenList text).toRow = ⟨(pre ++ [s]) ++ items, n⟩ := by rw [hpre, List.append_assoc]; rfl
    by_cases hx : s.token.text.trim = x
    · have hbefore := congrArg Row.tokens (TokenList.ofText_parts h.neat hpre).1
      have hspaces := TokenList.tokens_ofText_spaces h.neat 0 s.spaces (pre.flatMap Spaced.render)
      have hbehind := ih _ [] (TokenList.ofText_parts h.neat hpre').2
      have htext : pre.flatMap Spaced.render ++ Row.replace ⟨s :: items, n⟩ x ('(' :: (e ++ [')'])) =
          (pre.flatMap Spaced.render ++ Text.spaces s.spaces) ++
            '(' :: (e ++ ')' :: Row.replace ⟨items, n⟩ x ('(' :: (e ++ [')']))) := by
        simp [Row.replace, Spaced.replace, hx]
      rw [Text.spaces, List.replicate_zero, List.nil_append] at hspaces
      rw [List.flatMap_nil, List.nil_append] at hbehind
      rw [htext, h.tokens_enclosed, hbehind, tokenList, hspaces, hbefore]
      simp [Row.tokens, hx]
    · have hrest := ih _ (pre ++ [s]) hpre'
      have htext : pre.flatMap Spaced.render ++ Row.replace ⟨s :: items, n⟩ x ('(' :: (e ++ [')'])) =
          (pre ++ [s]).flatMap Spaced.render ++ Row.replace ⟨items, n⟩ x ('(' :: (e ++ [')'])) := by
        simp [Row.replace, Spaced.replace, Spaced.render, hx]
      rw [htext, hrest]
      simp [hx]

/-- Only the tokens of names have a name for their text. -/
theorem substitute_eq (hx : b.operators.Spares x) (es : List Token) {t : Token} (ht : t ∈ (b.tokenList text).tokens) :
    (if t.text.trim = x then .fixed Token.openText :: (es ++ [.fixed Token.closeText]) else [t]) =
      Token.substitute x es t := by
  have htokenized := b.tokenized_tokenList text
  match t with
  | .raw t => rfl
  | .fixed t =>
    refine if_neg fun heq => hx.no_token t (List.mem_reverse.1 (htokenized.fixed t ht)) ⟨[], [], ?_⟩
    rw [List.nil_append, List.append_nil]
    exact heq
  | .number t v =>
    refine if_neg fun heq => ?_
    have hnumber := htokenized.number t v ht
    rw [← readNumber?_trim, show t.trim = x from heq, hx.not_number] at hnumber
    cases hnumber

/-- A text with brackets in place of names is not blank if the text is not. -/
theorem isAllBlank_replace (row : Row) (x e : Text) (h : row.render.isAllBlank = false) :
    (row.replace x ('(' :: (e ++ [')']))).isAllBlank = false := by
  rw [← Bool.not_eq_true, Text.isAllBlank, List.all_eq_true] at h ⊢
  refine fun hblank => h fun c hc => ?_
  rw [Row.render, List.mem_append, List.mem_flatMap] at hc
  rcases hc with ⟨s, hs, hc⟩ | hc
  · have hitem (c : Char) (hc : c ∈ s.replace x ('(' :: (e ++ [')']))) : Text.isBlank c = true :=
      hblank c (List.mem_append_left _ (List.mem_flatMap.2 ⟨s, hs, hc⟩))
    rw [Spaced.replace] at hitem
    split at hitem
    · cases hitem '(' (by simp)
    · exact hitem c hc
  · exact hblank c (List.mem_append_right _ hc)

/-- Putting an expression in brackets in place of a variable puts its tree in place of the references to the
variable. -/
theorem build_replace (h : b.IsCalculator) {x s e : Text} {d d' : Expression κ} (hx : x ∈ b.vars.keys)
    (hf : x ∉ b.functions.keys) (hs : b.build s = .ok d) (he : b.build e = .ok d') :
    b.BuildsTo ((b.tokenList s).replace x ('(' :: (e ++ [')']))) (d.tree.substitute x d'.tree).strip := by
  refine h.buildsTo_of_means (isAllBlank_replace _ x e ?_) ?_
  · rw [← (b.tokenized_tokenList s).faithful]
    exact (parse_of_build hs).1
  · rw [Tree.strip_substitute, h.tokens_replace, List.flatMap_congr fun t ht =>
      substitute_eq (h.namesApart.vars x hx) _ ht]
    exact .substitute h.conditional hf (h.means_of_build he) (h.means_of_build hs)

/-- A text with a variable in several roles. -/
def variableSample : Text := "-e% ? max(π, e ) : 2 √ e".toList

/-- An expression to put in place of the variable. -/
def expressionSample : Text := "1 - π".toList

theorem build_replace_sample : ∃ (b : Builder Unit) (d d' : Expression Unit), b.IsCalculator ∧ ['e'] ∈ b.vars.keys ∧
    ['e'] ∉ b.functions.keys ∧ b.build variableSample = .ok d ∧ b.build expressionSample = .ok d' ∧
    b.BuildsTo ((b.tokenList variableSample).replace ['e'] ('(' :: (expressionSample ++ [')'])))
      (d.tree.substitute ['e'] d'.tree).strip := by
  have hvariable : ['e'] ∈ (standard (κ := Unit) {}).vars.keys := by decide +kernel
  have hfunction : ['e'] ∉ (standard (κ := Unit) {}).functions.keys := by decide +kernel
  have hok : ((standard (κ := Unit) {}).build variableSample).isOk = true ∧
      ((standard (κ := Unit) {}).build expressionSample).isOk = true := by
    simp only [build, parse_eq, Grammar.parse, groups_standard]
    decide +kernel
  obtain ⟨d, hd⟩ := exists_of_isOk hok.1
  obtain ⟨d', hd'⟩ := exists_of_isOk hok.2
  exact ⟨_, d, d', isCalculator_standard, hvariable, hfunction, hd, hd',
    build_replace isCalculator_standard hvariable hfunction hd hd'⟩

end Builder

end Mixfix
