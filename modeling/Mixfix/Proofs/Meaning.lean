import Mathlib.Algebra.Order.BigOperators.Group.List
import Mathlib.Algebra.Order.Group.Nat
import Mixfix.Proofs.Within
import Mixfix.Proofs.Wrapping

/-!
# The meaning of tokens

The root of derivable tokens has a form: frames of its own tokens with the parts below it in between (`Form`). The form
depends on the tokens alone, so they have a meaning (`Means`): the tree, without positions, that every list with these
tokens is built to, limits apart (`Grammar.build_of_means`). Derivable tokens have a meaning (`Derivable.exists_means`),
so the parser accepts them (`Grammar.parse_of_derivable`).

A form stays one when operands in its parts are replaced by brackets (`Form.wraps`). So tokens keep their meaning when
some tokens within them are replaced by others of the same meaning in brackets.
-/

namespace Mixfix

variable {α : Type}

/-! ## Sections between frames -/

namespace TokenList

variable {l : TokenList} {s : TokenList} {pre : List Token}

/-- The sections of a list where parts stand between frames, from an index on. -/
def between (l : TokenList) (start : Nat) : List (List Token) → List (List Token) → List TokenList
  | f :: fs, p :: ps =>
    l.slice (start + f.length) (start + f.length + p.length) :: between l (start + f.length + p.length) fs ps
  | _, _ => []

theorem isPart_between {fs ps : List (List Token)} (h : l.tokens = pre ++ weave fs ps) (hle : ps.length ≤ fs.length) :
    List.Forall₂ l.IsPart (l.between pre.length fs ps) ps := by
  induction ps generalizing fs pre with
  | nil => cases fs <;> exact .nil
  | cons p ps ih =>
    match fs with
    | f :: fs =>
      have hsplit : l.tokens = pre ++ f ++ p ++ weave fs ps := by rw [h, weave]; simp
      have hlength : (pre ++ f ++ p).length = pre.length + f.length + p.length := by
        rw [List.length_append, List.length_append]
      have hrest := ih hsplit (by simpa using hle)
      have hmid := tokens_slice_mid hsplit
      rw [hlength] at hrest
      rw [List.length_append] at hmid
      refine .cons ⟨hmid, _, _, Nat.le_add_right _ _, ?_, rfl⟩ hrest
      rw [size_eq, hsplit, List.length_append, hlength]
      omega

/-- A section between frames has its part in its place, and another part may be put there. -/
theorem exists_of_mem_between {fs ps : List (List Token)} (hs : s ∈ l.between pre.length fs ps) :
    ∃ ps₁ p ps₂ u v, ps = ps₁ ++ p :: ps₂ ∧ s = l.slice u.length (u.length + p.length) ∧
      ∀ p', pre ++ weave fs (ps₁ ++ p' :: ps₂) = u ++ (p' ++ v) := by
  induction ps generalizing fs pre with
  | nil => cases fs <;> cases hs
  | cons p ps ih =>
    match fs with
    | f :: fs =>
      rw [between] at hs
      rcases List.mem_cons.1 hs with rfl | hs
      · refine ⟨[], p, ps, pre ++ f, weave fs ps, rfl, by rw [List.length_append], fun p' => ?_⟩
        rw [List.nil_append, weave, List.append_assoc]
      · have hlength : (pre ++ f ++ p).length = pre.length + f.length + p.length := by
          rw [List.length_append, List.length_append]
        rw [← hlength] at hs
        obtain ⟨ps₁, p₁, ps₂, u, v, rfl, rfl, hput⟩ := ih hs
        refine ⟨p :: ps₁, p₁, ps₂, u, v, rfl, rfl, fun p' => ?_⟩
        rw [← hput p', List.cons_append, weave]
        simp

theorem cutFrom_eq_between {m : List Token} {rest : List (Text × List Token)} (h : l.tokens = pre ++ joined m rest) :
    l.cutFrom pre.length (joints pre.length m rest) =
      l.between pre.length ([] :: (rest.map Prod.fst).map fun t => [.fixed t]) (m :: rest.map Prod.snd) := by
  induction rest generalizing m pre with
  | nil =>
    have hsize : l.size = pre.length + m.length := by rw [size_eq, h, joined, List.length_append]
    simp [joints, cutFrom, between, hsize]
  | cons p rest ih =>
    obtain ⟨t, m'⟩ := p
    have hrest := @ih (pre ++ m ++ [.fixed t]) m' (by rw [h, joined]; simp)
    have hlength : (pre ++ m ++ [Token.fixed t]).length = pre.length + m.length + 1 := by simp; omega
    rw [hlength] at hrest
    simp only [joints, cutFrom, hrest, List.map_cons, between, List.length_nil, Nat.add_zero, List.length_singleton]

/-- Frames behind the last part do not matter. -/
theorem between_append {fs ps : List (List Token)} (start : Nat) (hle : ps.length ≤ fs.length)
    (es : List (List Token)) : l.between start (fs ++ es) ps = l.between start fs ps := by
  induction ps generalizing fs start with
  | nil => cases fs <;> cases es <;> rfl
  | cons p ps ih =>
    match fs with
    | f :: fs => rw [List.cons_append, between, between, ih _ (by simpa using hle)]

/-- The sections of a slice are sections of the list. -/
theorem between_slice {fs ps : List (List Token)} {a b start : Nat} (h : l.Faithful) (hb : b ≤ l.size)
    (hle : a + start + (weave fs ps).length ≤ b) (hps : ps.length ≤ fs.length) :
    (l.slice a b).between start fs ps = l.between (a + start) fs ps := by
  induction ps generalizing fs start with
  | nil => cases fs <;> rfl
  | cons p ps ih =>
    match fs with
    | f :: fs =>
      simp only [weave, List.length_append] at hle
      rw [between, between, h.slice_slice hb (by omega) (by omega), ih (by omega) (by simpa using hps)]
      simp only [Nat.add_assoc]

theorem weave_call (a b e : Token) (m : List Token) (ms : List (List Token)) :
    weave ([a, b] :: (ms.map (fun _ => [.fixed Token.separatorText]) ++ [[e]])) (m :: ms) =
      a :: b :: (joined m (ms.map fun m => (Token.separatorText, m)) ++ [e]) := by
  have hrest (m : List Token) : m ++ weave (ms.map (fun _ => [.fixed Token.separatorText]) ++ [[e]]) ms =
      joined m (ms.map fun m => (Token.separatorText, m)) ++ [e] := by
    induction ms generalizing m with
    | nil => simp [weave, joined]
    | cons m' ms ih =>
      rw [List.map_cons, List.cons_append, weave, ih, List.map_cons, joined]
      simp
  rw [weave, hrest]
  rfl

end TokenList

namespace Grammar

open TokenList

variable {g : Grammar α} {r : Registry α} {l : TokenList} {o : Operator α} {parts : List (List Token)}

/-- The sections of an operation stand between the tokens of its operator. -/
theorem Shows.operands_eq {position : Int} {operands : List TokenList}
    (h : Shows r l (.operation position o operands) parts) :
    operands = l.between 0 o.frames parts ∧ parts.length ≤ o.frames.length := by
  cases h with
  | @infixed _ m rest _ hf hts hl =>
    obtain ⟨a, hf⟩ := hf
    rw [Operator.frames, hf, hts]
    exact ⟨@cutFrom_eq_between l [] m rest hl, by simp⟩
  | @prefixed _ t rest _ hf hts hl =>
    have hsize : l.size = 1 + rest.length := by rw [size_eq, hl, List.length_cons, Nat.add_comm]
    rw [Operator.frames, hf, hts, hsize]
    exact ⟨by simp [between], by simp⟩
  | @postfixed _ t rest _ hf hts hl =>
    have hsize : l.size - 1 = rest.length := by rw [size_eq, hl]; simp
    rw [Operator.frames, hf, hts, hsize]
    exact ⟨by simp [between], by simp⟩

/-- The operation of an operator with some parts is read in its tokens. -/
def Chooses (g : Grammar α) (o : Operator α) (parts : List (List Token)) : Prop := ∃ l position operands,
  g.readOperation? l (Mark.ofTokens g.operators l.tokens) g.operators.groups.1 = some (.operation position o operands) ∧
    Shows g.operators l (.operation position o operands) parts

end Grammar

open TokenList Grammar

/-! ## Forms -/

/-- The root of tokens: the frames of its own tokens, the parts between them, and the tree that it makes of the trees of
the parts. -/
inductive Form (g : Grammar α) : List (List Token) → List (List Token) → (List (Tree α) → Tree α) → Prop
  | number (t : Text) (v : Float) : Form g [[.number t v]] [] fun _ => .number 0 v
  | reference {t : Text} : t.trim ∈ g.vars → Form g [[.raw t]] [] fun _ => .reference 0 t.trim
  | brackets (m : List Token) : Form g [[.fixed Token.openText], [.fixed Token.closeText]] [m] fun ts =>
      ts.headD (.unknown 0 [])
  | callEmpty {t : Text} : t.trim ∈ g.functions →
      Form g [[.raw t, .fixed Token.openText, .fixed Token.closeText]] [] (.call 0 t.trim)
  | call {t : Text} (m : List Token) (ms : List (List Token)) : t.trim ∈ g.functions →
      Form g ([.raw t, .fixed Token.openText] :: (ms.map (fun _ => [.fixed Token.separatorText]) ++
        [[.fixed Token.closeText]])) (m :: ms) (.call 0 t.trim)
  | operation {o : Operator α} {parts : List (List Token)} : g.Chooses o parts →
      Form g o.frames parts (.operation 0 o)

namespace Form

variable {g : Grammar α} {frames parts parts' : List (List Token)} {node : List (Tree α) → Tree α} {q c : Text}
  {o : Operator α}

theorem derivable (hr : g.operators.Conditional q c o) (h : Form g frames parts node)
    (hd : ∀ m ∈ parts, Derivable g m) : Derivable g (weave frames parts) := by
  cases h with
  | number t v => exact .number t v
  | reference ht => exact .reference ht
  | brackets m => exact .brackets (hd m List.mem_cons_self)
  | callEmpty ht => exact .callEmpty ht
  | call m ms ht =>
    rw [weave_call]
    exact .call ht hd
  | operation hchooses =>
    obtain ⟨l, position, operands, -, hshows⟩ := hchooses
    rw [← hshows.tokens_eq]
    exact hshows.derivable hr hd

/-- The parts are shorter than the whole, and each has a frame before it. -/
theorem length_le (hr : g.operators.Separate) (h : Form g frames parts node) :
    parts.length ≤ frames.length ∧ (parts.map List.length).sum < (weave frames parts).length := by
  cases h with
  | number _ _ | reference _ | callEmpty _ => exact ⟨Nat.zero_le _, Nat.zero_lt_succ _⟩
  | brackets m =>
    refine ⟨by simp, ?_⟩
    simp only [weave, List.flatten_cons, List.flatten_nil, List.length_append, List.length_cons, List.length_nil,
      List.map_cons, List.map_nil, List.sum_cons, List.sum_nil]
    omega
  | call m ms ht =>
    refine ⟨by simp, ?_⟩
    have hjoined := length_joined m (ms.map fun m => (Token.separatorText, m))
    rw [List.map_map, show Prod.snd ∘ (fun m => (Token.separatorText, m)) = @id (List Token) from rfl,
      List.map_id] at hjoined
    simp only [weave_call, List.length_cons, List.length_append, hjoined]
    omega
  | operation hchooses =>
    obtain ⟨l, position, operands, -, hshows⟩ := hchooses
    have hlt := hshows.lt_size hr
    rw [size_eq, hshows.tokens_eq] at hlt
    exact ⟨hshows.operands_eq.2, hlt⟩

/-- A form stays one when operands in its parts are replaced by brackets. -/
theorem wraps (hr : g.operators.Conditional q c o) (h : Form g frames parts node) (hd : ∀ m ∈ parts, Derivable g m)
    (hw : List.Forall₂ (Wraps g.operators) parts parts') (hd' : ∀ m ∈ parts', Derivable g m) :
    Form g frames parts' node := by
  cases h with
  | number t v =>
    obtain rfl := List.forall₂_nil_left_iff.1 hw
    exact .number t v
  | reference ht =>
    obtain rfl := List.forall₂_nil_left_iff.1 hw
    exact .reference ht
  | brackets m =>
    obtain ⟨m', _, -, hnil, rfl⟩ := List.forall₂_cons_left_iff.1 hw
    obtain rfl := List.forall₂_nil_left_iff.1 hnil
    exact .brackets m'
  | callEmpty ht =>
    obtain rfl := List.forall₂_nil_left_iff.1 hw
    exact .callEmpty ht
  | call m ms ht =>
    obtain ⟨m', ms', -, hms, rfl⟩ := List.forall₂_cons_left_iff.1 hw
    have hseparators : (ms.map fun _ => [Token.fixed Token.separatorText]) =
        ms'.map fun _ => [Token.fixed Token.separatorText] := by
      rw [List.map_const', List.map_const', hms.length_eq]
    rw [hseparators]
    exact .call m' ms' ht
  | operation hchooses =>
    obtain ⟨l, position, operands, hread, hshows⟩ := hchooses
    obtain ⟨_, _, _, heq, hparts⟩ := hshows.isPart
    cases heq
    obtain ⟨position', operands', hread', hshows'⟩ :=
      readOperation?_of_wraps hr hread (hshows.derivable hr hd) hparts hw hd'
        (tokens_adjoining _)
    exact .operation ⟨_, _, _, hread', hshows'⟩

end Form

/-! ## Meanings -/

/-- The tree, without positions, that tokens have by their form and the trees of their parts. -/
inductive Means (g : Grammar α) : List Token → Tree α → Prop
  | intro {frames : List (List Token)} {node : List (Tree α) → Tree α} {ps : List (List Token × Tree α)} :
      Form g frames (ps.map Prod.fst) node → (∀ p ∈ ps, Means g p.1 p.2) →
      Means g (weave frames (ps.map Prod.fst)) (node (ps.map Prod.snd))

variable {g : Grammar α} {ts : List Token} {t : Tree α} {q c : Text} {o : Operator α}

theorem Means.derivable (hr : g.operators.Conditional q c o) (h : Means g ts t) : Derivable g ts := by
  induction h with
  | intro hform _ ih =>
    refine hform.derivable hr fun m hm => ?_
    obtain ⟨p, hp, rfl⟩ := List.mem_map.1 hm
    exact ih p hp

theorem Form.nodeCount_le {frames parts : List (List Token)} {node : List (Tree α) → Tree α}
    (h : Form g frames parts node) (ts : List (Tree α)) : (node ts).nodeCount ≤ 1 + Tree.nodeCountAll ts := by
  cases h with
  | brackets m =>
    cases ts with
    | nil => exact Nat.le_refl 1
    | cons t ts =>
      have hle : t.nodeCount ≤ 1 + (t.nodeCount + Tree.nodeCountAll ts) := by omega
      exact hle
  | number _ _ | reference _ => exact Nat.le_add_right 1 _
  | callEmpty _ | call _ _ _ | operation _ => exact Nat.le_refl _

/-- There are no more nodes than tokens. -/
theorem Means.nodeCount_le (hr : g.operators.Separate) (h : Means g ts t) : t.nodeCount ≤ ts.length := by
  induction h with
  | @intro frames node ps hform _ ih =>
    have hnode := hform.nodeCount_le (ps.map Prod.snd)
    have hlt := (hform.length_le hr).2
    have := Tree.nodeCountAll_le ih
    omega

/-- Tokens of a form have a meaning if their parts have one. -/
theorem Form.exists_means {frames parts : List (List Token)} {node : List (Tree α) → Tree α}
    (h : Form g frames parts node) (hparts : ∀ m ∈ parts, ∃ t, Means g m t) : ∃ t, Means g (weave frames parts) t := by
  obtain ⟨ps, rfl, hps⟩ : ∃ ps : List (List Token × Tree α), parts = ps.map Prod.fst ∧ ∀ p ∈ ps, Means g p.1 p.2 := by
    clear h
    induction parts with
    | nil => exact ⟨[], rfl, by simp⟩
    | cons m parts ih =>
      rw [List.forall_mem_cons] at hparts
      obtain ⟨t, ht⟩ := hparts.1
      obtain ⟨ps, rfl, hps⟩ := ih hparts.2
      exact ⟨(m, t) :: ps, rfl, List.forall_mem_cons.2 ⟨ht, hps⟩⟩
  exact ⟨_, .intro h hps⟩

/-- Derivable tokens have a meaning. -/
theorem Derivable.exists_means (hr : g.operators.Conditional q c o) (h : Derivable g ts) : ∃ t, Means g ts t := by
  induction hn : ts.length using Nat.strong_induction_on generalizing ts with
  | _ n ih =>
    have hform {frames parts : List (List Token)} {node : List (Tree α) → Tree α} (hform : Form g frames parts node)
        (hts : ts = weave frames parts) (hd : ∀ m ∈ parts, Derivable g m) : ∃ t, Means g ts t := by
      have hlt := (hform.length_le hr.toSeparate).2
      rw [← hts, hn] at hlt
      rw [hts]
      refine hform.exists_means fun m hm => ih m.length ?_ (hd m hm) rfl
      exact Nat.lt_of_le_of_lt (List.le_sum_of_mem (List.mem_map_of_mem hm)) hlt
    by_cases hatom : Atom g ts
    · cases hatom with
      | number t v => exact hform (.number t v) rfl (by simp)
      | reference ht => exact hform (.reference ht) rfl (by simp)
      | @brackets m hm => exact hform (.brackets m) (by simp [weave]) (by simpa using hm)
      | callEmpty ht => exact hform (.callEmpty ht) rfl (by simp)
      | call ht hms => exact hform (.call _ _ ht) (weave_call _ _ _ _ _).symm hms
    · have htokens := tokens_adjoining ts
      obtain ⟨op, parts, hread, hshows, hd⟩ :=
        @readOperation?_of_derivable _ g (adjoining ts) _ _ _ hr (by rwa [htokens]) (by rwa [htokens])
      obtain ⟨position, o', operands, rfl, -⟩ := hshows.isPart
      exact hform (.operation ⟨_, _, _, hread, hshows⟩) (by rw [← hshows.tokens_eq, htokens]) hd

/-! ## What is built of tokens with a meaning -/

namespace Grammar

variable {source : Text} {splitters : List Text} {l : TokenList} {frames parts : List (List Token)}
  {node : List (Tree α) → Tree α}

/-- A call is read with its arguments, unless there are too many. -/
theorem read_of_call (hr : g.operators.Conditional q c o) (hn : g.NamesApart) (h : l.Faithful) {t : Text}
    {m : List Token} {ms : List (List Token)} (ht : t.trim ∈ g.functions) (hop : ∀ m' ∈ m :: ms, g.operators.Operand m')
    (hl : l.tokens = .raw t :: .fixed Token.openText ::
      (joined m (ms.map fun m => (Token.separatorText, m)) ++ [.fixed Token.closeText])) :
    Within (g.limits.callArguments < l.size) (fun reading => sections reading =
        l.between 0 ([.raw t, .fixed Token.openText] :: (ms.map (fun _ => [.fixed Token.separatorText]) ++
          [[.fixed Token.closeText]])) (m :: ms) ∧
      ∀ ts, (nodeOf l reading ts).strip = .call 0 t.trim (Tree.stripAll ts))
      (g.read source g.operators.groups.1 l) := by
  have hinner := tokens_arguments hl
  have hlength := length_joined m (ms.map fun m => (Token.separatorText, m))
  have hsize : (joined m (ms.map fun m => (Token.separatorText, m))).length + 3 = l.size := by
    rw [size_eq, hl]
    simp
  rw [List.length_map] at hlength
  rw [read_call hr.toWellFormed.sparesBrackets hn h (balanced_arguments fun m' hm' => (hop m' hm').balanced) hl ht,
    readArguments_joined hinner hop]
  refine ((Within.check fun hlt => ?_).map fun _ _ => ?_).map fun _ h => h
  · rw [Limits.bound] at hlt
    omega
  · have hcut := @cutFrom_eq_between _ [] m (ms.map fun m => (Token.separatorText, m)) hinner
    have hlength := congrArg List.length (joined_eq_weave m (ms.map fun m => (Token.separatorText, m)))
    have hparts : (ms.map fun m => (Token.separatorText, m)).map Prod.snd = ms := by simp [Function.comp_def]
    have hseparators : ((ms.map fun m => (Token.separatorText, m)).map Prod.fst).map (fun t => [Token.fixed t]) =
        ms.map fun _ => [.fixed Token.separatorText] := by simp
    rw [hparts, hseparators] at hcut hlength
    rw [List.length_nil, between_slice h (by omega) (by omega) (by simp), between] at hcut
    refine ⟨?_, fun ts => rfl⟩
    rw [sections, cutAt, hcut, between, between_append _ (by simp)]
    simp

/-- Tokens are read by their form: the sections below the root stand between the frames. -/
theorem read_of_form (hr : g.operators.Conditional q c o) (hn : g.NamesApart) (h : l.Tokenized splitters)
    (hform : Form g frames parts node) (hl : l.tokens = weave frames parts) (hd : ∀ m ∈ parts, Derivable g m) :
    Within (g.limits.callArguments < l.size) (fun reading => sections reading = l.between 0 frames parts ∧
      ∀ ts, (nodeOf l reading ts).strip = node (Tree.stripAll ts)) (g.read source g.operators.groups.1 l) := by
  have hspares := hr.toWellFormed.sparesBrackets
  have hop (m : List Token) (hm : m ∈ parts) : g.operators.Operand m := (hd m hm).operand hr.toSeparate
  have hder : Derivable g l.tokens := by
    rw [hl]
    exact hform.derivable hr hd
  cases hform with
  | number t v =>
    have hv := h.number t v (by rw [hl]; exact List.mem_singleton_self _)
    rw [read_number (fun _ hm => hr.sound hm) hn h.faithful hl hv]
    exact .ok ⟨rfl, fun _ => rfl⟩
  | reference ht =>
    rw [read_raw h.faithful hl ht]
    exact .ok ⟨rfl, fun _ => rfl⟩
  | brackets m =>
    have htokens : l.tokens = .fixed Token.openText :: (m ++ [.fixed Token.closeText]) := by
      rw [hl]
      simp [weave]
    have hsize : l.size - 1 = 1 + m.length := by
      rw [size_eq, htokens]
      simp
      omega
    rw [read_brackets hspares (hop m List.mem_cons_self).balanced htokens, hsize]
    refine .ok ⟨rfl, fun ts => ?_⟩
    cases ts <;> rfl
  | callEmpty ht =>
    rw [read_call hspares hn h.faithful .nil hl ht, readArguments_nil (tokens_arguments hl)]
    exact .ok ⟨rfl, fun _ => rfl⟩
  | call m ms ht =>
    rw [weave_call] at hl
    exact read_of_call hr hn h.faithful ht hop hl
  | operation hchooses =>
    obtain ⟨l₀, position, operands, hread, hshows⟩ := hchooses
    obtain ⟨_, _, _, heq, hparts⟩ := hshows.isPart
    cases heq
    obtain ⟨position', operands', hread', hshows'⟩ := readOperation?_of_wraps hr hread (hshows.derivable hr hd) hparts
      (List.forall₂_same.2 fun m _ => .refl m) hd hl
    obtain ⟨u, t, v, htokens, hu, hp, ho⟩ := hshows'.exists_operatorToken hr.toSeparate fun m hm => (hop m hm).balanced
    rw [read_of_operatorToken hn h.faithful (hder.operand hr.toSeparate) htokens hu hp ho hread']
    exact .ok ⟨hshows'.operands_eq.1, fun _ => rfl⟩

/-- The tree of tokens with a meaning is built, unless the levels or the allowed arguments are fewer than the tokens. -/
theorem build_of_means (hr : g.operators.Conditional q c o) (hn : g.NamesApart) {levels : Nat}
    (h : l.Tokenized splitters) (ht : Means g l.tokens t) :
    Within (levels < l.size ∨ g.limits.callArguments < l.size) (fun t' => t'.strip = t)
      (g.build source g.operators.groups.1 levels l) := by
  have hpos {l : TokenList} {t : Tree α} (ht : Means g l.tokens t) : 0 < l.size := by
    rw [size_eq, List.length_pos_iff]
    exact ((ht.derivable hr).operand hr.toSeparate).ne_nil
  induction levels generalizing l t with
  | zero => exact within_build_zero (Or.inl (hpos ht))
  | succ levels ih =>
    generalize hl : l.tokens = ts at ht
    cases ht with
    | @intro frames node ps hform hps =>
      have hd (m : List Token) (hm : m ∈ ps.map Prod.fst) : Derivable g m := by
        obtain ⟨p, hp, rfl⟩ := List.mem_map.1 hm
        exact (hps p hp).derivable hr
      obtain ⟨hcount, hlength⟩ := hform.length_le hr.toSeparate
      have hparts := List.forall₂_map_right_iff.1 (@isPart_between l [] _ _ hl hcount)
      rw [← hl, ← size_eq] at hlength
      refine within_build_succ ((read_of_form hr hn h hform hl hd).imp Or.inr fun reading ⟨hsections, hnode⟩ => ?_)
      rw [List.length_nil, ← hsections] at hparts
      -- the sections below the root have the meanings of the parts
      have hbelow (s : TokenList) (p : List Token × Tree α) (hp : p ∈ ps) (hs : l.IsPart s p.1) :
          s.isEmpty = false ∧ Within (levels + 1 < l.size ∨ g.limits.callArguments < l.size) (fun t' => t'.strip = p.2)
            (g.build source g.operators.groups.1 levels s) := by
        have hmeans := hps p hp
        rw [← hs.1] at hmeans
        have hlt : s.size < l.size := by
          rw [size_eq s, hs.1]
          exact Nat.lt_of_le_of_lt (List.le_sum_of_mem (List.mem_map_of_mem (List.mem_map_of_mem hp))) hlength
        exact ⟨isEmpty_of_size_pos (hpos hmeans), (ih (IsPart.tokenized hs h) hmeans).imp (by omega) fun _ ht => ht⟩
      have hall : List.Forall₂ (fun p s => p ∈ ps ∧ l.IsPart s p.1) ps (sections reading) :=
        (List.forall₂_and_left ps _).2 ⟨fun _ hp => hp, hparts.flip⟩
      refine rests_of_forall₂ (hall.flip.imp fun s p hs => hbelow s p hs.1 hs.2) fun ts hts => ?_
      rw [hnode, Tree.stripAll_eq (List.forall₂_map_left_iff.2 hts)]

/-- The tree that is built of derivable tokens is their meaning, positions apart. -/
theorem means_of_build (hr : g.operators.Conditional q c o) (hn : g.NamesApart) {levels : Nat}
    (h : l.Tokenized splitters) (hd : Derivable g l.tokens)
    (ht : g.build source g.operators.groups.1 levels l = .ok t) : Means g l.tokens t.strip := by
  obtain ⟨t', ht'⟩ := hd.exists_means hr
  rcases build_of_means hr hn h ht' with ⟨t'', ht'', rfl⟩ | ⟨e, he, -⟩
  · rw [ht] at ht''
    cases ht''
    exact ht'
  · rw [ht] at he
    cases he

/-- The tree of tokens with a meaning is the result, unless a limit is below the number of tokens. -/
theorem parse_of_means (hr : g.operators.Conditional q c o) (hn : g.NamesApart) (h : l.Tokenized splitters)
    (ht : Means g l.tokens t) :
    Within (∃ limit, g.limits.bound limit < l.size) (fun t' => t'.strip = t) (g.parse source l) := by
  refine within_parse (build_of_means hr hn h ht) fun t' ht' => ?_
  rw [← Tree.nodeCount_strip, ht', size_eq]
  exact ht.nodeCount_le hr.toSeparate

/-- The tree of derivable tokens is the result, unless a limit is below the number of tokens. -/
theorem parse_of_derivable (hr : g.operators.Conditional q c o) (hn : g.NamesApart) (h : l.Tokenized splitters)
    (hd : Derivable g l.tokens) :
    Within (∃ limit, g.limits.bound limit < l.size) (fun t => t.nodeCount ≤ l.size) (g.parse source l) := by
  obtain ⟨t, ht⟩ := hd.exists_means hr
  refine (parse_of_means hr hn h ht).imp id fun t' ht' => ?_
  rw [← Tree.nodeCount_strip, ht', size_eq]
  exact ht.nodeCount_le hr.toSeparate

end Grammar

end Mixfix
