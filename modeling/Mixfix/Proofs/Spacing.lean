import Mixfix.Proofs.Calculator
import Mixfix.Proofs.Roots
import Mixfix.Proofs.Spread

/-!
# Spacing does not matter

Two sections with the same tokens are read alike, whatever spaces stand between the tokens (`Grammar.agree_read`): scans
look at tokens alone, and a section whose text is a name or a number literal has one token. So they build to the same
tree, positions apart, or to errors that differ at most in their positions and in the parts of the text that they quote
(`Grammar.agree_parse`). More spaces between the tokens of a text leave its tokens as they are, and with them what it
builds to (`Builder.build_of_loosens`).
-/

namespace Mixfix

/-! ## Results that agree -/

namespace Cause

/-- The cause without the parts of the text that it quotes. -/
def outline : Cause → Cause
  | parsing message _ => parsing message none
  | unparsable _ _ => unparsable [] []
  | bracketMismatch _ summary => bracketMismatch [] summary
  | unexpectedClose _ => unexpectedClose []
  | unmatchedOpen _ => unmatchedOpen []
  | danglingSeparator function _ summary => danglingSeparator function [] summary
  | leadingSeparator function _ => leadingSeparator function []
  | trailingSeparator function _ => trailingSeparator function []
  | emptyArgument function _ => emptyArgument function []
  | unrecognisedFunction _ _ => unrecognisedFunction [] []
  | cause => cause

/-- Causes with the same outline are of the same kind. -/
theorem code_outline (cause : Cause) : cause.outline.code = cause.code := by
  cases cause <;> rfl

end Cause

/-- Both results are values that are related, or errors that differ at most in their positions and in what they
quote. -/
inductive Agree {β γ : Type} (R : β → γ → Prop) : Except ExprError β → Except ExprError γ → Prop
  | ok {x : β} {y : γ} : R x y → Agree R (.ok x) (.ok y)
  | error {e e' : ExprError} : e'.cause.outline = e.cause.outline → Agree R (.error e) (.error e')

namespace Agree

variable {β γ β' γ' : Type} {R : β → γ → Prop} {S : β' → γ' → Prop} {a : Except ExprError β} {a' : Except ExprError γ}

theorem bind {f : β → Except ExprError β'} {f' : γ → Except ExprError γ'} (h : Agree R a a')
    (hf : ∀ x y, a = .ok x → a' = .ok y → R x y → Agree S (f x) (f' y)) : Agree S (a.bind f) (a'.bind f') := by
  cases h with
  | ok hxy => exact hf _ _ rfl rfl hxy
  | error he => exact .error he

theorem map {f : β → β'} {f' : γ → γ'} (h : Agree R a a') (hf : ∀ x y, R x y → S (f x) (f' y)) :
    Agree S (a.map f) (a'.map f') := by
  cases h with
  | ok hxy => exact .ok (hf _ _ hxy)
  | error he => exact .error he

theorem mapM {f : β' → Except ExprError β} {f' : γ' → Except ExprError γ} {xs : List β'} {ys : List γ'}
    (h : List.Forall₂ (fun x y => Agree R (f x) (f' y)) xs ys) : Agree (List.Forall₂ R) (xs.mapM f) (ys.mapM f') := by
  induction h with
  | nil => exact .ok .nil
  | cons hxy _ ih =>
    rw [List.mapM_cons, List.mapM_cons]
    exact hxy.bind fun x y _ _ hr => ih.bind fun xs ys _ _ hrs => .ok (.cons hr hrs)

/-- The same check of the same count. -/
theorem check (limits : Limits) (which : Limit) (n : Int) (p p' : Option Int) (source source' : Option Text) :
    Agree (fun _ _ => True) (limits.check which n p source) (limits.check which n p' source') := by
  rw [Limits.check, Limits.check]
  split
  · exact .error rfl
  · exact .ok trivial

end Agree

/-! ## Lists with the same tokens -/

namespace TokenList

/-- The lists have the same tokens. -/
def Alike (l l' : TokenList) : Prop := l'.tokens = l.tokens

variable {l l' : TokenList} {splitters names : List Text} {a b i : Nat}

namespace Alike

theorem size_eq (h : l.Alike l') : l'.size = l.size := by rw [TokenList.size_eq, TokenList.size_eq, h]

theorem isEmpty_eq (h : l.Alike l') : l'.isEmpty = l.isEmpty := by
  have hlength := h.size_eq
  rw [size, size] at hlength
  rw [Bool.eq_iff_iff, isEmpty, isEmpty, List.isEmpty_iff_length_eq_zero, List.isEmpty_iff_length_eq_zero, hlength]

theorem first?_eq (h : l.Alike l') : l'.first? = l.first? := by rw [first?, first?, h]

theorem last?_eq (h : l.Alike l') : l'.last? = l.last? := by rw [last?, last?, h]

theorem firstIs_eq (h : l.Alike l') (p : Token → Bool) : l'.firstIs p = l.firstIs p := by
  rw [firstIs, firstIs, h.first?_eq]

theorem lastIs_eq (h : l.Alike l') (p : Token → Bool) : l'.lastIs p = l.lastIs p := by
  rw [lastIs, lastIs, h.last?_eq]

theorem isInBrackets_eq (h : l.Alike l') : l'.isInBrackets = l.isInBrackets := by
  rw [isInBrackets, isInBrackets, h]

theorem slice (h : l.Alike l') (a b : Nat) : (l.slice a b).Alike (l'.slice a b) := by
  rw [Alike, tokens_slice, tokens_slice, h]

theorem withoutFirst (h : l.Alike l') : l.withoutFirst.Alike l'.withoutFirst := by
  rw [TokenList.withoutFirst, TokenList.withoutFirst, h.isEmpty_eq, h.size_eq]
  split
  · rfl
  · exact h.slice 1 _

theorem withoutLast (h : l.Alike l') : l.withoutLast.Alike l'.withoutLast := by
  rw [TokenList.withoutLast, TokenList.withoutLast, h.isEmpty_eq, h.size_eq]
  split
  · rfl
  · exact h.slice 0 _

theorem withoutFirstAndLast (h : l.Alike l') : l.withoutFirstAndLast.Alike l'.withoutFirstAndLast := by
  rw [TokenList.withoutFirstAndLast, TokenList.withoutFirstAndLast, h.size_eq]
  split
  · rfl
  · exact h.slice 1 _

theorem cutFrom (h : l.Alike l') (points : List Nat) (start : Nat) :
    List.Forall₂ Alike (l.cutFrom start points) (l'.cutFrom start points) := by
  induction points generalizing start with
  | nil =>
    rw [TokenList.cutFrom, TokenList.cutFrom, h.size_eq]
    exact .cons (h.slice _ _) .nil
  | cons p points ih => exact .cons (h.slice start p) (ih (p + 1))

theorem cutAt (h : l.Alike l') (points : List Nat) : List.Forall₂ Alike (l.cutAt points) (l'.cutAt points) :=
  h.cutFrom points 0

theorem splitBy (h : l.Alike l') (p : Token → Bool) : List.Forall₂ Alike (l.splitBy p) (l'.splitBy p) := by
  rw [splitBy_eq, splitBy_eq, h]
  exact h.cutAt _

end Alike

/-- Lists of texts that are split by the same texts, with the same tokens. -/
structure Respaced (splitters : List Text) (l l' : TokenList) : Prop where
  alike : l.Alike l'
  left : l.Tokenized splitters
  right : l'.Tokenized splitters

namespace Respaced

variable {α : Type} {r : Registry α}

theorem symm (h : Respaced splitters l l') : Respaced splitters l' l := ⟨h.alike.symm, h.right, h.left⟩

theorem slice (h : Respaced splitters l l') (hab : a ≤ b) : Respaced splitters (l.slice a b) (l'.slice a b) :=
  ⟨h.alike.slice a b, h.left.slice hab, h.right.slice hab⟩

/-- A list whose text is a name has one token, so that no spacing changes the name. -/
theorem trimmedText_eq (h : Respaced splitters l l') (hsplit : ∀ t ∈ splitters, t ∈ r.tokens)
    (hnames : ∀ name ∈ names, r.Spares name) (hm : l.trimmedText ∈ names) : l'.trimmedText = l.trimmedText := by
  obtain ⟨t, ht, hname⟩ := h.left.eq_raw hsplit (hnames _ hm) rfl
  rw [h.right.faithful.trimmedText_eq (h.alike.trans ht), ← hname]
  rfl

theorem contains_eq (h : Respaced splitters l l') (hsplit : ∀ t ∈ splitters, t ∈ r.tokens)
    (hnames : ∀ name ∈ names, r.Spares name) : names.contains l'.trimmedText = names.contains l.trimmedText := by
  rw [Bool.eq_iff_iff, List.contains_iff_mem, List.contains_iff_mem]
  constructor
  · intro hm
    rwa [h.symm.trimmedText_eq hsplit hnames hm]
  · intro hm
    rwa [h.trimmedText_eq hsplit hnames hm]

end Respaced

end TokenList

namespace Grammar

open TokenList

variable {α : Type} {g : Grammar α} {source source' : Text} {gs : List (Group α)} {l l' args args' : TokenList}
  {splitters : List Text} {q c : Text} {o : Operator α}

/-! ## Reading -/

/-- The same roots, over sections with the same tokens. -/
inductive ReadAlike : Reading α → Reading α → Prop
  | brackets {inner inner' : TokenList} : inner.Alike inner' → ReadAlike (.brackets inner) (.brackets inner')
  | reference (name : Text) : ReadAlike (.reference name) (.reference name)
  | call (name : Text) {args args' : List TokenList} : List.Forall₂ Alike args args' →
      ReadAlike (.call name args) (.call name args')
  | operation (p p' : Int) (operator : Operator α) {operands operands' : List TokenList} :
      List.Forall₂ Alike operands operands' →
        ReadAlike (.operation p operator operands) (.operation p' operator operands')
  | number (value : Float) : ReadAlike (.number value) (.number value)

theorem ReadAlike.sections {reading reading' : Reading α} (h : ReadAlike reading reading') :
    List.Forall₂ Alike (sections reading) (sections reading') := by
  cases h with
  | brackets hinner => exact .cons hinner .nil
  | reference | number => exact .nil
  | call _ hargs => exact hargs
  | operation _ _ _ hoperands => exact hoperands

theorem agree_checkEnds (h : l.Alike l') : Agree (fun _ _ => True) (g.checkEnds source l) (g.checkEnds source' l') := by
  rw [checkEnds, checkEnds, h.first?_eq, h.last?_eq]
  cases l.first? with
  | none =>
    cases l.last? with
    | none => exact .ok trivial
    | some last =>
      simp only
      split
      · exact .error rfl
      · exact .ok trivial
  | some first =>
    simp only
    split
    · exact .error rfl
    · cases l.last? with
      | none => exact .ok trivial
      | some last =>
        simp only
        split
        · exact .error rfl
        · exact .ok trivial

theorem agree_readArguments (name : Text) (h : args.Alike args') :
    Agree (List.Forall₂ Alike) (g.readArguments source l name args) (g.readArguments source' l' name args') := by
  have hparts := h.splitBy Token.isSeparator
  rw [readArguments, readArguments, h.isEmpty_eq, h.firstIs_eq, h.lastIs_eq]
  split
  · exact .ok .nil
  · split
    · exact .error rfl
    · split
      · exact .error rfl
      · simp only [hparts.length_eq]
        exact (Agree.check g.limits _ _ _ _ _ _).bind fun _ _ _ _ _ => .ok hparts

theorem agree_readCall? (hn : g.NamesApart) (hsplit : ∀ t ∈ splitters, t ∈ g.operators.tokens)
    (h : Respaced splitters l l') :
    Agree (Option.Rel ReadAlike) (g.readCall? source l) (g.readCall? source' l') := by
  have htokens : l'.tokens = l.tokens := h.alike
  rw [readCall?, readCall?, h.alike.size_eq, h.alike.lastIs_eq, htokens]
  split
  · exact .ok .none
  · split
    · exact .ok .none
    · next i _ =>
      have hname := h.slice (Nat.zero_le i)
      have hcontains := hname.contains_eq hsplit hn.functions
      simp only [(h.alike.slice i l.size).isInBrackets_eq, hcontains]
      split
      · exact .ok .none
      · split
        · next hf =>
          rw [hname.trimmedText_eq hsplit hn.functions (List.contains_iff_mem.1 hf)]
          exact (agree_readArguments _ (h.alike.slice _ _)).bind fun _ _ _ _ hargs => .ok (.some (.call _ hargs))
        · split
          · exact .ok .none
          · exact .error rfl

section Operations

variable {marks : List Mark}

theorem rel_infixOperation? (h : l.Alike l') (t : Trie Text (Operator α)) (points : List Nat) :
    Option.Rel ReadAlike (infixOperation? l t points) (infixOperation? l' t points) := by
  have htokens : l'.tokens = l.tokens := h
  rw [infixOperation?, infixOperation?, htokens]
  cases t.get? (points.filterMap fun i => (l.tokens[i]?).bind Token.fixed?) with
  | none => exact .none
  | some operator => exact .some (.operation _ _ _ (h.cutAt points))

theorem rel_readRight? (h : l.Alike l') (group : Group α) (tighter : List (Group α)) :
    Option.Rel ReadAlike (g.readRight? l marks group tighter) (g.readRight? l' marks group tighter) := by
  have htokens : l'.tokens = l.tokens := h
  rw [readRight?, readRight?, htokens]
  cases scanRight group marks fun _ => false with
  | none => exact .none
  | some points =>
    simp only [bind, Option.bind_some]
    split
    · exact .none
    · exact rel_infixOperation? h _ _

theorem rel_readLeft? (h : l.Alike l') (group : Group α) (tighter : List (Group α)) :
    Option.Rel ReadAlike (g.readLeft? l marks group tighter) (g.readLeft? l' marks group tighter) := by
  have htokens : l'.tokens = l.tokens := h
  rw [readLeft?, readLeft?, htokens]
  cases scanLeft group marks fun _ => false with
  | none => exact .none
  | some points =>
    simp only [bind, Option.bind_some]
    split
    · exact .none
    · exact rel_infixOperation? h _ _

theorem rel_readPrefix? (h : l.Alike l') (group : Group α) :
    Option.Rel ReadAlike (readPrefix? l group) (readPrefix? l' group) := by
  rw [readPrefix?, readPrefix?, h.first?_eq, h.size_eq]
  cases (l.first?.bind Token.fixed?).bind group.prefixOps.get? with
  | none => exact .none
  | some operator =>
    simp only [bind, Option.bind_some]
    split
    · exact .none
    · exact .some (.operation _ _ _ (.cons h.withoutFirst .nil))

theorem rel_readPostfix? (h : l.Alike l') (group : Group α) :
    Option.Rel ReadAlike (readPostfix? l group) (readPostfix? l' group) := by
  rw [readPostfix?, readPostfix?, h.last?_eq, h.size_eq]
  cases (l.last?.bind Token.fixed?).bind group.postfixOps.get? with
  | none => exact .none
  | some operator =>
    simp only [bind, Option.bind_some]
    split
    · exact .none
    · exact .some (.operation _ _ _ (.cons h.withoutLast .nil))

theorem rel_orElse {β : Type} {R : β → β → Prop} {x x' y y' : Option β} (hx : Option.Rel R x x')
    (hy : Option.Rel R y y') : Option.Rel R (x.orElse fun _ => y) (x'.orElse fun _ => y') := by
  cases hx with
  | none => exact hy
  | some h => exact .some h

/-- An operation is found by tokens alone. -/
theorem rel_readOperation? (h : l.Alike l') (gs : List (Group α)) :
    Option.Rel ReadAlike (g.readOperation? l marks gs) (g.readOperation? l' marks gs) := by
  induction gs with
  | nil => exact .none
  | cons group gs ih =>
    exact rel_orElse (rel_readRight? h group gs) (rel_orElse (rel_readLeft? h group gs)
      (rel_orElse (rel_readPrefix? h group) (rel_orElse (rel_readPostfix? h group) ih)))

end Operations

/-- Where no operation is read, the text of a section reads as the same number with any spacing. -/
theorem readNumber?_respaced (hr : g.operators.Calculus q c o) (hsplit : ∀ t ∈ splitters, t ∈ g.operators.tokens)
    (h : Respaced splitters l l') (hb : Balanced l.tokens) (hends : g.checkEnds source l = .ok ())
    (hnone : g.readOperation? l (Mark.ofTokens g.operators l.tokens) g.operators.groups.1 = none) {v : Float}
    (hv : readNumber? l.text = some v) : readNumber? l'.text = some v := by
  obtain ⟨t, w, ht⟩ := eq_number hr h.left hsplit hends hb hnone hv
  rw [h.right.faithful.readNumber?_eq (h.alike.trans ht), ← hv, h.left.faithful.readNumber?_eq ht]

theorem agree_readBare (hr : g.operators.Calculus q c o) (hn : g.NamesApart)
    (hsplit : ∀ t ∈ splitters, t ∈ g.operators.tokens) (h : Respaced splitters l l') (hb : Balanced l.tokens)
    (hends : g.checkEnds source l = .ok ()) (hends' : g.checkEnds source' l' = .ok ()) :
    Agree ReadAlike (g.readBare source g.operators.groups.1 l) (g.readBare source' g.operators.groups.1 l') := by
  have htokens : l'.tokens = l.tokens := h.alike
  rw [readBare_eq, readBare_eq, h.contains_eq hsplit hn.vars, htokens]
  split
  · next hv =>
    rw [h.trimmedText_eq hsplit hn.vars (List.contains_iff_mem.1 hv)]
    exact .ok (.reference _)
  · refine (agree_readCall? hn hsplit h).bind fun call? call?' _ _ hcall => ?_
    have hop := @rel_readOperation? _ g _ _ (Mark.ofTokens g.operators l.tokens) h.alike g.operators.groups.1
    cases hcall with
    | some hcall => exact .ok hcall
    | none =>
      generalize hleft : g.readOperation? l (Mark.ofTokens g.operators l.tokens) g.operators.groups.1 = left at hop
      generalize hright : g.readOperation? l' (Mark.ofTokens g.operators l.tokens) g.operators.groups.1 = right at hop
      cases hop with
      | some hop => exact .ok hop
      | none =>
        have hnumber : readNumber? l'.text = readNumber? l.text := by
          cases hv : readNumber? l.text with
          | some v => exact readNumber?_respaced hr hsplit h hb hends hleft hv
          | none =>
            rw [← Option.not_isSome_iff_eq_none, Option.isSome_iff_exists]
            rintro ⟨v, hv'⟩
            rw [← htokens] at hb hright
            rw [readNumber?_respaced hr hsplit h.symm hb hends' hright hv'] at hv
            cases hv
        rw [hnumber]
        cases readNumber? l.text with
        | some v => exact .ok (.number v)
        | none => exact .error rfl

/-- Sections with the same tokens are read alike. -/
theorem agree_read (hr : g.operators.Calculus q c o) (hn : g.NamesApart)
    (hsplit : ∀ t ∈ splitters, t ∈ g.operators.tokens) (h : Respaced splitters l l') (hb : Balanced l.tokens) :
    Agree ReadAlike (g.read source g.operators.groups.1 l) (g.read source' g.operators.groups.1 l') := by
  refine (agree_checkEnds h.alike).bind fun _ _ hends hends' _ => ?_
  rw [h.alike.isInBrackets_eq]
  split
  · exact .ok (.brackets h.alike.withoutFirstAndLast)
  · exact agree_readBare hr hn hsplit h hb hends hends'

/-- The sections below the root of a balanced section are balanced lists of texts that are split by the same texts. -/
theorem sections_of_read (hr : g.operators.WellFormed) (havoids : g.operators.AvoidsBuiltins)
    (h : l.Tokenized splitters) (hb : Balanced l.tokens) {reading : Reading α}
    (hread : g.read source g.operators.groups.1 l = .ok reading) :
    ∀ s ∈ sections reading, s.Tokenized splitters ∧ Balanced s.tokens := by
  have htokenized := forall_sections_of_reads (fun _ _ _ h hab => h.slice hab) h (reads_of_read hr hread)
  have hbalanced := balanced_of_read hr havoids hb hread
  exact fun s hs => ⟨htokenized s hs, hbalanced s hs⟩

/-! ## Building -/

section Trees

variable {build build' : TokenList → Except ExprError (Tree α)}

theorem agree_buildArguments {name part part' : Text} {ss ss' : List TokenList}
    (h : List.Forall₂ (fun s s' => s.Alike s' ∧ Agree (fun t t' => t'.strip = t.strip) (build s) (build' s')) ss ss') :
    Agree (List.Forall₂ fun t t' => t'.strip = t.strip) (buildArguments source build name part ss)
      (buildArguments source' build' name part' ss') := by
  rw [buildArguments_eq, buildArguments_eq]
  refine Agree.mapM (h.imp fun s s' hs => ?_)
  rw [hs.1.isEmpty_eq]
  split
  · exact .error rfl
  · exact hs.2

/-- Roots that are alike give the same tree if the sections below them do. -/
theorem agree_treeOf {reading reading' : Reading α} (h : ReadAlike reading reading')
    (hsections : List.Forall₂ (fun s s' => s.Alike s' ∧ Agree (fun t t' => t'.strip = t.strip) (build s) (build' s'))
      (sections reading) (sections reading')) :
    Agree (fun t t' => t'.strip = t.strip) (@treeOf α source build l reading)
      (@treeOf α source' build' l' reading') := by
  cases h with
  | brackets => exact (List.forall₂_cons.1 hsections).1.2
  | reference | number => exact .ok rfl
  | call name =>
    refine (agree_buildArguments hsections).map fun ts ts' hts => ?_
    rw [Tree.strip, Tree.strip, Tree.stripAll_of_forall₂ hts]
  | operation _ _ operator =>
    refine (Agree.mapM (hsections.imp fun _ _ hs => hs.2)).map fun ts ts' hts => ?_
    rw [Tree.strip, Tree.strip, Tree.stripAll_of_forall₂ hts]

end Trees

theorem agree_build (hr : g.operators.Calculus q c o) (hn : g.NamesApart)
    (hsplit : ∀ t ∈ splitters, t ∈ g.operators.tokens) {levels : Nat} (h : Respaced splitters l l')
    (hb : Balanced l.tokens) : Agree (fun t t' => t'.strip = t.strip)
      (g.build source g.operators.groups.1 levels l) (g.build source' g.operators.groups.1 levels l') := by
  induction levels generalizing l l' with
  | zero => exact .error rfl
  | succ levels ih =>
    rw [build_succ, build_succ]
    refine (agree_read hr hn hsplit h hb).bind fun reading reading' hread hread' halike => agree_treeOf halike ?_
    have hb' : Balanced l'.tokens := by rw [h.alike]; exact hb
    have hleft := sections_of_read hr.toWellFormed hr.avoids h.left hb hread
    have hright := sections_of_read hr.toWellFormed hr.avoids h.right hb' hread'
    have hsections := halike.sections
    generalize sections reading = ss at hleft hsections
    generalize sections reading' = ss' at hright hsections
    clear hread hread' halike
    induction hsections with
    | nil => exact .nil
    | cons hs _ ihs =>
      obtain ⟨hsleft, hleft⟩ := List.forall_mem_cons.1 hleft
      obtain ⟨hsright, hright⟩ := List.forall_mem_cons.1 hright
      exact .cons ⟨hs, ih ⟨hs, hsleft.1, hsright.1⟩ hsleft.2⟩ (ihs hleft hright)

/-- Lists with the same tokens are parsed to the same tree, or both fail for the same reason. -/
theorem agree_parse (hr : g.operators.Calculus q c o) (hn : g.NamesApart)
    (hsplit : ∀ t ∈ splitters, t ∈ g.operators.tokens) (h : Respaced splitters l l') (hb : Balanced l.tokens) :
    Agree (fun t t' => t'.strip = t.strip) (g.parse source l) (g.parse source' l') := by
  refine (agree_build hr hn hsplit h hb).bind fun t t' _ _ ht => ?_
  rw [Tree.nodeCount_of_strip ht]
  exact (Agree.check g.limits _ _ _ _ _ _).bind fun _ _ _ _ _ => .ok ht

end Grammar

/-! ## Texts with other spaces -/

namespace TokenList

theorem agree_checkBrackets {l l' : TokenList} {source source' : Text} (h : l.Alike l') :
    Agree (fun _ _ => True) (l.checkBrackets source) (l'.checkBrackets source') := by
  have htokens : l'.tokens = l.tokens := h
  rw [checkBrackets, checkBrackets, bracketFault?, bracketFault?, htokens]
  split <;> constructor <;> trivial

end TokenList

namespace Row

/-- The row with more spaces at each place. -/
def widen (n : Nat) (r : Row) : Row := ⟨r.items.map fun s => ⟨s.spaces + n, s.token⟩, r.trailing + n⟩

theorem loosens_widen (n : Nat) (r : Row) : r.Loosens (r.widen n) where
  items := by
    rw [widen, List.forall₂_map_right_iff, List.forall₂_same]
    exact fun s _ => ⟨rfl, Nat.le_add_right _ _⟩
  trailing := Nat.le_add_right _ _

end Row

namespace Standard

theorem tokens_unspaced : ∀ o ∈ all, ∀ t ∈ o.tokens, ' ' ∉ t := by decide

theorem builtin_unspaced : ∀ t ∈ Token.builtinTexts, ' ' ∉ t := by decide

end Standard

namespace Builder

variable {κ : Type} {b : Builder κ} {text : Text} {r : Row}

theorem IsCalculator.unspaced (h : b.IsCalculator) : ∀ t ∈ b.operators.tokens.reverse, ' ' ∉ t := by
  obtain ⟨os, hos, hsub, -⟩ := h.exists_registry
  intro t ht
  rw [Registry.tokens_eq_of_dropGroups hos, List.mem_reverse] at ht
  rcases Standard.exists_of_mem_tokens hsub ht with ⟨o, ho, ht⟩ | ht
  · exact Standard.tokens_unspaced o ho t ht
  · exact Standard.builtin_unspaced t ht

theorem tokenize_of_le (h : text.length ≤ b.limits.expressionLength) : b.tokenize text = .ok (b.tokenList text) :=
  TokenList.tokenize_of_le h

/-- Texts with the same tokens are parsed to the same tree, or both fail for the same reason. -/
theorem IsCalculator.agree_parse (h : b.IsCalculator) {text' : Text}
    (halike : (b.tokenList text).Alike (b.tokenList text'))
    (hlength : text.length ≤ b.limits.expressionLength) (hlength' : text'.length ≤ b.limits.expressionLength) :
    Agree (fun t t' => t'.strip = t.strip) (b.parse text) (b.parse text') := by
  rw [parse_eq, parse_eq, Limits.checkLength_of_le hlength, Limits.checkLength_of_le hlength']
  refine (TokenList.agree_checkBrackets halike).bind fun _ _ hbrackets _ _ => ?_
  exact Grammar.agree_parse h.calculus h.namesApart (fun t ht => List.mem_reverse.1 ht)
    ⟨halike, b.tokenized_tokenList text, b.tokenized_tokenList text'⟩
      ((TokenList.checkBrackets_eq_ok_iff _ _).1 hbrackets)

/-- A text with more spaces between its tokens has the same tokens, and builds to the same tree, positions apart, or
fails for the same reason. -/
theorem build_of_loosens (h : b.IsCalculator) (hblank : text.isAllBlank = false)
    (hr : (b.tokenList text).toRow.Loosens r) (hlength : r.render.length ≤ b.limits.expressionLength) :
    (∃ l l', b.tokenize text = .ok l ∧ b.tokenize r.render = .ok l' ∧ l'.tokens = l.tokens) ∧
      ((∃ e e', b.build text = .ok e ∧ b.build r.render = .ok e' ∧ e'.tree.strip = e.tree.strip) ∨
        ∃ e e', b.build text = .error (.error e) ∧ b.build r.render = .error (.error e') ∧
          e'.cause.outline = e.cause.outline) := by
  have hrow : (b.tokenList r.render).toRow = r := TokenList.toRow_ofText_loosens h.neat h.unspaced hr
  have halike : (b.tokenList text).Alike (b.tokenList r.render) := by
    rw [TokenList.Alike, hrow]
    exact hr.tokens_eq
  have hspread : Text.Spread text r.render := by
    have hrender : (b.tokenList text).toRow.render = text := (b.tokenized_tokenList text).faithful.symm
    have hspread := hr.spread
    rwa [hrender] at hspread
  have hlength' : text.length ≤ b.limits.expressionLength :=
    Int.le_trans (Int.ofNat_le.2 hspread.length_le) hlength
  refine ⟨⟨_, _, tokenize_of_le hlength', tokenize_of_le hlength, halike⟩, ?_⟩
  rw [build, build, hspread.isAllBlank_eq, hblank]
  have hparse := h.agree_parse halike hlength' hlength
  generalize b.parse text = left at hparse
  generalize b.parse r.render = right at hparse
  cases hparse with
  | ok htree => exact Or.inl ⟨_, _, rfl, rfl, htree⟩
  | error he => exact Or.inr ⟨_, _, rfl, rfl, he⟩

theorem build_of_loosens_sample : (standard (κ := Unit) {}).IsCalculator ∧ sampleText.isAllBlank = false ∧
    ((((standard (κ := Unit) {}).tokenList sampleText).toRow.widen 2).render.length ≤
      (standard (κ := Unit) {}).limits.expressionLength) ∧
    (∃ l l', (standard (κ := Unit) {}).tokenize sampleText = .ok l ∧
      (standard (κ := Unit) {}).tokenize (((standard (κ := Unit) {}).tokenList sampleText).toRow.widen 2).render =
        .ok l' ∧ l'.tokens = l.tokens) ∧
    ((∃ e e', (standard (κ := Unit) {}).build sampleText = .ok e ∧
      (standard (κ := Unit) {}).build (((standard (κ := Unit) {}).tokenList sampleText).toRow.widen 2).render = .ok e' ∧
        e'.tree.strip = e.tree.strip) ∨
      ∃ e e', (standard (κ := Unit) {}).build sampleText = .error (.error e) ∧
        (standard (κ := Unit) {}).build (((standard (κ := Unit) {}).tokenList sampleText).toRow.widen 2).render =
          .error (.error e') ∧ e'.cause.outline = e.cause.outline) :=
  have hlength : (((standard (κ := Unit) {}).tokenList sampleText).toRow.widen 2).render.length ≤
      (standard (κ := Unit) {}).limits.expressionLength := by decide +kernel
  ⟨isCalculator_standard, by decide, hlength,
    build_of_loosens isCalculator_standard (by decide) (Row.loosens_widen 2 _) hlength⟩

end Builder

end Mixfix
