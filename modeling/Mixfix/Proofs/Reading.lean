import Mathlib.Data.List.Forall2
import Mixfix.Parse
import Mixfix.Proofs.Brackets
import Mixfix.Proofs.Groups
import Mixfix.Proofs.Names
import Mixfix.Proofs.Scans
import Mixfix.Proofs.Seek
import Mixfix.Proofs.Sites
import Mixfix.Proofs.Size

/-!
# Reading sections

What a section is read as, by the form of its tokens:

* an open bracket, balanced tokens and the close bracket are brackets (`Grammar.read_brackets`);
* a single token is a variable or a number literal (`Grammar.read_raw`, `Grammar.read_number`);
* text before brackets is a call (`Grammar.read_call`);
* with an operator token outside of brackets, the section is an operation or fails
  (`Grammar.read_of_operatorToken`).

The tree of a section is made of the trees of the sections below it (`Grammar.build_succ`).
-/

namespace Mixfix

/-! ## Scans of sections -/

section Scans

variable {α : Type} {r : Registry α} {group : Group α} {ts a b c : List Token}

namespace Grammar

/-- The sites that spell the operator that a scan of sites finds, in the order of the scan. -/
def sitesFound (t : Trie Text (Operator α)) (ss : List Site) : Option (List Site) :=
  (Scan.seek t t 0 ss).map Found.sites

theorem sitesFound_nil (t : Trie Text (Operator α)) : sitesFound t [] = none := by
  rw [sitesFound, Scan.seek_nil]
  rfl

theorem sitesFound_of_isEmpty {t : Trie Text (Operator α)} (hd : t.Distinct) (he : t.isEmpty = true) (ss : List Site) :
    sitesFound t ss = none := by
  have hnone (k : Text) : t.follow? k = none :=
    (Trie.follow?_eq_none_iff hd).2 fun path => (Trie.isEmpty_iff hd).1 he (k :: path)
  rw [sitesFound, Scan.seek_barren hnone hnone]
  rfl

/-- A scan for right-associative operators goes through the sites in order. -/
theorem scanRight_eq (hg : group.Sound) (skip : Nat → Bool) : scanRight group (Mark.ofTokens r ts) skip =
    (sitesFound group.right (Site.forward (Mark.ofTokens r ts) 0 skip)).map (List.map Site.index) := by
  rw [scanRight]
  split
  · next he => rw [sitesFound_of_isEmpty hg.right_distinct he]; rfl
  · rw [Scan.forward_eq, sitesFound, Option.map_map]
    rfl

theorem isEmpty_leftReversed (hg : group.Sound) (he : group.left.isEmpty = true) :
    group.leftReversed.isEmpty = true := by
  rw [Trie.isEmpty_iff hg.reversed_distinct]
  intro path
  rw [hg.reversed]
  exact (Trie.isEmpty_iff hg.left_distinct).1 he _

/-- A scan for left-associative operators goes through the sites in reverse. -/
theorem scanLeft_eq (hg : group.Sound) (skip : Nat → Bool) : scanLeft group (Mark.ofTokens r ts) skip =
    (sitesFound group.leftReversed (Site.backward (Mark.ofTokens r ts) ((Mark.ofTokens r ts).length - 1) skip)).map
      fun ss => (ss.map Site.index).reverse := by
  rw [scanLeft]
  split
  · next he => rw [sitesFound_of_isEmpty hg.reversed_distinct (isEmpty_leftReversed hg he)]; rfl
  · rw [Scan.backward_last, sitesFound, Option.map_map]
    rfl

theorem scanRight_ofTokens (hg : group.Sound) : scanRight group (Mark.ofTokens r ts) (fun _ => false) =
    (sitesFound group.right (Site.ofTokens r ts)).map (List.map Site.index) := by
  rw [scanRight_eq hg, Site.forward_ofTokens]

theorem scanLeft_ofTokens (hg : group.Sound) (hb : Balanced ts) :
    scanLeft group (Mark.ofTokens r ts) (fun _ => false) =
      (sitesFound group.leftReversed (Site.ofTokens r ts).reverse).map fun ss => (ss.map Site.index).reverse := by
  rw [scanLeft_eq hg, Site.backward_ofTokens hb]

theorem scanRight_outside (hg : group.Sound) (hb : bracketDepth b = 0) :
    scanRight group (Mark.ofTokens r (a ++ b ++ c)) (Site.inPart a.length (a.length + b.length)) =
      (sitesFound group.right
        (Site.outside a.length (a.length + b.length) (Site.ofTokens r (a ++ b ++ c)))).map (List.map Site.index) := by
  rw [scanRight_eq hg, Site.forward_outside hb]

theorem scanLeft_outside (hg : group.Sound) (h : Balanced (a ++ b ++ c)) (hb : bracketDepth b = 0) :
    scanLeft group (Mark.ofTokens r (a ++ b ++ c)) (Site.inPart a.length (a.length + b.length)) =
      (sitesFound group.leftReversed
        (Site.outside a.length (a.length + b.length) (Site.ofTokens r (a ++ b ++ c))).reverse).map
          fun ss => (ss.map Site.index).reverse := by
  rw [scanLeft_eq hg, Site.backward_outside h hb]

end Grammar

end Scans

/-- The tokens of operators are no brackets if no operator uses one. -/
theorem Registry.AvoidsBuiltins.weight_eq {α : Type} {r : Registry α} (h : r.AvoidsBuiltins) {o : Operator α}
    (ho : o ∈ r.operators) {t : Text} (ht : t ∈ o.tokens) : (Token.fixed t).weight = 0 :=
  Token.weight_of_plain (Token.isPlain_of_not_builtin (Token.isBuiltin_fixed (h o ho t ht)))

theorem Registry.WellFormed.sparesBrackets {α : Type} {r : Registry α} (h : r.WellFormed) : r.SparesBrackets :=
  ⟨h.isOperatorToken_builtin (by decide), h.isOperatorToken_builtin (by decide)⟩

namespace Grammar

variable {α : Type} {g : Grammar α} {source : Text} {gs : List (Group α)} {l : TokenList}

/-! ## Ends -/

/-- The ends of a section are accepted exactly if no operator token stands there but a prefix token at the start and a
postfix token at the end. -/
theorem checkEnds_eq_ok_iff : g.checkEnds source l = .ok () ↔
    (∀ t, l.tokens.head? = some t → g.operators.isOperatorToken t = true → g.operators.isPrefixToken t = true) ∧
      ∀ t, l.tokens.getLast? = some t → g.operators.isOperatorToken t = true → g.operators.isPostfixToken t = true := by
  rw [checkEnds, TokenList.first?, TokenList.last?]
  cases hf : l.tokens.head? with
  | none =>
    rw [List.head?_eq_none_iff] at hf
    simp [hf]
    rfl
  | some t =>
    cases hl : l.tokens.getLast? with
    | none =>
      rw [List.getLast?_eq_none_iff] at hl
      simp [hl] at hf
    | some s =>
      have hends (b b' : Bool) (e e' : ExprError) : (do
          if b = true then throw e
          if b' = true then throw e' : Except ExprError Unit) = .ok () ↔ b = false ∧ b' = false := by
        cases b <;> cases b' <;> simp [throw, throwThe, MonadExceptOf.throw, bind, Except.bind, pure, Except.pure]
      simp only [hends]
      simp

/-- An error of the ends is about the first token or about the last one. -/
theorem error_of_checkEnds {e : ExprError} (h : g.checkEnds source l = .error e) :
    (∃ t, l.first? = some t ∧ e = errorAt source (l.positionAt 0) (.leadingOperator t.text)) ∨
      ∃ t, l.last? = some t ∧ e = errorAt source (l.positionAt (l.size - 1)) (.trailingOperator t.text) := by
  rw [checkEnds] at h
  split at h
  · next hfirst =>
    split at h
    · cases h
      exact .inl ⟨_, hfirst, rfl⟩
    · split at h
      · next hlast =>
        split at h
        · cases h
          exact .inr ⟨_, hlast, rfl⟩
        · cases h
      · cases h
  · split at h
    · next hlast =>
      split at h
      · cases h
        exact .inr ⟨_, hlast, rfl⟩
      · cases h
    · cases h

theorem checkEnds_of_operand (h : g.operators.Operand l.tokens) : g.checkEnds source l = .ok () := by
  have hfirst {p : Token → Bool} {ts : List Token} (hm : g.operators.MeetsOperand p ts) (t : Token)
      (ht : ts.head? = some t) (ho : g.operators.isOperatorToken t = true) : p t = true := by
    match ts with
    | [] => cases ht
    | s :: ts =>
      cases ht
      exact ((Registry.meetsOperand_cons ho).1 hm).1
  refine checkEnds_eq_ok_iff.2 ⟨hfirst h.starts, fun t ht => hfirst h.ends t ?_⟩
  rw [List.head?_reverse]
  exact ht

/-! ## Sections in brackets -/

theorem read_of_checkEnds (h : g.checkEnds source l = .ok ()) : g.read source gs l =
    if l.isInBrackets then .ok (.brackets l.withoutFirstAndLast) else g.readBare source gs l := by
  rw [read, h]
  split <;> rfl

/-- Balanced tokens in brackets are read as such. -/
theorem read_brackets (hr : g.operators.SparesBrackets) {m : List Token} (hm : Balanced m)
    (h : l.tokens = .fixed Token.openText :: (m ++ [.fixed Token.closeText])) :
    g.read source gs l = .ok (.brackets (l.slice 1 (l.size - 1))) := by
  have hop : g.operators.Operand l.tokens := by rw [h]; exact .brackets hr hm
  have hin : l.isInBrackets = true := by
    rw [TokenList.isInBrackets, TokenList.areInBrackets_iff hop.balanced]
    exact ⟨m, h, hm⟩
  have hsize : ¬ l.size ≤ 1 := by
    rw [TokenList.size_eq, h]
    simp
  rw [read_of_checkEnds (checkEnds_of_operand hop), if_pos hin, TokenList.withoutFirstAndLast, if_neg hsize]

/-- A balanced section in brackets is balanced tokens in brackets, which are the section below it. -/
theorem exists_of_isInBrackets (hb : Balanced l.tokens) (h : l.isInBrackets = true) :
    ∃ m, l.tokens = .fixed Token.openText :: (m ++ [.fixed Token.closeText]) ∧ Balanced m ∧
      l.withoutFirstAndLast = l.slice 1 (l.size - 1) := by
  rw [TokenList.isInBrackets, TokenList.areInBrackets_iff hb] at h
  obtain ⟨m, hl, hm⟩ := h
  refine ⟨m, hl, hm, ?_⟩
  rw [TokenList.withoutFirstAndLast, if_neg]
  rw [TokenList.size_eq, hl]
  simp

/-- The tokens within the brackets of a section. -/
theorem tokens_inner {m : List Token} (h : l.tokens = .fixed Token.openText :: (m ++ [.fixed Token.closeText])) :
    (l.slice 1 (l.size - 1)).tokens = m := by
  have hsize : l.size - 1 = 1 + m.length := by
    rw [TokenList.size_eq, h]
    simp
    omega
  rw [hsize]
  exact TokenList.tokens_slice_mid (u := [.fixed Token.openText]) (v := [.fixed Token.closeText]) (by rw [h]; simp)

theorem read_bare (h : g.operators.Operand l.tokens) (hb : TokenList.areInBrackets l.tokens = false) :
    g.read source gs l = g.readBare source gs l := by
  rw [read_of_checkEnds (checkEnds_of_operand h), TokenList.isInBrackets, hb]
  rfl

/-! ## Other sections -/

/-- What a section that is not in brackets is read as, one kind after the other. -/
theorem readBare_eq : g.readBare source gs l =
    if g.vars.contains l.trimmedText then .ok (.reference l.trimmedText)
    else (g.readCall? source l).bind fun call? =>
      match call?, g.readOperation? l (Mark.ofTokens g.operators l.tokens) gs, readNumber? l.text with
      | some call, _, _ => .ok call
      | none, some operation, _ => .ok operation
      | none, none, some value => .ok (.number value)
      | none, none, none => .error (errorAt source l.position (.unparsable source l.text)) := by
  rw [readBare]
  split
  · rfl
  · cases g.readCall? source l with
    | error e => rfl
    | ok call? =>
      cases call? with
      | some call => rfl
      | none =>
        cases g.readOperation? l (Mark.ofTokens g.operators l.tokens) gs with
        | some operation => rfl
        | none =>
          cases readNumber? l.text with
          | some value => rfl
          | none => rfl

/-- What a section can be read as. -/
theorem read_cases {reading : Reading α} (h : g.read source gs l = .ok reading) : g.checkEnds source l = .ok () ∧
    (l.isInBrackets = true ∧ reading = .brackets l.withoutFirstAndLast ∨
      l.isInBrackets = false ∧ (l.trimmedText ∈ g.vars ∧ reading = .reference l.trimmedText ∨
        l.trimmedText ∉ g.vars ∧ (g.readCall? source l = .ok (some reading) ∨
          g.readCall? source l = .ok none ∧
            (g.readOperation? l (Mark.ofTokens g.operators l.tokens) gs = some reading ∨
              g.readOperation? l (Mark.ofTokens g.operators l.tokens) gs = none ∧
                ∃ v, readNumber? l.text = some v ∧ reading = .number v)))) := by
  cases hends : g.checkEnds source l with
  | error e =>
    rw [read, hends] at h
    cases h
  | ok u =>
    rw [read_of_checkEnds hends] at h
    refine ⟨rfl, ?_⟩
    split at h
    · next hin => cases h; exact Or.inl ⟨hin, rfl⟩
    · next hin =>
      refine Or.inr ⟨by simpa using hin, ?_⟩
      rw [readBare_eq] at h
      split at h
      · next hv => cases h; exact Or.inl ⟨List.contains_iff_mem.1 hv, rfl⟩
      · next hv =>
        refine Or.inr ⟨fun hm => hv (List.contains_iff_mem.2 hm), ?_⟩
        cases hcall : g.readCall? source l with
        | error e => rw [hcall] at h; cases h
        | ok call? =>
          rw [hcall, Except.bind] at h
          cases call? with
          | some call => cases h; exact Or.inl rfl
          | none =>
            refine Or.inr ⟨rfl, ?_⟩
            cases hop : g.readOperation? l (Mark.ofTokens g.operators l.tokens) gs with
            | some op => rw [hop] at h; cases h; exact Or.inl rfl
            | none =>
              cases hv : readNumber? l.text with
              | some v => rw [hop, hv] at h; cases h; exact Or.inr ⟨rfl, v, rfl, rfl⟩
              | none => rw [hop, hv] at h; cases h

/-! ## Calls -/

/-- Reading a call finds nothing in a section with an operator token if no tokens at its start name a function. -/
theorem readCall?_of_unnamed (hname : ∀ i ≤ l.size, (l.slice 0 i).trimmedText ∉ g.functions)
    (hany : l.tokens.any g.operators.isOperatorToken = true) : g.readCall? source l = .ok none := by
  rw [readCall?]
  split
  · rfl
  · split
    · rfl
    · next i hi =>
      have hle : i ≤ l.size := by
        obtain ⟨j, hj, rfl⟩ := Option.map_eq_some_iff.1 hi
        obtain ⟨hlt, -⟩ := List.findIdx?_eq_some_iff_findIdx_eq.1 hj
        rw [List.length_dropLast, List.length_tail, ← TokenList.size_eq] at hlt
        omega
      have hnot : g.functions.contains (l.slice 0 i).trimmedText = false := by
        rw [Bool.eq_false_iff, Ne, List.contains_iff_mem]
        exact hname i hle
      simp only [hnot, Bool.false_eq_true, if_false, ite_self]

/-- Reading a call finds nothing in a section with an operator token outside of brackets: if brackets end the section,
the token is part of what would be the name. -/
theorem readCall?_of_operatorToken (hf : l.Faithful) (hn : g.NamesApart) (hb : Balanced l.tokens) {u v : List Token}
    {t : Text} (h : l.tokens = u ++ .fixed t :: v) (hu : bracketDepth u = 0) (hp : (Token.fixed t).isPlain = true)
    (ho : g.operators.isOperatorToken (.fixed t) = true) : g.readCall? source l = .ok none := by
  rw [readCall?]
  split
  · rfl
  · split
    · rfl
    · next i _ =>
      split
      · rfl
      · next hin =>
        have hrest : TokenList.areInBrackets (l.tokens.drop i) = true := by
          rw [← TokenList.tokens_slice_size]
          simpa [TokenList.isInBrackets] using hin
        have hlt : u.length < i := by
          refine Nat.lt_of_not_le fun hle => ?_
          have hdepth : bracketDepth (u.take i) = 0 := by
            have hsplit := hb
            rw [← List.take_append_drop i l.tokens] at hsplit
            have htake := (TokenList.areInBrackets_append hsplit hrest).1
            rwa [h, List.take_append_of_le_length hle] at htake
          have hdrop : bracketDepth (u.drop i) = 0 := by
            rw [← List.take_append_drop i u, bracketDepth_append, hdepth] at hu
            omega
          have hfalse := TokenList.areInBrackets_eq_false (v := v) hdrop hp
          rw [h, List.drop_append_of_le_length hle, hfalse] at hrest
          cases hrest
        have hmem : Token.fixed t ∈ (l.slice 0 i).tokens := by
          obtain ⟨k, rfl⟩ : ∃ k, i = u.length + (k + 1) := ⟨i - u.length - 1, by omega⟩
          rw [TokenList.tokens_slice, List.drop_zero, Nat.sub_zero, h, List.take_length_add_append, List.take_succ_cons]
          exact List.mem_append_right _ List.mem_cons_self
        have hname : (g.functions.contains (l.slice 0 i).trimmedText) = false := by
          rw [Bool.eq_false_iff, Ne, List.contains_iff_mem]
          exact fun hm => (hf.slice (Nat.zero_le i)).trimmedText_ne (hn.functions _ hm) hmem
            (Registry.WellFormed.mem_tokens ho) rfl
        have hany : l.tokens.any g.operators.isOperatorToken = true := by simp [h, ho]
        simp only [hname, hany, if_true, Bool.false_eq_true, if_false]

/-- No open bracket stands between the first token and the one that may open the arguments of a call. -/
theorem not_isOpen_of_innerOpen? {ts : List Token} {i : Nat} (h : innerOpen? ts = some i) :
    ∀ t ∈ (ts.take i).tail, t.isOpen = false := by
  rw [innerOpen?] at h
  obtain ⟨k, hk, rfl⟩ := Option.map_eq_some_iff.1 h
  obtain ⟨hlt, -, hnot⟩ := List.findIdx?_eq_some_iff_getElem.1 hk
  intro t ht
  rw [← List.drop_one, List.drop_take, List.drop_one, Nat.add_sub_cancel] at ht
  obtain ⟨j, hj, rfl⟩ := List.mem_iff_getElem.1 ht
  rw [List.length_take] at hj
  have := hnot j (by omega)
  rw [List.getElem_take]
  rw [List.getElem_dropLast] at this
  simpa using this

/-- A call that is read is the name of a function before brackets. -/
theorem exists_of_readCall? (hb : Balanced l.tokens) {reading : Reading α}
    (h : g.readCall? source l = .ok (some reading)) : ∃ pre m args, pre ≠ [] ∧ (∀ t ∈ pre.tail, t.isOpen = false) ∧
      bracketDepth pre = 0 ∧ Balanced m ∧
      l.tokens = pre ++ .fixed Token.openText :: (m ++ [.fixed Token.closeText]) ∧
      (l.slice 0 pre.length).trimmedText ∈ g.functions ∧
      g.readArguments source l (l.slice 0 pre.length).trimmedText (l.slice (pre.length + 1) (l.size - 1)) = .ok args ∧
      reading = .call (l.slice 0 pre.length).trimmedText args := by
  obtain ⟨i, args, -, hi, hin, hf, hargs, rfl⟩ := call_of_readCall? h
  have hrest : TokenList.areInBrackets (l.tokens.drop i) = true := by
    rwa [← TokenList.tokens_slice_size]
  have hsplit := hb
  rw [← List.take_append_drop i l.tokens] at hsplit
  obtain ⟨hdepth, m, hm, hbm⟩ := TokenList.areInBrackets_append hsplit hrest
  have hlt : i < l.tokens.length := by
    refine Nat.lt_of_not_le fun hle => ?_
    rw [List.drop_eq_nil_of_le hle] at hm
    cases hm
  have hlength : (l.tokens.take i).length = i := List.length_take_of_le hlt.le
  have hpos : 0 < i := by
    obtain ⟨k, -, rfl⟩ := Option.map_eq_some_iff.1 hi
    omega
  refine ⟨l.tokens.take i, m, args, ?_, not_isOpen_of_innerOpen? hi, hdepth, hbm, ?_, ?_, ?_, ?_⟩
  · exact List.ne_nil_of_length_pos (by omega)
  · rw [← hm, List.take_append_drop]
  · rwa [hlength]
  · rwa [hlength]
  · rw [hlength]

/-- Text before brackets is a call of the function with this name. -/
theorem readCall?_call (hf : l.Faithful) {name : Text} {m : List Token} (hm : Balanced m)
    (h : l.tokens = .raw name :: .fixed Token.openText :: (m ++ [.fixed Token.closeText]))
    (hname : name.trim ∈ g.functions) : g.readCall? source l =
      (g.readArguments source l name.trim (l.slice 2 (l.size - 1))).map fun args => some (.call name.trim args) := by
  have hsize : l.size = m.length + 3 := by rw [TokenList.size_eq, h]; simp
  have hlast : l.lastIs Token.isClose = true := by
    rw [TokenList.lastIs, TokenList.last?, h, ← List.cons_append, ← List.cons_append, List.getLast?_concat]
    rfl
  have hopen : innerOpen? l.tokens = some 1 := by
    rw [innerOpen?, h]
    simp [List.findIdx?_cons, List.dropLast_cons_of_ne_nil, Token.isOpen, Token.isFixed]
  have hin : (l.slice 1 l.size).isInBrackets = true := by
    have htokens := TokenList.tokens_slice_drop (l := l) (u := [.raw name]) h
    rw [TokenList.isInBrackets, show (l.slice 1 l.size).tokens = _ from htokens, TokenList.areInBrackets_iff hm.wrap]
    exact ⟨m, rfl, hm⟩
  have htext : (l.slice 0 1).trimmedText = name.trim := by
    refine (hf.slice (Nat.zero_le 1)).trimmedText_eq (t := .raw name) ?_
    rw [TokenList.tokens_slice, h]
    rfl
  have hcontains : g.functions.contains name.trim = true := List.contains_iff_mem.2 hname
  rw [readCall?, if_neg (by simp [hsize, hlast]), hopen]
  simp only [hin, htext, hcontains, Bool.not_true, Bool.false_eq_true, if_false, if_true]
  rfl

theorem readCall?_of_size (h : l.size < 3) : g.readCall? source l = .ok none := by
  rw [readCall?, if_pos (by simp [h])]

/-! ## Arguments -/

/-- The arguments of a call are the parts between separators, if there are not too many. -/
theorem readArguments_joined {args : TokenList} {name : Text} {m : List Token} {ms : List (List Token)}
    (h : args.tokens = TokenList.joined m (ms.map fun m => (Token.separatorText, m)))
    (hms : ∀ m' ∈ m :: ms, g.operators.Operand m') : g.readArguments source l name args =
      (g.limits.check .callArguments (ms.length + 1 : Nat) (some l.position) (some source)).map fun _ =>
        args.cutAt (TokenList.joints 0 m (ms.map fun m => (Token.separatorText, m))) := by
  have hsep : (Token.fixed Token.separatorText).isPlain = true := rfl
  have hpoints : args.splitBy Token.isSeparator =
      args.cutAt (TokenList.joints 0 m (ms.map fun m => (Token.separatorText, m))) := by
    rw [TokenList.splitBy_eq, h]
    exact congrArg _ (TokenList.splitPoints_joined hsep rfl
      (fun m' hm' => ⟨(hms m' hm').balanced.depth_eq, (hms m' hm').unseparated⟩) 0)
  have hlength : (args.splitBy Token.isSeparator).length = ms.length + 1 := by
    rw [hpoints, (TokenList.cutAt_joints h).length_eq]
    simp
  have hparts {m' : List Token} (hm' : m' ∈ m :: (ms.map fun m => (Token.separatorText, m)).map Prod.snd) :
      g.operators.Operand m' := hms m' (by simpa [Function.comp_def] using hm')
  obtain ⟨v, hv⟩ := TokenList.exists_joined_eq_append m (ms.map fun m => (Token.separatorText, m))
  obtain ⟨u, m', hm', hu⟩ := TokenList.exists_joined_eq_append_last m (ms.map fun m => (Token.separatorText, m))
  have hfirst : args.firstIs Token.isSeparator = false := by
    have hop := hms m List.mem_cons_self
    obtain ⟨t, m₀, rfl⟩ := List.exists_cons_of_ne_nil hop.ne_nil
    rw [TokenList.firstIs, TokenList.first?, h, hv]
    exact hop.head_not_separator
  have hlast : args.lastIs Token.isSeparator = false := by
    have hop := hparts hm'
    rw [TokenList.lastIs, TokenList.last?, h, hu, List.getLast?_append_of_ne_nil _ hop.ne_nil,
      List.getLast?_eq_some_getLast hop.ne_nil, Option.any_some]
    have heq := List.dropLast_append_getLast hop.ne_nil
    rw [← heq] at hop
    exact hop.last_not_separator
  have hempty : args.isEmpty = false := by
    have hne := (hms m List.mem_cons_self).ne_nil
    rw [TokenList.isEmpty, List.isEmpty_eq_false_iff]
    intro hnil
    rw [Row.tokens, hnil, hv] at h
    exact hne (List.append_eq_nil_iff.1 h.symm).1
  rw [readArguments, hempty, hfirst, hlast, hpoints, ← hlength, hpoints]
  rfl

theorem readArguments_nil {args : TokenList} {name : Text} (h : args.tokens = []) :
    g.readArguments source l name args = .ok [] := by
  have hempty : args.isEmpty = true := by
    rw [Row.tokens, List.map_eq_nil_iff] at h
    rw [TokenList.isEmpty, h]
    rfl
  rw [readArguments, hempty]
  rfl

/-- The arguments that are read are none, or the parts between separators. -/
theorem readArguments_cases {args : TokenList} {name : Text} {parts : List TokenList}
    (h : g.readArguments source l name args = .ok parts) :
    args.tokens = [] ∧ parts = [] ∨
      args.tokens ≠ [] ∧ parts = args.cutAt (TokenList.splitPoints Token.isSeparator 0 0 args.tokens) := by
  rw [readArguments] at h
  split at h
  · next he =>
    cases h
    rw [TokenList.isEmpty, List.isEmpty_iff] at he
    exact Or.inl ⟨by rw [Row.tokens, he, List.map_nil], rfl⟩
  · next he =>
    have hne : args.tokens ≠ [] := fun hnil => he (by
      rw [Row.tokens, List.map_eq_nil_iff] at hnil
      rw [TokenList.isEmpty, hnil]
      rfl)
    split at h
    · cases h
    · split at h
      · cases h
      · rw [← TokenList.splitBy_eq]
        cases hc : g.limits.check .callArguments (args.splitBy Token.isSeparator).length (some l.position)
            (some source) with
        | error e => simp only [hc] at h; cases h
        | ok u => simp only [hc] at h; cases h; exact Or.inr ⟨hne, rfl⟩

/-! ## Single tokens and calls -/

variable {t name : Text}

theorem areInBrackets_singleton (t : Token) : TokenList.areInBrackets [t] = false := by
  simp [TokenList.areInBrackets]

/-- Raw text that is the name of a variable is read as the variable. -/
theorem read_raw (hf : l.Faithful) (h : l.tokens = [.raw t]) (ht : t.trim ∈ g.vars) :
    g.read source gs l = .ok (.reference t.trim) := by
  have hop : g.operators.Operand l.tokens := by rw [h]; exact .singleton rfl rfl
  have htext : l.trimmedText = t.trim := hf.trimmedText_eq h
  rw [read_bare hop (by rw [h]; exact areInBrackets_singleton _), readBare_eq, htext,
    if_pos (List.contains_iff_mem.2 ht)]

/-- Without sites and operator tokens at its ends, a section is no operation. -/
theorem readOperation?_eq_none {r : Registry α} (hgs : ∀ group ∈ gs, group.Sound) (hb : Balanced l.tokens)
    (hsites : Site.ofTokens r l.tokens = [])
    (hfirst : ∀ group ∈ gs, readPrefix? l group = none) (hlast : ∀ group ∈ gs, readPostfix? l group = none) :
    g.readOperation? l (Mark.ofTokens r l.tokens) gs = none := by
  induction gs with
  | nil => rfl
  | cons group gs ih =>
    have hsound := hgs group List.mem_cons_self
    have hright : scanRight group (Mark.ofTokens r l.tokens) (fun _ => false) = none := by
      rw [scanRight_ofTokens hsound, hsites, sitesFound_nil]
      rfl
    have hleft : scanLeft group (Mark.ofTokens r l.tokens) (fun _ => false) = none := by
      rw [scanLeft_ofTokens hsound hb, hsites, List.reverse_nil, sitesFound_nil]
      rfl
    rw [readOperation?, readRight?, hright, readLeft?, hleft, hfirst group List.mem_cons_self,
      hlast group List.mem_cons_self]
    exact ih (fun group' hm => hgs group' (List.mem_cons_of_mem _ hm))
      (fun group' hm => hfirst group' (List.mem_cons_of_mem _ hm))
      fun group' hm => hlast group' (List.mem_cons_of_mem _ hm)

theorem readPrefix?_of_size (h : l.size < 2) (group : Group α) : readPrefix? l group = none := by
  rw [readPrefix?]
  cases (l.first?.bind Token.fixed?).bind group.prefixOps.get? with
  | none => rfl
  | some o => simp [h]

theorem readPostfix?_of_size (h : l.size < 2) (group : Group α) : readPostfix? l group = none := by
  rw [readPostfix?]
  cases (l.last?.bind Token.fixed?).bind group.postfixOps.get? with
  | none => rfl
  | some o => simp [h]

/-- A prefix operator is read where its token comes before others. -/
theorem readPrefix?_eq_some_iff {group : Group α} {op : Reading α} : readPrefix? l group = some op ↔
    ∃ t o ts, l.tokens = .fixed t :: ts ∧ ts ≠ [] ∧ group.prefixOps.get? t = some o ∧
      op = .operation l.position o [l.slice 1 l.size] := by
  rw [readPrefix?, TokenList.first?, TokenList.withoutFirst, TokenList.isEmpty]
  have hitems : l.items.isEmpty = l.tokens.isEmpty := by simp [Row.tokens]
  have hsize := l.size_eq
  rw [hitems, hsize]
  rcases h : l.tokens with _ | ⟨t | _ | _, ts⟩
  · simp
  · cases ho : group.prefixOps.get? t with
    | none => simp [Token.fixed?, ho]
    | some o => cases ts <;> simp [Token.fixed?, ho, eq_comm]
  · simp [Token.fixed?]
  · simp [Token.fixed?]

theorem readPrefix?_eq_none_iff {group : Group α} : readPrefix? l group = none ↔
    ∀ t ts, l.tokens = .fixed t :: ts → ts ≠ [] → group.prefixOps.get? t = none := by
  rw [Option.eq_none_iff_forall_ne_some]
  constructor
  · exact fun h t ts hl hts =>
      Option.eq_none_iff_forall_ne_some.2 fun o ho => h _ (readPrefix?_eq_some_iff.2 ⟨t, o, ts, hl, hts, ho, rfl⟩)
  · intro h op hop
    obtain ⟨t, o, ts, hl, hts, ho, -⟩ := readPrefix?_eq_some_iff.1 hop
    rw [h t ts hl hts] at ho
    cases ho

/-- A postfix operator is read where its token comes behind others. -/
theorem readPostfix?_eq_some_iff {group : Group α} {op : Reading α} : readPostfix? l group = some op ↔
    ∃ t o ts, l.tokens = ts ++ [.fixed t] ∧ ts ≠ [] ∧ group.postfixOps.get? t = some o ∧
      op = .operation (l.positionAt (l.size - 1)) o [l.slice 0 (l.size - 1)] := by
  rw [readPostfix?, TokenList.last?, TokenList.withoutLast, TokenList.isEmpty]
  have hitems : l.items.isEmpty = l.tokens.isEmpty := by simp [Row.tokens]
  have hsize := l.size_eq
  rw [hitems, hsize]
  rcases List.eq_nil_or_concat l.tokens with h | ⟨ts, s, h⟩
  · simp [h]
  · rw [List.concat_eq_append] at h
    rw [h, List.getLast?_concat]
    cases s with
    | raw _ | number _ _ => simp [Token.fixed?]
    | fixed t =>
      cases ho : group.postfixOps.get? t with
      | none => simp [Token.fixed?, ho]
      | some o =>
        have hunique (P : Text → Operator α → List Token → Prop) :
            (∃ t' o' ts', ts ++ [Token.fixed t] = ts' ++ [.fixed t'] ∧
            ts' ≠ [] ∧ group.postfixOps.get? t' = some o' ∧ P t' o' ts') ↔ ts ≠ [] ∧ P t o ts := by
          constructor
          · rintro ⟨t', o', ts', heq, hne, ho', hP⟩
            obtain ⟨rfl, ht⟩ := List.append_inj' heq rfl
            cases ht
            rw [ho] at ho'
            cases ho'
            exact ⟨hne, hP⟩
          · rintro ⟨hne, hP⟩
            exact ⟨t, o, ts, rfl, hne, ho, hP⟩
        rw [hunique]
        cases ts <;> simp [Token.fixed?, ho, eq_comm]

theorem readPostfix?_eq_none_iff {group : Group α} : readPostfix? l group = none ↔
    ∀ t ts, l.tokens = ts ++ [.fixed t] → ts ≠ [] → group.postfixOps.get? t = none := by
  rw [Option.eq_none_iff_forall_ne_some]
  constructor
  · exact fun h t ts hl hts =>
      Option.eq_none_iff_forall_ne_some.2 fun o ho => h _ (readPostfix?_eq_some_iff.2 ⟨t, o, ts, hl, hts, ho, rfl⟩)
  · intro h op hop
    obtain ⟨t, o, ts, hl, hts, ho, -⟩ := readPostfix?_eq_some_iff.1 hop
    rw [h t ts hl hts] at ho
    cases ho

/-- A number token is read as its value, unless it is named as a variable. -/
theorem read_number_of_unnamed (hgs : ∀ group ∈ gs, group.Sound) (hf : l.Faithful) {v x : Float}
    (hvar : l.trimmedText ∉ g.vars) (h : l.tokens = [.number t v]) (ht : readNumber? t = some x) :
    g.read source gs l = .ok (.number x) := by
  have hop : g.operators.Operand l.tokens := by rw [h]; exact .singleton rfl rfl
  have hsize : l.size = 1 := by rw [TokenList.size_eq, h]; rfl
  have hsites : Site.ofTokens g.operators l.tokens = [] := by
    rw [h]
    exact Site.inTokens_singleton rfl
  have hoperation : g.readOperation? l (Mark.ofTokens g.operators l.tokens) gs = none :=
    readOperation?_eq_none hgs hop.balanced hsites (fun group _ => readPrefix?_of_size (by omega) group)
      fun group _ => readPostfix?_of_size (by omega) group
  rw [read_bare hop (by rw [h]; exact areInBrackets_singleton _), readBare_eq,
    if_neg (fun hc => hvar (List.contains_iff_mem.1 hc)), readCall?_of_size (by omega), hoperation, hf.readNumber?_eq h]
  simp only [Token.text, ht]
  rfl

/-- A number token is read as its value. -/
theorem read_number (hgs : ∀ group ∈ gs, group.Sound) (hn : g.NamesApart) (hf : l.Faithful) {v x : Float}
    (h : l.tokens = [.number t v]) (ht : readNumber? t = some x) : g.read source gs l = .ok (.number x) := by
  refine read_number_of_unnamed hgs hf (fun hm => ?_) h ht
  have hnot := (hn.vars _ hm).not_number
  rw [hf.trimmedText_eq h, readNumber?_trim] at hnot
  simp [Token.text, ht] at hnot

/-- Text before brackets is read as a call of the function with this name. -/
theorem read_call (hr : g.operators.SparesBrackets) (hn : g.NamesApart) (hf : l.Faithful) {m : List Token}
    (hm : Balanced m) (h : l.tokens = .raw name :: .fixed Token.openText :: (m ++ [.fixed Token.closeText]))
    (hname : name.trim ∈ g.functions) : g.read source gs l =
      (g.readArguments source l name.trim (l.slice 2 (l.size - 1))).map fun args => .call name.trim args := by
  have hop : g.operators.Operand l.tokens := by rw [h]; exact .called hr rfl rfl hm
  have hnot : TokenList.areInBrackets l.tokens = false := by
    rw [h]
    exact TokenList.areInBrackets_eq_false (u := []) rfl rfl
  have hvar : g.vars.contains l.trimmedText = false := by
    rw [Bool.eq_false_iff, Ne, List.contains_iff_mem]
    exact fun hm => hf.trimmedText_ne (hn.vars _ hm) (t := Token.openText) (by rw [h]; simp)
      (List.mem_append_left _ (by decide)) rfl
  rw [read_bare hop hnot, readBare_eq, hvar, readCall?_call hf hm h hname]
  cases g.readArguments source l name.trim (l.slice 2 (l.size - 1)) <;> rfl

/-- The tokens within brackets at the end of a section. -/
theorem tokens_enclosed {pre m : List Token}
    (h : l.tokens = pre ++ .fixed Token.openText :: (m ++ [.fixed Token.closeText])) :
    (l.slice (pre.length + 1) (l.size - 1)).tokens = m := by
  have hsize : l.size - 1 = (pre ++ [Token.fixed Token.openText]).length + m.length := by
    rw [TokenList.size_eq, h]
    simp
    omega
  have hmid := TokenList.tokens_slice_mid (u := pre ++ [.fixed Token.openText]) (v := [.fixed Token.closeText])
    (show l.tokens = pre ++ [.fixed Token.openText] ++ m ++ [.fixed Token.closeText] by rw [h]; simp)
  rw [← hsize, List.length_append, List.length_singleton] at hmid
  exact hmid

/-- The tokens within the brackets of a call. -/
theorem tokens_arguments {m : List Token}
    (h : l.tokens = .raw name :: .fixed Token.openText :: (m ++ [.fixed Token.closeText])) :
    (l.slice 2 (l.size - 1)).tokens = m :=
  @tokens_enclosed l [.raw name] m h

/-! ## Operations -/

/-- An operand that is neither in brackets nor named is an operation if one is found. -/
theorem read_of_readOperation? (hop : g.operators.Operand l.tokens) (hnot : TokenList.areInBrackets l.tokens = false)
    (hvar : l.trimmedText ∉ g.vars) (hcall : g.readCall? source l = .ok none) {op : Reading α}
    (hread : g.readOperation? l (Mark.ofTokens g.operators l.tokens) gs = some op) : g.read source gs l = .ok op := by
  rw [read_bare hop hnot, readBare_eq, if_neg (fun hc => hvar (List.contains_iff_mem.1 hc)), hcall, hread]
  rfl

/-- A section with an operator token outside of brackets is an operation if one is found. -/
theorem read_of_operatorToken (hn : g.NamesApart) (hf : l.Faithful) (hop : g.operators.Operand l.tokens)
    {u v : List Token} (h : l.tokens = u ++ .fixed t :: v) (hu : bracketDepth u = 0)
    (hp : (Token.fixed t).isPlain = true) (ho : g.operators.isOperatorToken (.fixed t) = true) {op : Reading α}
    (hread : g.readOperation? l (Mark.ofTokens g.operators l.tokens) gs = some op) :
    g.read source gs l = .ok op := by
  refine read_of_readOperation? hop ?_ (fun hm => ?_) (readCall?_of_operatorToken hf hn hop.balanced h hu hp ho) hread
  · rw [h]
    exact TokenList.areInBrackets_eq_false hu hp
  · exact hf.trimmedText_ne (hn.vars _ hm) (t := t) (by rw [h]; simp) (Registry.WellFormed.mem_tokens ho) rfl

/-! ## Names of roots -/

/-- A section that is read as a variable names one. -/
theorem mem_vars_of_read (h : g.read source gs l = .ok (.reference name)) : name ∈ g.vars := by
  rcases (read_cases h).2 with ⟨-, heq⟩ | ⟨-, ⟨hvar, heq⟩ | ⟨-, hcall | ⟨-, hop | ⟨-, v, -, heq⟩⟩⟩⟩
  · cases heq
  · cases heq
    exact hvar
  · obtain ⟨_, _, -, -, -, -, -, heq⟩ := call_of_readCall? hcall
    cases heq
  · obtain ⟨_, _, _, heq, -⟩ := operates_of_readOperation? (length_marks l) hop
    cases heq
  · cases heq

/-- A section that is read as a call names a function, and its arguments are read. -/
theorem call_of_read {parts : List TokenList} (h : g.read source gs l = .ok (.call name parts)) :
    name ∈ g.functions ∧ ∃ args, g.readArguments source l name args = .ok parts := by
  rcases (read_cases h).2 with ⟨-, heq⟩ | ⟨-, ⟨-, heq⟩ | ⟨-, hcall | ⟨-, hop | ⟨-, v, -, heq⟩⟩⟩⟩
  · cases heq
  · cases heq
  · obtain ⟨_, _, -, -, -, hf, hargs, heq⟩ := call_of_readCall? hcall
    cases heq
    exact ⟨hf, _, hargs⟩
  · obtain ⟨_, _, _, heq, -⟩ := operates_of_readOperation? (length_marks l) hop
    cases heq
  · cases heq

/-- A section that is read as an operation has it. -/
theorem operation_of_read {position : Int} {o : Operator α} {operands : List TokenList}
    (h : g.read source gs l = .ok (.operation position o operands)) :
    g.readOperation? l (Mark.ofTokens g.operators l.tokens) gs = some (.operation position o operands) := by
  rcases (read_cases h).2 with ⟨-, heq⟩ | ⟨-, ⟨-, heq⟩ | ⟨-, hcall | ⟨-, hop | ⟨-, v, -, heq⟩⟩⟩⟩
  · cases heq
  · cases heq
  · obtain ⟨_, _, -, -, -, -, -, heq⟩ := call_of_readCall? hcall
    cases heq
  · exact hop
  · cases heq

/-! ## Trees -/

/-- The tree of a section with a given root, from the trees of the sections below it. -/
def treeOf (buildSection : TokenList → Except ExprError (Tree α)) (l : TokenList) :
    Reading α → Except ExprError (Tree α)
  | .brackets inner => buildSection inner
  | .reference name => .ok (.reference l.position name)
  | .number value => .ok (.number l.position value)
  | .call name args => (buildArguments source buildSection name l.text args).map (.call l.position name)
  | .operation position operator operands => (operands.mapM buildSection).map (.operation position operator)

theorem build_succ (levels : Nat) (l : TokenList) :
    g.build source gs (levels + 1) l = (g.read source gs l).bind (@treeOf α source (g.build source gs levels) l) := by
  rw [build]
  cases g.read source gs l with
  | error e => rfl
  | ok reading =>
    cases reading with
    | brackets inner => rfl
    | reference name => rfl
    | number value => rfl
    | call name args => simp only [bind, Except.bind, treeOf]; cases buildArguments source _ name l.text args <;> rfl
    | operation position operator operands =>
      simp only [bind, Except.bind, treeOf]
      cases operands.mapM (g.build source gs levels) <;> rfl

theorem build_of_parse {tree : Tree α} (h : g.parse source l = .ok tree) :
    g.build source g.operators.groups.1 g.limits.treeDepth.toNat l = .ok tree := by
  rw [parse] at h
  cases hbuild : g.build source g.operators.groups.1 g.limits.treeDepth.toNat l with
  | error e => rw [hbuild] at h; cases h
  | ok tree' =>
    rw [hbuild] at h
    cases hcheck : g.limits.check .treeNodes tree'.nodeCount (some l.position) (some source) with
    | error e => simp only [bind, Except.bind, hcheck] at h; cases h
    | ok u => simp only [bind, Except.bind, hcheck] at h; exact h

variable {buildSection : TokenList → Except ExprError (Tree α)}

theorem mapM_eq_ok_iff {operands : List TokenList} {trees : List (Tree α)} : operands.mapM buildSection = .ok trees ↔
    List.Forall₂ (fun operand tree => buildSection operand = .ok tree) operands trees := by
  induction operands generalizing trees with
  | nil =>
    rw [List.mapM_nil, List.forall₂_nil_left_iff]
    exact ⟨fun h => (Except.ok.inj h).symm, fun h => by rw [h]; rfl⟩
  | cons operand operands ih =>
    rw [List.mapM_cons]
    cases h : buildSection operand with
    | error e => simp [bind, Except.bind, List.forall₂_cons_left_iff, h]
    | ok tree =>
      cases hs : operands.mapM buildSection with
      | error e =>
        simp only [bind, Except.bind, List.forall₂_cons_left_iff, h, Except.ok.injEq, ← ih, hs]
        simp
      | ok trees' =>
        simp only [bind, Except.bind, pure, Except.pure, List.forall₂_cons_left_iff, h, Except.ok.injEq, ← ih, hs]
        constructor
        · rintro rfl
          exact ⟨tree, trees', rfl, rfl, rfl⟩
        · rintro ⟨_, _, rfl, rfl, rfl⟩
          rfl

/-- The arguments of a call are built in turn. -/
theorem buildArguments_eq {part : Text} (args : List TokenList) : buildArguments source buildSection name part args =
    args.mapM fun arg =>
      if arg.isEmpty then .error (errorAt source arg.offset (.emptyArgument name part)) else buildSection arg := by
  induction args with
  | nil => rfl
  | cons arg args ih =>
    rw [buildArguments, List.mapM_cons, ih]
    cases arg.isEmpty <;> rfl

theorem buildArguments_eq_ok_iff {part : Text} {args : List TokenList} {trees : List (Tree α)} :
    buildArguments source buildSection name part args = .ok trees ↔
      List.Forall₂ (fun arg tree => arg.isEmpty = false ∧ buildSection arg = .ok tree) args trees := by
  have harg (arg : TokenList) (tree : Tree α) :
      (if arg.isEmpty then .error (errorAt source arg.offset (.emptyArgument name part)) else buildSection arg) =
        Except.ok tree ↔ arg.isEmpty = false ∧ buildSection arg = .ok tree := by
    cases arg.isEmpty <;> simp
  rw [buildArguments_eq, mapM_eq_ok_iff]
  simp only [harg]

/-- A tree is built of the root of its section, and of trees that are built with one level less. -/
theorem build_succ_eq_ok_iff {levels : Nat} {t : Tree α} : g.build source gs (levels + 1) l = .ok t ↔
    ∃ reading, g.read source gs l = .ok reading ∧ @treeOf α source (g.build source gs levels) l reading = .ok t := by
  rw [build_succ]
  cases g.read source gs l with
  | error e => simp [Except.bind]
  | ok reading => simp [Except.bind]

theorem treeOf_operation_eq_ok_iff {position : Int} {o : Operator α} {operands : List TokenList} {t : Tree α} :
    @treeOf α source buildSection l (.operation position o operands) = .ok t ↔
      ∃ ts, List.Forall₂ (fun s u => buildSection s = .ok u) operands ts ∧ t = .operation position o ts := by
  simp only [treeOf, ← mapM_eq_ok_iff]
  cases operands.mapM buildSection with
  | error e => simp [Except.map]
  | ok ts => simp [Except.map, eq_comm]

theorem treeOf_call_eq_ok_iff {args : List TokenList} {t : Tree α} :
    @treeOf α source buildSection l (.call name args) = .ok t ↔
      ∃ ts, List.Forall₂ (fun s u => s.isEmpty = false ∧ buildSection s = .ok u) args ts ∧
        t = .call l.position name ts := by
  have hargs (ts : List (Tree α)) := @buildArguments_eq_ok_iff α source name buildSection l.text args ts
  simp only [treeOf, ← hargs]
  cases buildArguments source buildSection name l.text args with
  | error e => simp [Except.map]
  | ok ts => simp [Except.map, eq_comm]

/-- The root of a tree is what a section is read as. -/
inductive Heads : Reading α → Tree α → Prop
  | reference (position : Int) (name : Text) : Heads (.reference name) (.reference position name)
  | number (position : Int) (value : Float) : Heads (.number value) (.number position value)
  | call (position : Int) (name : Text) {parts : List TokenList} {args : List (Tree α)} : parts.length = args.length →
      Heads (.call name parts) (.call position name args)
  | operation (position : Int) (o : Operator α) (parts : List TokenList) (operands : List (Tree α)) :
      Heads (.operation position o parts) (.operation position o operands)

/-- The root of a tree that is built is what the section, or a section in its brackets, is read as. -/
theorem exists_heads_of_build {levels : Nat} {t : Tree α} (h : g.build source gs levels l = .ok t) :
    ∃ l' reading, g.read source gs l' = .ok reading ∧ Heads reading t := by
  induction levels generalizing l with
  | zero => cases h
  | succ levels ih =>
    obtain ⟨reading, hread, ht⟩ := build_succ_eq_ok_iff.1 h
    cases reading with
    | brackets inner => exact ih ht
    | reference name =>
      cases ht
      exact ⟨l, _, hread, .reference _ name⟩
    | number value =>
      cases ht
      exact ⟨l, _, hread, .number _ value⟩
    | call name parts =>
      obtain ⟨ts, hts, rfl⟩ := treeOf_call_eq_ok_iff.1 ht
      exact ⟨l, _, hread, .call _ name hts.length_eq⟩
    | operation position o parts =>
      obtain ⟨ts, -, rfl⟩ := treeOf_operation_eq_ok_iff.1 ht
      exact ⟨l, _, hread, .operation position o parts ts⟩

end Grammar

end Mixfix
