import Mixfix.Proofs.Derivable

/-!
# Operations that are read

What is read as an operation is one of an operator of the registry, whose tokens stand where the section is cut
(`Grammar.exists_of_readOperation?`): an infix operator stands between the parts of the section, a prefix operator
before the rest and a postfix operator behind it. The arguments of a call are cut in the same way
(`Grammar.exists_of_readArguments`). So the sections below the root of a balanced section are balanced
(`Grammar.balanced_of_read`).
-/

namespace Mixfix

/-! ## Parts between places -/

/-- A text stands outside of brackets at the index of a site. -/
def Site.StandsIn (s : Site) (ts : List Token) : Prop := ∃ u v, ts = u ++ .fixed s.text :: v ∧ s.index = u.length ∧
  bracketDepth u = 0 ∧ (Token.fixed s.text).isPlain = true

/-- Tokens are parts between fixed tokens at some places outside of brackets. -/
theorem exists_joined_from {ts pre post : List Token} (hb : Balanced ts) (hts : ts = pre ++ post)
    (hpre : bracketDepth pre = 0) {own : List Site} (h : ∀ s ∈ own, s.StandsIn ts ∧ pre.length ≤ s.index)
    (hp : own.Pairwise fun a b => a.index < b.index) : ∃ m rest, post = TokenList.joined m rest ∧
      rest.map Prod.fst = own.map Site.text ∧ TokenList.joints pre.length m rest = own.map Site.index ∧
        ∀ m' ∈ m :: rest.map Prod.snd, Balanced m' := by
  induction own generalizing pre post with
  | nil =>
    refine ⟨post, [], rfl, rfl, rfl, fun m' hm' => ?_⟩
    rw [List.mem_singleton.1 hm']
    rw [hts] at hb
    exact hb.right hpre
  | cons s own ih =>
    obtain ⟨⟨u, v, huv, hi, hu, hplain⟩, hle⟩ := h s List.mem_cons_self
    obtain ⟨hlt, hp⟩ := List.pairwise_cons.1 hp
    obtain ⟨m, rfl, rfl⟩ : ∃ m, u = pre ++ m ∧ post = m ++ .fixed s.text :: v := by
      rcases List.append_eq_append_iff.1 (hts.symm.trans huv) with ⟨z, hz, hz'⟩ | ⟨z, hz, hz'⟩
      · exact ⟨z, hz, hz'⟩
      · have hlength := congrArg List.length hz
        rw [List.length_append] at hlength
        obtain rfl : z = [] := List.eq_nil_of_length_eq_zero (by omega)
        exact ⟨[], by simpa using hz.symm, by simpa using hz'.symm⟩
    have hm : bracketDepth m = 0 := by rw [bracketDepth_append, hpre] at hu; omega
    have hlength : (pre ++ m ++ [Token.fixed s.text]).length = s.index + 1 := by
      rw [hi, List.length_append, List.length_singleton]
    obtain ⟨m', rest, rfl, htexts, hjoints, hbalanced⟩ := @ih (pre ++ m ++ [.fixed s.text]) v
      (by rw [huv]; simp) (by simp [hpre, hm, Token.weight_of_plain hplain])
      (fun s' hs' => ⟨(h s' (List.mem_cons_of_mem _ hs')).1, by rw [hlength]; exact hlt s' hs'⟩) hp
    refine ⟨m, (s.text, m') :: rest, rfl, by simp [htexts], ?_, List.forall_mem_cons.2 ⟨?_, hbalanced⟩⟩
    · rw [TokenList.joints, List.map_cons, ← hjoints, hlength, hi, List.length_append]
    · rw [hts, ← List.append_assoc] at hb
      have := hb.left (u := pre ++ m) (by simp [hpre, hm])
      exact this.right hpre

/-- Places outside of brackets have balanced parts between them. -/
theorem exists_joined {ts : List Token} (hb : Balanced ts) {own : List Site} (h : ∀ s ∈ own, s.StandsIn ts)
    (hp : own.Pairwise fun a b => a.index < b.index) : ∃ m rest, ts = TokenList.joined m rest ∧
      rest.map Prod.fst = own.map Site.text ∧ TokenList.joints 0 m rest = own.map Site.index ∧
        ∀ m' ∈ m :: rest.map Prod.snd, Balanced m' :=
  exists_joined_from hb (List.nil_append ts).symm rfl (fun s hs => ⟨h s hs, Nat.zero_le _⟩) hp

/-- Sites have balanced parts between them. -/
theorem exists_joined_of_sublist {r : Registry α} {ts : List Token} (hb : Balanced ts) {own : List Site}
    (h : own.Sublist (Site.ofTokens r ts)) : ∃ m rest, ts = TokenList.joined m rest ∧
      rest.map Prod.fst = own.map Site.text ∧ TokenList.joints 0 m rest = own.map Site.index ∧
        ∀ m' ∈ m :: rest.map Prod.snd, Balanced m' := by
  refine exists_joined hb (fun s hs => ?_) ((Site.pairwise_ofTokens ts).sublist h)
  obtain ⟨u, v, huv, hi, hsplits⟩ := Site.mem_ofTokens.1 (h.subset hs)
  exact ⟨u, v, huv, hi, hsplits.depth_eq, hsplits.plain⟩

/-- Balanced tokens are parts between the separators outside of brackets. -/
theorem exists_joined_separators {ts : List Token} (hb : Balanced ts) : ∃ m ms,
    ts = TokenList.joined m (ms.map fun m => (Token.separatorText, m)) ∧
      TokenList.splitPoints Token.isSeparator 0 0 ts =
        TokenList.joints 0 m (ms.map fun m => (Token.separatorText, m)) ∧ ∀ m' ∈ m :: ms, Balanced m' := by
  obtain ⟨m, rest, hts, htexts, hjoints, hbalanced⟩ := @exists_joined ts hb
    ((TokenList.splitPoints Token.isSeparator 0 0 ts).map fun i => ⟨i, Token.separatorText⟩) (fun s hs => by
      obtain ⟨i, hi, rfl⟩ := List.mem_map.1 hs
      obtain ⟨u, t, v, hts, hx, hdepth, hplain, ht⟩ := TokenList.mem_splitPoints.1 hi
      rw [Token.isSeparator_iff.1 ht] at hts hplain
      exact ⟨u, v, hts, by simpa using hx, by simpa using hdepth, hplain⟩)
    (List.pairwise_map.2 (TokenList.pairwise_splitPoints ts))
  have hrest : rest = (rest.map Prod.snd).map fun m => (Token.separatorText, m) := by
    rw [List.map_map]
    conv_lhs => rw [← List.map_id rest]
    refine List.map_congr_left fun p hp => ?_
    have hmem : p.1 ∈ rest.map Prod.fst := List.mem_map_of_mem hp
    rw [htexts, List.map_map] at hmem
    obtain ⟨i, -, hi⟩ := List.mem_map.1 hmem
    exact Prod.ext hi.symm rfl
  refine ⟨m, rest.map Prod.snd, by rw [← hrest]; exact hts, ?_, hbalanced⟩
  rw [← hrest, hjoints, List.map_map]
  exact (List.map_id _).symm

namespace Grammar

variable {α : Type} {g : Grammar α} {source : Text} {gs : List (Group α)} {l : TokenList}

/-- The arguments that are read are none, or what stands between separators. -/
theorem exists_of_readArguments {args : TokenList} {name : Text} {parts : List TokenList} (hb : Balanced args.tokens)
    (h : g.readArguments source l name args = .ok parts) : args.tokens = [] ∧ parts = [] ∨ ∃ m ms,
      args.tokens = TokenList.joined m (ms.map fun m => (Token.separatorText, m)) ∧
        List.Forall₂ args.IsPart parts (m :: ms) ∧ ∀ m' ∈ m :: ms, Balanced m' := by
  rcases readArguments_cases h with hnil | ⟨-, rfl⟩
  · exact Or.inl hnil
  · obtain ⟨m, ms, htokens, hpoints, hbalanced⟩ := exists_joined_separators hb
    have hparts := TokenList.cutAt_joints htokens
    have hms : (ms.map fun m => (Token.separatorText, m)).map Prod.snd = ms := by simp [Function.comp_def]
    rw [hms] at hparts
    exact Or.inr ⟨m, ms, htokens, by rw [hpoints]; exact hparts, hbalanced⟩

/-- An operation of an operator with the sections around its tokens, and the tokens of these sections. -/
inductive Shows (r : Registry α) (l : TokenList) : Reading α → List (List Token) → Prop
  | infixed {o : Operator α} {m : List Token} {rest : List (Text × List Token)} : o ∈ r.operators →
      (∃ a, o.fixity = .infixed a) → o.tokens = rest.map Prod.fst → l.tokens = TokenList.joined m rest →
      Shows r l (.operation (l.positionAt ((TokenList.joints 0 m rest).headD 0)) o
        (l.cutAt (TokenList.joints 0 m rest))) (m :: rest.map Prod.snd)
  | prefixed {o : Operator α} {t : Text} {ts : List Token} : o ∈ r.operators → o.fixity = .prefixed → o.tokens = [t] →
      l.tokens = .fixed t :: ts → Shows r l (.operation l.position o [l.slice 1 l.size]) [ts]
  | postfixed {o : Operator α} {t : Text} {ts : List Token} : o ∈ r.operators → o.fixity = .postfixed → o.tokens = [t] →
      l.tokens = ts ++ [.fixed t] →
      Shows r l (.operation (l.positionAt (l.size - 1)) o [l.slice 0 (l.size - 1)]) [ts]

variable {r : Registry α} {group : Group α}

theorem Shows.binary {o : Operator α} {t : Text} {u v : List Token} (hmem : o ∈ r.operators)
    (hf : ∃ a, o.fixity = .infixed a)
    (ht : o.tokens = [t]) (h : l.tokens = u ++ .fixed t :: v) :
    Shows r l (.operation (l.positionAt u.length) o (l.cutAt [u.length])) [u, v] := by
  have hjoints : TokenList.joints 0 u [(t, v)] = [u.length] := by simp [TokenList.joints]
  have hshows := @Shows.infixed _ r l o u [(t, v)] hmem hf ht h
  rwa [hjoints] at hshows

theorem Shows.ternary {o : Operator α} {s t : Text} {u m v : List Token} (hmem : o ∈ r.operators)
    (hf : ∃ a, o.fixity = .infixed a) (ht : o.tokens = [s, t]) (h : l.tokens = TokenList.joined u [(s, m), (t, v)]) :
    Shows r l (.operation (l.positionAt u.length) o (l.cutAt (TokenList.joints 0 u [(s, m), (t, v)]))) [u, m, v] := by
  have hhead : (TokenList.joints 0 u [(s, m), (t, v)]).headD 0 = u.length := by simp [TokenList.joints]
  have hshows := @Shows.infixed _ r l o u [(s, m), (t, v)] hmem hf ht h
  rwa [hhead] at hshows

/-- Sites that spell an operator of the registry show its operation. -/
theorem shows_of_sublist (hr : r.WellFormed) (hm : group ∈ r.groups.1) (hb : Balanced l.tokens) {own : List Site}
    (hown : own.Sublist (Site.ofTokens r l.tokens)) {a : Associativity} {t : Trie Text (Operator α)}
    (ht : ∀ ts, group.get? (.infixed a) ts = t.get? ts) {op : Reading α}
    (hop : infixOperation? l t (own.map Site.index) = some op) :
    ∃ parts, Shows r l op parts ∧ ∀ m ∈ parts, Balanced m := by
  rw [infixOperation?, Site.filterMap_fixed? fun s hs => Site.getElem?_of_mem (hown.subset hs)] at hop
  cases ho : t.get? (own.map Site.text) with
  | none => rw [ho] at hop; cases hop
  | some o =>
    rw [ho] at hop
    cases hop
    obtain ⟨hmem, hf, htokens⟩ := hr.consistent hm (.infixed a) _ o ((ht _).trans ho)
    obtain ⟨m, rest, hts, hfst, hjoints, hbalanced⟩ := exists_joined_of_sublist hb hown
    rw [← hjoints]
    exact ⟨_, .infixed hmem ⟨a, hf⟩ (by rw [htokens, hfst]) hts, hbalanced⟩

section Group

variable {group : Group α} {op : Reading α}

theorem exists_of_readPrefix? (hr : r.WellFormed) (havoids : r.AvoidsBuiltins) (hb : Balanced l.tokens)
    (hm : group ∈ r.groups.1) (h : readPrefix? l group = some op) :
    ∃ parts, Shows r l op parts ∧ ∀ m ∈ parts, Balanced m := by
  obtain ⟨t, o, ts, hl, -, ho, rfl⟩ := readPrefix?_eq_some_iff.1 h
  obtain ⟨hmem, hf, htokens⟩ := hr.consistent hm .prefixed [t] o ho
  refine ⟨_, .prefixed hmem hf htokens hl, fun m hm' => ?_⟩
  rw [List.mem_singleton.1 hm']
  rw [hl] at hb
  exact hb.tail (havoids.weight_eq hmem (by rw [htokens]; exact List.mem_singleton_self t))

theorem exists_of_readPostfix? (hr : r.WellFormed) (havoids : r.AvoidsBuiltins) (hb : Balanced l.tokens)
    (hm : group ∈ r.groups.1) (h : readPostfix? l group = some op) :
    ∃ parts, Shows r l op parts ∧ ∀ m ∈ parts, Balanced m := by
  obtain ⟨t, o, ts, hl, -, ho, rfl⟩ := readPostfix?_eq_some_iff.1 h
  obtain ⟨hmem, hf, htokens⟩ := hr.consistent hm .postfixed [t] o ho
  refine ⟨_, .postfixed hmem hf htokens hl, fun m hm' => ?_⟩
  rw [List.mem_singleton.1 hm']
  rw [hl] at hb
  exact hb.dropLast (havoids.weight_eq hmem (by rw [htokens]; exact List.mem_singleton_self t))

theorem exists_of_readRight? (hr : r.WellFormed) (hb : Balanced l.tokens) (hm : group ∈ r.groups.1)
    (h : g.readRight? l (Mark.ofTokens r l.tokens) group gs = some op) :
    ∃ parts, Shows r l op parts ∧ ∀ m ∈ parts, Balanced m := by
  rw [readRight?, scanRight_ofTokens (hr.sound hm), sitesFound] at h
  rcases hseek : Scan.seek group.right group.right 0 (Site.ofTokens r l.tokens) with _ | f
  · rw [hseek] at h
    cases h
  · rw [hseek] at h
    simp only [Option.map_some, Option.bind_some, bind] at h
    split at h
    · cases h
    · obtain ⟨hsub, -, -⟩ := Scan.seek_sound 0 _ hseek
      exact shows_of_sublist hr hm hb hsub (a := .right) (fun _ => rfl) h

theorem exists_of_readLeft? (hr : r.WellFormed) (hb : Balanced l.tokens) (hm : group ∈ r.groups.1)
    (h : g.readLeft? l (Mark.ofTokens r l.tokens) group gs = some op) :
    ∃ parts, Shows r l op parts ∧ ∀ m ∈ parts, Balanced m := by
  rw [readLeft?, scanLeft_ofTokens (hr.sound hm) hb, sitesFound] at h
  rcases hseek : Scan.seek group.leftReversed group.leftReversed 0 (Site.ofTokens r l.tokens).reverse with _ | f
  · rw [hseek] at h
    cases h
  · rw [hseek] at h
    simp only [Option.map_some, Option.bind_some, bind] at h
    split at h
    · cases h
    · obtain ⟨hsub, -, -⟩ := Scan.seek_sound 0 _ hseek
      rw [← List.map_reverse] at h
      have hsub' : f.sites.reverse.Sublist (Site.ofTokens r l.tokens) := by
        rw [← List.reverse_reverse (Site.ofTokens r l.tokens)]
        exact hsub.reverse
      exact shows_of_sublist hr hm hb hsub' (a := .left) (fun _ => rfl) h

end Group

/-- What is read as an operation shows its operator and parts. -/
theorem exists_of_readOperation? (hr : r.WellFormed) (havoids : r.AvoidsBuiltins) (hb : Balanced l.tokens)
    (hgs : ∀ group ∈ gs, group ∈ r.groups.1) {op : Reading α}
    (h : g.readOperation? l (Mark.ofTokens r l.tokens) gs = some op) :
    ∃ parts, Shows r l op parts ∧ ∀ m ∈ parts, Balanced m := by
  induction gs with
  | nil => cases h
  | cons group gs ih =>
    have hm := hgs group List.mem_cons_self
    simp only [readOperation?, Option.orElse_eq_or, Option.or_eq_some_iff] at h
    rcases h with h | ⟨-, h | ⟨-, h | ⟨-, h | ⟨-, h⟩⟩⟩⟩
    · exact exists_of_readRight? hr hb hm h
    · exact exists_of_readLeft? hr hb hm h
    · exact exists_of_readPrefix? hr havoids hb hm h
    · exact exists_of_readPostfix? hr havoids hb hm h
    · exact ih (fun group' hm' => hgs group' (List.mem_cons_of_mem _ hm')) h

/-- The sections that an operation has are those with the tokens that it shows. -/
theorem Shows.isPart {op : Reading α} {parts : List (List Token)} (h : Shows r l op parts) :
    ∃ position o operands, op = .operation position o operands ∧ List.Forall₂ l.IsPart operands parts := by
  cases h with
  | infixed _ _ _ hl => exact ⟨_, _, _, rfl, TokenList.cutAt_joints hl⟩
  | @prefixed o t ts _ _ _ hl =>
    have hsize : 1 ≤ l.size := by rw [TokenList.size_eq, hl]; simp
    exact ⟨_, _, _, rfl,
      .cons ⟨TokenList.tokens_slice_drop (u := [.fixed t]) hl, 1, l.size, hsize, Nat.le_refl _, rfl⟩ .nil⟩
  | @postfixed o t ts _ _ _ hl =>
    have hsize : l.size - 1 = ts.length := by rw [TokenList.size_eq, hl]; simp
    refine ⟨_, _, _, rfl, .cons ⟨?_, 0, l.size - 1, Nat.zero_le _, by omega, rfl⟩ .nil⟩
    rw [TokenList.tokens_slice, hsize, hl]
    simp

/-- The parts that an operation shows lack its tokens. -/
theorem Shows.lt_size (hr : r.Separate) {op : Reading α} {parts : List (List Token)}
    (h : Shows r l op parts) : (parts.map List.length).sum < l.size := by
  rw [TokenList.size_eq]
  cases h with
  | @infixed o' m rest hmem hf hts hl =>
    have hpos : 0 < rest.length := by
      have hlength := congrArg List.length hts
      rw [List.length_map] at hlength
      rw [← hlength, List.length_pos_iff]
      exact (hr.formed hmem).tokens_ne
    rw [hl, TokenList.length_joined]
    omega
  | prefixed _ _ _ hl => simp [hl]
  | postfixed _ _ _ hl => simp [hl]

/-- A token of the operator that an operation shows stands outside of brackets. -/
theorem Shows.exists_operatorToken (hr : r.Separate) {op : Reading α} {parts : List (List Token)}
    (h : Shows r l op parts) (hb : ∀ m ∈ parts, Balanced m) : ∃ u t v, l.tokens = u ++ .fixed t :: v ∧
      bracketDepth u = 0 ∧ (Token.fixed t).isPlain = true ∧ r.isOperatorToken (.fixed t) = true := by
  have hplain {o' : Operator α} {t : Text} (hmem : o' ∈ r.operators) (ht : t ∈ o'.tokens) :
      (Token.fixed t).isPlain = true ∧ r.isOperatorToken (.fixed t) = true :=
    ⟨Token.isPlain_of_not_builtin (hr.isBuiltin_of_mem hmem ht), hr.isOperatorToken hr.avoids hmem ht⟩
  cases h with
  | @infixed o' m rest hmem hf hts hl =>
    match rest with
    | [] => exact absurd hts (hr.formed hmem).tokens_ne
    | (t, m') :: rest =>
      exact ⟨m, t, _, hl, (hb m List.mem_cons_self).depth_eq, hplain hmem (by rw [hts]; exact List.mem_cons_self)⟩
  | @prefixed o' t ts hmem hf hts hl =>
    exact ⟨[], t, ts, hl, rfl, hplain hmem (by rw [hts]; exact List.mem_cons_self)⟩
  | @postfixed o' t ts hmem hf hts hl =>
    exact ⟨ts, t, [], hl, (hb ts List.mem_cons_self).depth_eq, hplain hmem (by rw [hts]; exact List.mem_cons_self)⟩

/-- The sections below the root of a balanced section are balanced. -/
theorem balanced_of_read (hr : g.operators.WellFormed) (havoids : g.operators.AvoidsBuiltins) (hb : Balanced l.tokens)
    {reading : Reading α} (h : g.read source g.operators.groups.1 l = .ok reading) :
    ∀ s ∈ sections reading, Balanced s.tokens := by
  have hparts {whole : TokenList} {ss : List TokenList} {parts : List (List Token)}
      (hss : List.Forall₂ whole.IsPart ss parts) (hbalanced : ∀ m ∈ parts, Balanced m) : ∀ s ∈ ss, Balanced s.tokens :=
    TokenList.forall_of_isPart hss fun s m hm hpart => by
      rw [hpart.1]
      exact hbalanced m hm
  rcases (read_cases h).2 with ⟨hin, rfl⟩ | ⟨-, ⟨-, rfl⟩ | ⟨-, hcall | ⟨-, hop | ⟨-, v, -, rfl⟩⟩⟩⟩
  · obtain ⟨m, hl, hm, hinner⟩ := exists_of_isInBrackets hb hin
    intro s hs
    rw [List.mem_singleton.1 hs, hinner, tokens_inner hl]
    exact hm
  · exact fun s hs => absurd hs List.not_mem_nil
  · obtain ⟨pre, m, args, -, -, -, hm, hl, -, hargs, rfl⟩ := exists_of_readCall? hb hcall
    rcases exists_of_readArguments (by rw [tokens_enclosed hl]; exact hm) hargs with
      ⟨-, rfl⟩ | ⟨m', ms, -, hss, hbalanced⟩
    · exact fun s hs => absurd hs List.not_mem_nil
    · exact hparts hss hbalanced
  · obtain ⟨parts, hshows, hbalanced⟩ := exists_of_readOperation? hr havoids hb (fun _ hm => hm) hop
    obtain ⟨position, o, operands, rfl, hss⟩ := hshows.isPart
    exact hparts hss hbalanced
  · exact fun s hs => absurd hs List.not_mem_nil

/-- An operation that is built of a section without brackets around it is the one that is read. -/
theorem readOperation?_of_build {levels : Nat} {position : Int} {o : Operator α} {ts : List (Tree α)}
    (hr : g.operators.WellFormed) (havoids : g.operators.AvoidsBuiltins) (hb : Balanced l.tokens)
    (hin : TokenList.areInBrackets l.tokens = false)
    (h : g.build source g.operators.groups.1 levels l = .ok (.operation position o ts)) : ∃ levels' operands,
      g.readOperation? l (Mark.ofTokens g.operators l.tokens) g.operators.groups.1 =
        some (.operation position o operands) ∧
      List.Forall₂ (fun s t => g.build source g.operators.groups.1 levels' s = .ok t) operands ts := by
  cases levels with
  | zero => cases h
  | succ levels =>
    obtain ⟨reading, hread, h⟩ := build_succ_eq_ok_iff.1 h
    rcases (read_cases hread).2 with ⟨hin', -⟩ | ⟨-, ⟨-, rfl⟩ | ⟨-, hcall | ⟨-, hop | ⟨-, v, -, rfl⟩⟩⟩⟩
    · rw [TokenList.isInBrackets, hin] at hin'
      cases hin'
    · cases h
    · obtain ⟨_, _, args, -, -, -, -, -, -, -, rfl⟩ := exists_of_readCall? hb hcall
      obtain ⟨_, -, h⟩ := treeOf_call_eq_ok_iff.1 h
      cases h
    · obtain ⟨_, hshows, -⟩ := exists_of_readOperation? hr havoids hb (fun _ hm => hm) hop
      obtain ⟨_, _, operands, rfl, -⟩ := hshows.isPart
      obtain ⟨ts', hts, h⟩ := treeOf_operation_eq_ok_iff.1 h
      cases h
      exact ⟨levels, operands, hop, hts⟩
    · cases h

end Grammar

end Mixfix
