import Mixfix.Proofs.Catalogue
import Mixfix.Proofs.Regrouped

/-!
# Right-associative operators of a lower priority

Within one priority, right-associative operators bind looser than left-associative ones: a registry parses every list as
one does in which the right-associative operators of a priority are given a priority just below it, positions and errors
included (`Grammar.parse_lowerAt`).

The groups of a registry are in ascending order, and each keeps the operators of its priority (`Registry.Fills`). So the
groups of both registries are the same up to the priority in question, and there the one has a group where the other one
has the right-associative operators in a group of their own, right before all others (`Registry.regrouped_of_fills`).
-/

namespace Mixfix

open Priority

variable {α : Type} {low : Float → Float} {o : Operator α} {r r' : Registry α}

/-! ## Operators of a lower priority -/

/-- Whether right-associative operators are kept in the place. -/
def Place.isRight : Place → Bool
  | infixed .right _ => true
  | _ => false

namespace Operator

/-- The operator with another priority in place of its own, if it is right-associative. -/
def demoted (low : Float → Float) (o : Operator α) : Operator α :=
  if o.fixity = .infixed .right then { o with priority := low o.priority } else o

/-- The operator without its priority. -/
def unranked (o : Operator α) : Operator α := { o with priority := defaultPriority }

theorem fixity_demoted : (o.demoted low).fixity = o.fixity := by
  rw [demoted]
  split <;> rfl

theorem tokens_demoted : (o.demoted low).tokens = o.tokens := by
  rw [demoted]
  split <;> rfl

theorem place?_demoted : (o.demoted low).place? = o.place? := by
  rw [demoted]
  split <;> rfl

theorem unranked_demoted : (o.demoted low).unranked = o.unranked := by
  rw [demoted]
  split <;> rfl

theorem priority_demoted_of_right (h : o.fixity = .infixed .right) : (o.demoted low).priority = low o.priority := by
  rw [demoted, if_pos h]

theorem priority_demoted_of_not_right (h : o.fixity ≠ .infixed .right) : (o.demoted low).priority = o.priority := by
  rw [demoted, if_neg h]

theorem isRight_iff {place : Place} (h : o.place? = some place) :
    place.isRight = true ↔ o.fixity = .infixed .right := by
  rw [place?] at h
  split at h
  · next hf => cases h; simp [Place.isRight, hf]
  · next hf => cases h; simp [Place.isRight, hf]
  · next a _ hf => cases h; cases a <;> simp [Place.isRight, hf]
  · cases h

/-- Operators with one place have one fixity and the same tokens. -/
theorem Formed.eq_of_place? {o' : Operator α} (h : o.Formed) (h' : o'.Formed) (hp : o.fixity ≠ .unplaced)
    (heq : o.place? = o'.place?) : o.fixity = o'.fixity ∧ o.tokens = o'.tokens := by
  have hsingle {o : Operator α} (h : o.Formed) (hf : ∀ a, o.fixity ≠ .infixed a) : o.tokens = [o.token] := h.single hf
  have hr : o.refusal? = none := h.refusal?_eq_none hp
  have hr' : o'.refusal? = none := exists_place?_iff.1 (heq ▸ exists_place?_iff.2 hr)
  match hf : o.fixity, hf' : o'.fixity with
  | .unplaced, _ => exact absurd hf hp
  | .prefixed, .prefixed | .postfixed, .postfixed =>
    simp only [place?, hr, hr', hf, hf', Option.some.injEq, Place.prefixed.injEq, Place.postfixed.injEq] at heq
    exact ⟨rfl, by rw [hsingle h (by simp [hf]), hsingle h' (by simp [hf']), heq]⟩
  | .infixed a, .infixed a' =>
    simp only [place?, hr, hr', hf, hf', Option.some.injEq, Place.infixed.injEq] at heq
    exact ⟨by rw [heq.1], heq.2⟩
  | .prefixed, .postfixed | .prefixed, .infixed _ | .prefixed, .unplaced | .postfixed, .prefixed
  | .postfixed, .infixed _ | .postfixed, .unplaced | .infixed _, .prefixed | .infixed _, .postfixed
  | .infixed _, .unplaced => simp [place?, hr, hr', hf, hf'] at heq

end Operator

namespace Registry

/-- The second registry has the operators of the first, the right-associative ones with other priorities. -/
structure Demotes (low : Float → Float) (r r' : Registry α) : Prop where
  operatorTokens : ∀ t, t ∈ r'.operatorTokens ↔ t ∈ r.operatorTokens
  operators : ∀ o', o' ∈ r'.operators ↔ ∃ o ∈ r.operators, o' = o.demoted low

/-- Registries with the same operator tokens and operators of the same kinds tell tokens alike. -/
theorem Demotes.tellsAlike (h : Demotes low r r') (hr : r.WellFormed) (hr' : r'.WellFormed) : r.TellsAlike r' := by
  have hfixed {test test' : Text → Bool} (heq : ∀ t, test' t = true ↔ test t = true) :
      Token.isFixed test' = Token.isFixed test := by
    funext token
    cases token with
    | fixed t => exact Bool.eq_iff_iff.2 (heq t)
    | raw t | number t v => rfl
  have hop {Q : Fixity → List Text → Prop} : (∃ o' ∈ r'.operators, Q o'.fixity o'.tokens) ↔
      ∃ o ∈ r.operators, Q o.fixity o.tokens := by
    constructor
    · rintro ⟨o', ho', hQ⟩
      obtain ⟨o, ho, rfl⟩ := (h.operators o').1 ho'
      rw [Operator.fixity_demoted, Operator.tokens_demoted] at hQ
      exact ⟨o, ho, hQ⟩
    · rintro ⟨o, ho, hQ⟩
      refine ⟨o.demoted low, (h.operators _).2 ⟨o, ho, rfl⟩, ?_⟩
      rwa [Operator.fixity_demoted, Operator.tokens_demoted]
  constructor
  · refine hfixed fun t => ?_
    rw [List.contains_iff_mem, List.contains_iff_mem, h.operatorTokens]
  · exact hfixed fun t => (hr'.isPrefixToken_iff.trans (@hop fun f ts => f = .prefixed ∧ ts = [t])).trans
      hr.isPrefixToken_iff.symm
  · exact hfixed fun t => (hr'.isPostfixToken_iff.trans (@hop fun f ts => f = .postfixed ∧ ts = [t])).trans
      hr.isPostfixToken_iff.symm
  · exact hfixed fun t => (hr'.isInfixToken_iff.trans (@hop fun f ts => (∃ a, f = .infixed a) ∧ t ∈ ts)).trans
      hr.isInfixToken_iff.symm

/-! ## Groups in ascending order -/

section Groups

variable {P P' : Operator α → Prop} {g g' : Group α} {gs gs' : List (Group α)} {a b : Bool}

/-- The groups are in ascending order, there is one for each priority of some operators, and it keeps those of this
priority. -/
structure Fills (P : Operator α → Prop) (gs : List (Group α)) : Prop where
  ascending : gs.Pairwise fun g g' => rank g.priority < rank g'.priority
  sound : ∀ g ∈ gs, g.Sound
  at?_iff : ∀ g ∈ gs, ∀ place o, g.at? place = some o ↔
    P o ∧ o.place? = some place ∧ rank g.priority = rank o.priority
  ranks : ∀ x, x ∈ gs.map (fun g => rank g.priority) ↔ ∃ o, P o ∧ rank o.priority = x

theorem Fills.congr (h : Fills P gs) (hP : ∀ o, P' o ↔ P o) : Fills P' gs where
  ascending := h.ascending
  sound := h.sound
  at?_iff g hg place o := by rw [h.at?_iff g hg, hP]
  ranks x := by simp only [h.ranks, hP]

/-- Behind the first group are the operators of other priorities. -/
theorem Fills.tail (h : Fills P (g :: gs)) : Fills (fun o => P o ∧ rank o.priority ≠ rank g.priority) gs := by
  obtain ⟨hhead, hascending⟩ := List.pairwise_cons.1 h.ascending
  refine ⟨hascending, fun g' hg' => h.sound g' (List.mem_cons_of_mem _ hg'), fun g' hg' place o => ?_, fun x => ?_⟩
  · rw [h.at?_iff g' (List.mem_cons_of_mem _ hg')]
    constructor
    · rintro ⟨ho, hplace, hrank⟩
      exact ⟨⟨ho, hrank ▸ (hhead g' hg').ne'⟩, hplace, hrank⟩
    · rintro ⟨⟨ho, -⟩, hplace, hrank⟩
      exact ⟨ho, hplace, hrank⟩
  · constructor
    · intro hx
      obtain ⟨o, ho, rfl⟩ := (h.ranks x).1 (List.mem_cons_of_mem _ hx)
      obtain ⟨g', hg', hrank⟩ := List.mem_map.1 hx
      exact ⟨o, ⟨ho, hrank ▸ (hhead g' hg').ne'⟩, rfl⟩
    · rintro ⟨o, ⟨ho, hne⟩, rfl⟩
      exact (List.mem_cons.1 ((h.ranks _).2 ⟨o, ho, rfl⟩)).resolve_left hne

/-- The first group has the lowest priority. -/
theorem Fills.rank_le (h : Fills P (g :: gs)) (ho : P o) : rank g.priority ≤ rank o.priority := by
  rcases List.mem_cons.1 ((h.ranks _).2 ⟨o, ho, rfl⟩) with heq | hmem
  · exact heq.ge
  · obtain ⟨g', hg', hrank⟩ := List.mem_map.1 hmem
    rw [← hrank]
    exact ((List.pairwise_cons.1 h.ascending).1 g' hg').le

/-- An operator of the lowest priority is in the first group. -/
theorem Fills.exists_cons (h : Fills P gs) (ho : P o) (hmin : ∀ o', P o' → rank o.priority ≤ rank o'.priority) :
    ∃ g rest, gs = g :: rest ∧ rank g.priority = rank o.priority := by
  cases gs with
  | nil => exact absurd ((h.ranks _).2 ⟨o, ho, rfl⟩) List.not_mem_nil
  | cons g rest =>
    obtain ⟨o', ho', hrank⟩ := (h.ranks (rank g.priority)).1 List.mem_cons_self
    exact ⟨g, rest, rfl, le_antisymm (h.rank_le ho) (hrank ▸ hmin o' ho')⟩

/-! ## Groups with lowered operators -/

/-- A group shares the operators that it keeps changed in their places. -/
theorem shares_of_at? {f : Operator α → Operator α} (hg : g.Sound) (hg' : g'.Sound)
    (hat : ∀ place, g'.at? place = if bif place.isRight then a else b then (g.at? place).map f else none) :
    Group.Shares f a b g g' where
  sound := hg
  sound' := hg'
  right_eq ts := hat (.infixed .right ts)
  left_eq ts := hat (.infixed .left ts)
  prefixOps_eq t := hat (.prefixed t)
  postfixOps_eq t := hat (.postfixed t)

/-- Groups that fill up with operators and with the same operators demoted share those that have their priorities. -/
theorem shares_of_fills (hg : g.Sound) (hg' : g'.Sound)
    (hat : ∀ place o, g.at? place = some o ↔ P o ∧ o.place? = some place ∧ rank g.priority = rank o.priority)
    (hat' : ∀ place o', g'.at? place = some o' ↔
      (∃ o, P o ∧ o' = o.demoted low) ∧ o'.place? = some place ∧ rank g'.priority = rank o'.priority)
    (hrank : ∀ o place, P o → o.place? = some place → (rank g'.priority = rank (o.demoted low).priority ↔
      (bif place.isRight then a else b) = true ∧ rank g.priority = rank o.priority)) :
    Group.Shares (Operator.demoted low) a b g g' := by
  refine shares_of_at? hg hg' fun place => Option.ext fun o' => ?_
  rw [hat']
  constructor
  · rintro ⟨⟨o, ho, rfl⟩, hplace, hrank'⟩
    rw [Operator.place?_demoted] at hplace
    obtain ⟨hkept, hranks⟩ := (hrank o place ho hplace).1 hrank'
    rw [if_pos hkept, Option.map_eq_some_iff]
    exact ⟨o, (hat place o).2 ⟨ho, hplace, hranks⟩, rfl⟩
  · intro hmap
    split at hmap
    · next hkept =>
      obtain ⟨o, hat₀, rfl⟩ := Option.map_eq_some_iff.1 hmap
      obtain ⟨ho, hplace, hranks⟩ := (hat place o).1 hat₀
      rw [Operator.place?_demoted]
      exact ⟨⟨o, ho, rfl⟩, hplace, (hrank o place ho hplace).2 ⟨hkept, hranks⟩⟩
    · cases hmap

/-- What is left of demoted operators is what is left of the operators, demoted. -/
theorem demoted_congr (Q Q' : Operator α → Prop) (h : ∀ o, P o → (Q' (o.demoted low) ↔ Q o)) (o' : Operator α) :
    (∃ o, (P o ∧ Q o) ∧ o' = o.demoted low) ↔ (∃ o, P o ∧ o' = o.demoted low) ∧ Q' o' := by
  constructor
  · rintro ⟨o, ⟨ho, hQ⟩, rfl⟩
    exact ⟨⟨o, ho, rfl⟩, (h o ho).2 hQ⟩
  · rintro ⟨⟨o, ho, rfl⟩, hQ⟩
    exact ⟨o, ⟨ho, (h o ho).1 hQ⟩, rfl⟩

/-- All right-associative operators of one priority get the same one. It is either theirs, or it is just below theirs:
no operator has it, or one between them. -/
structure Lowers (low : Float → Float) (P : Operator α → Prop) : Prop where
  same : ∀ o o', P o → P o' → o.fixity = .infixed .right → o'.fixity = .infixed .right →
    rank o.priority = rank o'.priority → rank (low o.priority) = rank (low o'.priority)
  below : ∀ o, P o → o.fixity = .infixed .right → rank (low o.priority) = rank o.priority ∨
    rank (low o.priority) < rank o.priority ∧
      ∀ o', P o' → rank o'.priority < rank o.priority → rank o'.priority < rank (low o.priority)

/-- The operator is right-associative and gets a lower priority. -/
def Falls (low : Float → Float) (o : Operator α) : Prop :=
  o.fixity = .infixed .right ∧ rank (low o.priority) ≠ rank o.priority

namespace Lowers

variable {o₁ : Operator α}

theorem restrict (h : Lowers low P) (Q : Operator α → Prop) : Lowers low fun o => P o ∧ Q o where
  same o o' ho ho' := h.same o o' ho.1 ho'.1
  below o ho hf := (h.below o ho.1 hf).imp_right fun hlt => ⟨hlt.1, fun o' ho' => hlt.2 o' ho'.1⟩

theorem lt_of_falls (h : Lowers low P) (ho : P o) (hf : Falls low o) :
    rank (o.demoted low).priority < rank o.priority := by
  rw [Operator.priority_demoted_of_right hf.1]
  exact ((h.below o ho hf.1).resolve_left hf.2).1

/-- What is below an operator that falls stays below it. -/
theorem lt_demoted_of_falls (h : Lowers low P) (ho : P o) (hf : Falls low o) (ho₁ : P o₁)
    (hlt : rank o₁.priority < rank o.priority) : rank o₁.priority < rank (o.demoted low).priority := by
  rw [Operator.priority_demoted_of_right hf.1]
  exact ((h.below o ho hf.1).resolve_left hf.2).2 o₁ ho₁ hlt

theorem rank_of_stays (hf : ¬ Falls low o) : rank (o.demoted low).priority = rank o.priority := by
  by_cases hright : o.fixity = .infixed .right
  · rw [Operator.priority_demoted_of_right hright]
    exact Classical.not_not.1 fun hne => hf ⟨hright, hne⟩
  · rw [Operator.priority_demoted_of_not_right hright]

/-- No operator has a priority that another one falls to. -/
theorem ne_of_falls (h : Lowers low P) (ho : P o) (hf : Falls low o) (ho₁ : P o₁) :
    rank (o.demoted low).priority ≠ rank o₁.priority := by
  intro heq
  have hlt := h.lt_of_falls ho hf
  rw [heq] at hlt
  exact absurd heq (h.lt_demoted_of_falls ho hf ho₁ hlt).ne'

/-- A right-associative operator falls with the others of its priority. -/
theorem falls_of_right (h : Lowers low P) (ho : P o) (hf : Falls low o) (ho₁ : P o₁)
    (hright : o₁.fixity = .infixed .right) (hrank : rank o₁.priority = rank o.priority) :
    Falls low o₁ ∧ rank (o₁.demoted low).priority = rank (o.demoted low).priority := by
  have hsame := h.same o₁ o ho₁ ho hright hf.1 hrank
  refine ⟨⟨hright, ?_⟩, ?_⟩
  · rw [hsame, hrank]
    exact hf.2
  · rw [Operator.priority_demoted_of_right hright, Operator.priority_demoted_of_right hf.1, hsame]

/-- Operators that fall keep their order. -/
theorem rank_eq_of_falls (h : Lowers low P) (ho : P o) (hf : Falls low o) (ho₁ : P o₁) (hf₁ : Falls low o₁) :
    rank (o₁.demoted low).priority = rank (o.demoted low).priority ↔ rank o₁.priority = rank o.priority := by
  refine ⟨fun heq => ?_, fun hrank => (h.falls_of_right ho hf ho₁ hf₁.1 hrank).2⟩
  rcases lt_trichotomy (rank o₁.priority) (rank o.priority) with hlt | hrank | hlt
  · exact absurd heq ((h.lt_of_falls ho₁ hf₁).trans (h.lt_demoted_of_falls ho hf ho₁ hlt)).ne
  · exact hrank
  · exact absurd heq ((h.lt_of_falls ho hf).trans (h.lt_demoted_of_falls ho₁ hf₁ ho hlt)).ne'

/-- What an operator that falls comes to share its priority with: the right-associative operators of its priority. -/
theorem rank_eq_right_iff (h : Lowers low P) (ho₁ : P o₁) (hf₁ : Falls low o₁) (ho : P o) {place : Place}
    (hplace : o.place? = some place) : rank (o₁.demoted low).priority = rank (o.demoted low).priority ↔
      place.isRight = true ∧ rank o₁.priority = rank o.priority := by
  rw [Operator.isRight_iff hplace]
  by_cases hf : Falls low o
  · rw [h.rank_eq_of_falls ho hf ho₁ hf₁]
    exact ⟨fun hrank => ⟨hf.1, hrank⟩, And.right⟩
  · rw [rank_of_stays hf]
    constructor
    · exact fun heq => absurd heq (h.ne_of_falls ho₁ hf₁ ho)
    · exact fun ⟨hright, hrank⟩ => absurd (h.falls_of_right ho₁ hf₁ ho hright hrank.symm).1 hf

/-- What an operator that falls leaves behind: the other operators of its priority. -/
theorem rank_eq_rest_iff (h : Lowers low P) (ho₁ : P o₁) (hf₁ : Falls low o₁) (ho : P o) {place : Place}
    (hplace : o.place? = some place) : rank o₁.priority = rank (o.demoted low).priority ↔
      place.isRight = false ∧ rank o₁.priority = rank o.priority := by
  rw [← Bool.not_eq_true, Operator.isRight_iff hplace]
  by_cases hf : Falls low o
  · exact ⟨fun heq => absurd heq.symm (h.ne_of_falls ho hf ho₁), fun hrest => absurd hf.1 hrest.1⟩
  · rw [rank_of_stays hf]
    refine ⟨fun hrank => ⟨fun hright => hf ?_, hrank⟩, And.right⟩
    exact (h.falls_of_right ho₁ hf₁ ho hright hrank.symm).1

end Lowers

/-- The first groups share the operators of a group, and those behind them fill up with all other operators. -/
def Follows (low : Float → Float) (P : Operator α → Prop) (g : Group α) (gs' : List (Group α)) : Prop :=
  ∃ rest, Fills (fun o' => ∃ o, (P o ∧ rank o.priority ≠ rank g.priority) ∧ o' = o.demoted low) rest ∧
    ∀ gs, Group.Regrouped (Operator.demoted low) gs rest → Group.Regrouped (Operator.demoted low) (g :: gs) gs'

section Steps

variable (hlow : Lowers low P) (h : Fills P (g :: gs)) (h' : Fills (fun o' => ∃ o, P o ∧ o' = o.demoted low) gs')

include hlow h h'

/-- If operators of the lowest priority fall, they come first. -/
theorem exists_rights {o₁ : Operator α} (ho₁ : P o₁) (hf₁ : Falls low o₁)
    (hrank₁ : rank o₁.priority = rank g.priority) :
    ∃ right rest, gs' = right :: rest ∧ rank right.priority = rank (o₁.demoted low).priority := by
  refine h'.exists_cons ⟨o₁, ho₁, rfl⟩ ?_
  rintro _ ⟨o, ho, rfl⟩
  have hle : rank o₁.priority ≤ rank o.priority := hrank₁ ▸ h.rank_le ho
  by_cases hf : Falls low o
  · rcases hle.lt_or_eq with hlt | heq
    · exact ((hlow.lt_of_falls ho₁ hf₁).trans (hlow.lt_demoted_of_falls ho hf ho₁ hlt)).le
    · exact ((hlow.rank_eq_of_falls ho hf ho₁ hf₁).2 heq).le
  · rw [Lowers.rank_of_stays hf]
    exact ((hlow.lt_of_falls ho₁ hf₁).trans_le hle).le

/-- If some of the lowest priority fall and others stay, they come in two groups. -/
theorem follows_of_both {o₁ o₂ : Operator α} (ho₁ : P o₁) (hf₁ : Falls low o₁)
    (hrank₁ : rank o₁.priority = rank g.priority) (ho₂ : P o₂) (hf₂ : ¬ Falls low o₂)
    (hrank₂ : rank o₂.priority = rank g.priority) : Follows low P g gs' := by
  obtain ⟨right, rest, rfl, hright⟩ := exists_rights hlow h h' ho₁ hf₁ hrank₁
  have hstays₂ : rank (o₂.demoted low).priority = rank o₁.priority := by
    rw [Lowers.rank_of_stays hf₂, hrank₂, hrank₁]
  have hne₂ : rank (o₂.demoted low).priority ≠ rank right.priority := by
    rw [hstays₂, hright]
    exact (hlow.ne_of_falls ho₁ hf₁ ho₁).symm
  obtain ⟨others, rest, rfl, hothers⟩ := h'.tail.exists_cons ⟨⟨o₂, ho₂, rfl⟩, hne₂⟩ (by
    rintro _ ⟨⟨o, ho, rfl⟩, hne⟩
    have hle : rank o₁.priority ≤ rank o.priority := hrank₁ ▸ h.rank_le ho
    rw [hstays₂]
    by_cases hf : Falls low o
    · have hlt := hle.lt_of_ne fun heq => hne (hright ▸ (hlow.rank_eq_of_falls ho₁ hf₁ ho hf).2 heq.symm)
      exact (hlow.lt_demoted_of_falls ho hf ho₁ hlt).le
    · rwa [Lowers.rank_of_stays hf])
  rw [hstays₂] at hothers
  have hsound := h.sound g List.mem_cons_self
  have hat := h.at?_iff g List.mem_cons_self
  refine ⟨rest, h'.tail.tail.congr fun o' => ?_, fun gs hgs => .split ?_ ?_ hgs⟩
  · rw [hright, hothers, ← hrank₁, and_assoc]
    refine demoted_congr (fun o => rank o.priority ≠ rank o₁.priority) (fun o' =>
      rank o'.priority ≠ rank (o₁.demoted low).priority ∧ rank o'.priority ≠ rank o₁.priority) (fun o ho => ?_) o'
    by_cases hf : Falls low o
    · simp [hlow.rank_eq_of_falls ho₁ hf₁ ho hf, hlow.ne_of_falls ho hf ho₁]
    · simp [Lowers.rank_of_stays hf, (hlow.ne_of_falls ho₁ hf₁ ho).symm]
  · refine shares_of_fills hsound (h'.sound right (by simp)) hat (h'.at?_iff right (by simp))
      fun o place ho hplace => ?_
    rw [hright, ← hrank₁, hlow.rank_eq_right_iff ho₁ hf₁ ho hplace]
    cases place.isRight <;> simp
  · refine shares_of_fills hsound (h'.sound others (by simp)) hat (h'.at?_iff others (by simp))
      fun o place ho hplace => ?_
    rw [hothers, ← hrank₁, hlow.rank_eq_rest_iff ho₁ hf₁ ho hplace]
    cases place.isRight <;> simp

/-- If all of the lowest priority fall, their group falls as a whole. -/
theorem follows_of_falls {o₁ : Operator α} (ho₁ : P o₁) (hf₁ : Falls low o₁)
    (hrank₁ : rank o₁.priority = rank g.priority)
    (hall : ∀ o, P o → ¬ Falls low o → rank o.priority ≠ rank g.priority) : Follows low P g gs' := by
  obtain ⟨right, rest, rfl, hright⟩ := exists_rights hlow h h' ho₁ hf₁ hrank₁
  rw [← hrank₁] at hall
  have hboth (o : Operator α) (ho : P o) : rank (o₁.demoted low).priority = rank (o.demoted low).priority ↔
      rank o₁.priority = rank o.priority := by
    by_cases hf : Falls low o
    · exact hlow.rank_eq_of_falls ho hf ho₁ hf₁
    · rw [Lowers.rank_of_stays hf]
      exact ⟨fun heq => absurd heq (hlow.ne_of_falls ho₁ hf₁ ho), fun heq => absurd heq.symm (hall o ho hf)⟩
  refine ⟨rest, h'.tail.congr fun o' => ?_, fun gs hgs => .cons ?_ hgs⟩
  · rw [hright, ← hrank₁]
    refine demoted_congr (fun o => rank o.priority ≠ rank o₁.priority)
      (fun o' => rank o'.priority ≠ rank (o₁.demoted low).priority) (fun o ho => ?_) o'
    rw [ne_comm, ne_comm (a := rank o.priority)]
    exact not_congr (hboth o ho)
  · refine shares_of_fills (h.sound g List.mem_cons_self) (h'.sound right (by simp)) (h.at?_iff g List.mem_cons_self)
      (h'.at?_iff right (by simp)) fun o place ho _ => ?_
    rw [hright, ← hrank₁, hboth o ho]
    simp

/-- If none of the lowest priority falls, their group stays. -/
theorem follows_of_stays (hnone : ∀ o, P o → Falls low o → rank o.priority ≠ rank g.priority) :
    Follows low P g gs' := by
  obtain ⟨o₀, ho₀, hrank₀⟩ := (h.ranks (rank g.priority)).1 List.mem_cons_self
  rw [← hrank₀] at hnone
  have hstays₀ := Lowers.rank_of_stays fun hf => hnone o₀ ho₀ hf rfl
  obtain ⟨g', rest, rfl, hg'⟩ := h'.exists_cons ⟨o₀, ho₀, rfl⟩ (by
    rintro _ ⟨o, ho, rfl⟩
    have hle : rank o₀.priority ≤ rank o.priority := hrank₀ ▸ h.rank_le ho
    rw [hstays₀]
    by_cases hf : Falls low o
    · exact (hlow.lt_demoted_of_falls ho hf ho₀ (hle.lt_of_ne (hnone o ho hf).symm)).le
    · rwa [Lowers.rank_of_stays hf])
  rw [hstays₀] at hg'
  -- what does not fall from the lowest priority does not fall to it either
  have hboth (o : Operator α) (ho : P o) :
      rank o₀.priority = rank (o.demoted low).priority ↔ rank o₀.priority = rank o.priority := by
    by_cases hf : Falls low o
    · exact ⟨fun heq => absurd heq.symm (hlow.ne_of_falls ho hf ho₀), fun heq => absurd heq.symm (hnone o ho hf)⟩
    · rw [Lowers.rank_of_stays hf]
  refine ⟨rest, h'.tail.congr fun o' => ?_, fun gs hgs => .cons ?_ hgs⟩
  · rw [hg', ← hrank₀]
    refine demoted_congr (fun o => rank o.priority ≠ rank o₀.priority) (fun o' => rank o'.priority ≠ rank o₀.priority)
      (fun o ho => ?_) o'
    rw [ne_comm, ne_comm (a := rank o.priority)]
    exact not_congr (hboth o ho)
  · refine shares_of_fills (h.sound g List.mem_cons_self) (h'.sound g' (by simp)) (h.at?_iff g List.mem_cons_self)
      (h'.at?_iff g' (by simp)) fun o place ho _ => ?_
    rw [hg', ← hrank₀, hboth o ho]
    simp

theorem follows : Follows low P g gs' := by
  by_cases hfalls : ∃ o, P o ∧ Falls low o ∧ rank o.priority = rank g.priority
  · obtain ⟨o₁, ho₁, hf₁, hrank₁⟩ := hfalls
    by_cases hstays : ∃ o, P o ∧ ¬ Falls low o ∧ rank o.priority = rank g.priority
    · obtain ⟨o₂, ho₂, hf₂, hrank₂⟩ := hstays
      exact follows_of_both hlow h h' ho₁ hf₁ hrank₁ ho₂ hf₂ hrank₂
    · exact follows_of_falls hlow h h' ho₁ hf₁ hrank₁ fun o ho hf hrank => hstays ⟨o, ho, hf, hrank⟩
  · exact follows_of_stays hlow h h' fun o ho hf hrank => hfalls ⟨o, ho, hf, hrank⟩

end Steps

/-- If right-associative operators fall to priorities just below theirs, a group falls apart, or falls as a whole, or
stays as it is. -/
theorem regrouped_of_fills (hlow : Lowers low P) (h : Fills P gs)
    (h' : Fills (fun o' => ∃ o, P o ∧ o' = o.demoted low) gs') : Group.Regrouped (Operator.demoted low) gs gs' := by
  induction gs generalizing P gs' with
  | nil =>
    cases gs' with
    | nil => exact .nil
    | cons g' gs' =>
      obtain ⟨_, ⟨o, ho, rfl⟩, -⟩ := (h'.ranks (rank g'.priority)).1 List.mem_cons_self
      exact absurd ((h.ranks _).2 ⟨o, ho, rfl⟩) List.not_mem_nil
  | cons g gs ih =>
    obtain ⟨rest, hrest, hfollows⟩ := follows hlow h h'
    exact hfollows gs (ih (hlow.restrict _) h.tail hrest)

end Groups

/-! ## Registries with lowered operators -/

/-- The groups of a registry fill up with its operators. -/
theorem WellFormed.fills (h : r.WellFormed) (hn : ∀ o ∈ r.operators, o.priority.isNaN = false) :
    Fills (· ∈ r.operators) r.groups.1 := by
  have hplaces : r.operators.Pairwise fun o o' => o.place? ≠ o'.place? := by
    refine h.pairwise_operators.imp_of_mem fun {o o'} ho ho' hne heq => ?_
    obtain ⟨hfixity, htokens⟩ := (h.formed ho).eq_of_place? (h.formed ho') (h.placed ho) heq
    exact hne hfixity htokens
  obtain ⟨hfilled, -⟩ := filled_priorityGroups hn hplaces
  rw [← h.groups_eq] at hfilled
  exact ⟨h.pairwise_groups hn, hfilled.sound, hfilled.keeps, hfilled.ranks⟩

/-- The groups of a registry with demoted operators are those of the other one, some of them taken apart. -/
theorem Demotes.regrouped (h : Demotes low r r') (hr : r.WellFormed) (hr' : r'.WellFormed)
    (hn : ∀ o ∈ r.operators, o.priority.isNaN = false) (hlow : Lowers low (· ∈ r.operators))
    (hn' : ∀ o ∈ r.operators, o.fixity = .infixed .right → (low o.priority).isNaN = false) :
    Group.Regrouped (Operator.demoted low) r.groups.1 r'.groups.1 := by
  have hdemoted (o' : Operator α) (ho' : o' ∈ r'.operators) : o'.priority.isNaN = false := by
    obtain ⟨o, ho, rfl⟩ := (h.operators o').1 ho'
    by_cases hright : o.fixity = .infixed .right
    · rw [Operator.priority_demoted_of_right hright]
      exact hn' o ho hright
    · rw [Operator.priority_demoted_of_not_right hright]
      exact hn o ho
  exact regrouped_of_fills hlow (hr.fills hn) ((hr'.fills hdemoted).congr fun o' => (h.operators o').symm)

/-- The priority `q` in place of `p`, and every other priority as it is. -/
def lowerAt (p q x : Float) : Float := if x == p then q else x

/-- A priority just below a given one lowers the operators. -/
theorem lowers_lowerAt {p q : Float} (hn : ∀ o ∈ r.operators, o.priority.isNaN = false) (hq : q < p)
    (habove : ∀ o ∈ r.operators, o.priority < p → o.priority < q) : Lowers (lowerAt p q) (· ∈ r.operators) := by
  obtain ⟨hnq, hnp⟩ := not_isNaN_of_lt hq
  have hlowered {o : Operator α} (ho : o ∈ r.operators) :
      rank (lowerAt p q o.priority) = if rank o.priority = rank p then rank q else rank o.priority := by
    rw [lowerAt, apply_ite rank]
    exact if_congr (beq_iff (hn o ho) hnp) rfl rfl
  refine ⟨fun o o' ho ho' _ _ hrank => ?_, fun o ho _ => ?_⟩
  · rw [hlowered ho, hlowered ho', hrank]
  · rw [hlowered ho]
    split
    · next heq =>
      rw [heq]
      refine .inr ⟨(lt_iff hnq hnp).1 hq, fun o' ho' hlt => ?_⟩
      exact (lt_iff (hn o' ho') hnq).1 (habove o' ho' ((lt_iff (hn o' ho') hnp).2 hlt))
    · exact .inl rfl

end Registry

namespace Grammar

variable {g : Grammar α} {source : Text} {l : TokenList}

/-- With the right-associative operators of a priority given a priority just below it, a list parses to the same tree
but for the priorities of its operators, or fails with the same error. -/
theorem parse_lowerAt {p q : Float} (hg : g.operators.Reachable) (hr' : r'.Reachable)
    (hn : ∀ o ∈ g.operators.operators, o.priority.isNaN = false) (hq : q < p)
    (habove : ∀ o ∈ g.operators.operators, o.priority < p → o.priority < q)
    (h : Registry.Demotes (Registry.lowerAt p q) g.operators r') :
    (g.withOperators r').parse source l =
        (g.parse source l).map (Tree.onOperators (Operator.demoted (Registry.lowerAt p q))) ∧
      ((g.withOperators r').parse source l).map (Tree.onOperators Operator.unranked) =
        (g.parse source l).map (Tree.onOperators Operator.unranked) := by
  have hn' (o : Operator α) (ho : o ∈ g.operators.operators) (_ : o.fixity = .infixed .right) :
      (Registry.lowerAt p q o.priority).isNaN = false := by
    rw [Registry.lowerAt]
    split
    · exact (not_isNaN_of_lt hq).1
    · exact hn o ho
  have hparse : (g.withOperators r').parse source l =
      (g.parse source l).map (Tree.onOperators (Operator.demoted (Registry.lowerAt p q))) :=
    parse_regrouped (h.tellsAlike hg.wellFormed hr'.wellFormed)
      (h.regrouped hg.wellFormed hr'.wellFormed hn (Registry.lowers_lowerAt hn hq habove) hn')
  have hunranked : Operator.unranked ∘ Operator.demoted (Registry.lowerAt p q) = (Operator.unranked (α := α)) :=
    funext fun _ => Operator.unranked_demoted
  refine ⟨hparse, ?_⟩
  rw [hparse]
  cases g.parse source l with
  | error e => rfl
  | ok tree => exact congrArg Except.ok ((Tree.onOperators_onOperators tree).trans (by rw [hunranked]))

/-- A prefix operator, a left-associative one, and a right-associative one of some priority. -/
def mixedSample (priority : Float) : Registry Unit :=
  Registry.empty.addAll
    [⟨.prefixed, [['n']], -2.0, ()⟩, ⟨.infixed .left, [['m']], 0.0, ()⟩,
     ⟨.infixed .right, [['q'], ['c']], priority, ()⟩]

theorem operators_mixedSample (priority : Float) : (mixedSample priority).operators =
    [⟨.prefixed, [['n']], -2.0, ()⟩, ⟨.infixed .left, [['m']], 0.0, ()⟩,
      ⟨.infixed .right, [['q'], ['c']], priority, ()⟩] := rfl

theorem reachable_mixedSample (priority : Float) : (mixedSample priority).Reachable :=
  .addAll .empty (by
    simp only [List.forall_mem_cons]
    exact ⟨⟨by simp, fun _ => rfl⟩, ⟨by simp, fun h => absurd rfl (h .left)⟩,
      ⟨by simp, fun h => absurd rfl (h .right)⟩, by simp⟩)

theorem demotes_mixedSample : (mixedSample 0.0).Demotes (Registry.lowerAt 0.0 (-1.0)) (mixedSample (-1.0)) where
  operatorTokens t := by rfl
  operators o' := by
    have hlow : Registry.lowerAt 0.0 (-1.0) 0.0 = -1.0 := if_pos (by decide +kernel)
    rw [operators_mixedSample, operators_mixedSample]
    simp [Operator.demoted, hlow]

/-- A grammar with a group of mixed associativity, and with no names. -/
def mixedGrammar : Grammar Unit where
  operators := mixedSample 0.0
  vars := []
  functions := []
  limits := {}

theorem parse_lowerAt_sample : mixedGrammar.operators.Reachable ∧ (mixedSample (-1.0)).Reachable ∧
    mixedGrammar.operators.Demotes (Registry.lowerAt 0.0 (-1.0)) (mixedSample (-1.0)) ∧
    ∃ l : TokenList, l = .adjoining [.number ['1'] 1.0, .fixed ['m'], .number ['2'] 2.0, .fixed ['q'],
        .number ['3'] 3.0, .fixed ['c'], .number ['4'] 4.0, .fixed ['m'], .number ['5'] 5.0] ∧
      (mixedGrammar.withOperators (mixedSample (-1.0))).parse l.text l =
          (mixedGrammar.parse l.text l).map (Tree.onOperators (Operator.demoted (Registry.lowerAt 0.0 (-1.0)))) ∧
        ((mixedGrammar.withOperators (mixedSample (-1.0))).parse l.text l).map (Tree.onOperators Operator.unranked) =
          (mixedGrammar.parse l.text l).map (Tree.onOperators Operator.unranked) := by
  have hn : ∀ o ∈ mixedGrammar.operators.operators, o.priority.isNaN = false := by
    rw [mixedGrammar, operators_mixedSample]
    decide +kernel
  have habove : ∀ o ∈ mixedGrammar.operators.operators, o.priority < 0.0 → o.priority < -1.0 := by
    rw [mixedGrammar, operators_mixedSample]
    decide +kernel
  exact ⟨reachable_mixedSample _, reachable_mixedSample _, demotes_mixedSample, _, rfl,
    parse_lowerAt (reachable_mixedSample _) (reachable_mixedSample _) hn (by decide +kernel) habove demotes_mixedSample⟩

end Grammar

end Mixfix
