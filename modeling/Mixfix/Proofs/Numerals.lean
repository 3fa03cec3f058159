import Mixfix.Number.Conversion
import Mixfix.Proofs.Literals
import Mixfix.Proofs.Names
import Mixfix.Proofs.Patterns

/-!
# The grammar of number literals

`Literal.language` is the grammar of number literals. The pattern of literals matches exactly its texts
(`Literal.fullMatch_pattern_iff`), and so does the reader that goes over a text once (`Literal.isSome_parse?_iff`),
since the digits at the start of a text and the sign before it are determined by the text. What is read once, the
conversion reads too, and as the same literal (`Literal.convert?_of_parse?`). So a text that is recognized is always
converted (`parseNumber_eq`).

A literal says the same with ASCII digits in place of its digits (`Literal.parse?_map_toAsciiDigit`), and blanks around
it are ignored. All of this together is `parseNumber_exact`.
-/

open scoped Computability

namespace Mixfix

/-! ## Digits at the start -/

namespace Text

variable {t u v : Text}

/-- The values of the digits of a text. -/
def digitValues (t : Text) : List Nat := t.filterMap digit?

/-- The text does not begin with a digit. -/
def NoDigitAhead (v : Text) : Prop := ∀ c, v.head? = some c → isDigit c = false

theorem spanDigits_append (hu : ∀ c ∈ u, isDigit c = true) (hv : NoDigitAhead v) :
    spanDigits (u ++ v) = (digitValues u, v) := by
  induction u with
  | nil =>
    match v with
    | [] => rfl
    | c :: v =>
      have hc : digit? c = none := by simpa [isDigit] using hv c rfl
      rw [List.nil_append, spanDigits, hc]
      rfl
  | cons c u ih =>
    rw [List.forall_mem_cons] at hu
    obtain ⟨d, hd⟩ := Option.isSome_iff_exists.1 hu.1
    rw [List.cons_append, spanDigits, hd, ih hu.2, digitValues, digitValues, List.filterMap_cons_some hd]

/-- Every text is digits before a text that does not begin with a digit. -/
theorem exists_spanDigits (t : Text) : ∃ u v, t = u ++ v ∧ (∀ c ∈ u, isDigit c = true) ∧ NoDigitAhead v := by
  refine ⟨t.takeWhile isDigit, t.dropWhile isDigit, List.takeWhile_append_dropWhile.symm,
    fun c hc => List.mem_takeWhile_imp hc, fun c hc => ?_⟩
  have := List.head?_dropWhile_not isDigit t
  rw [hc] at this
  simpa using this

theorem digitValues_eq_nil (hu : ∀ c ∈ u, isDigit c = true) : digitValues u = [] ↔ u = [] := by
  rw [digitValues, List.filterMap_eq_nil_iff]
  constructor
  · intro h
    refine List.eq_nil_iff_forall_not_mem.2 fun c hc => ?_
    have := hu c hc
    rw [isDigit, h c hc] at this
    cases this
  · rintro rfl c hc
    cases hc

end Text

namespace Literal

open Text

variable {t u v w x s body : Text} {negative : Bool}

/-! ## The grammar -/

/-- One or more digits. -/
def digits : Language Char := ofClass isDigit * (ofClass isDigit)∗

/-- A sign. -/
def sign : Language Char := {['+']} + {['-']}

/-- Digits, possibly with a point behind or among them, or a point before digits. -/
def mantissa : Language Char := digits * (1 + {['.']}) * (ofClass isDigit)∗ + {['.']} * digits

/-- A letter, possibly a sign, and digits. -/
def exponent : Language Char := ({['e']} + {['E']}) * (1 + sign) * digits

/-- Possibly a sign, then `NaN`, `Infinity`, or a mantissa possibly with an exponent. -/
def language : Language Char :=
  (1 + sign) * ({['N', 'a', 'N']} + {['I', 'n', 'f', 'i', 'n', 'i', 't', 'y']} + mantissa * (1 + exponent))

theorem mem_digits : t ∈ digits ↔ t ≠ [] ∧ ∀ c ∈ t, isDigit c = true := mem_ofClass_mul_kstar

theorem ofClass_or (a b : Char) : ofClass (fun c => c == a || c == b) = {[a]} + {[b]} := by
  ext t
  rw [mem_ofClass, Language.mem_add]
  constructor
  · rintro ⟨c, hc, rfl⟩
    rcases Bool.or_eq_true_iff.1 hc with hc | hc
    · exact .inl (by rw [beq_iff_eq.1 hc]; rfl)
    · exact .inr (by rw [beq_iff_eq.1 hc]; rfl)
  · rintro (rfl | rfl)
    · exact ⟨a, by simp, rfl⟩
    · exact ⟨b, by simp, rfl⟩

/-- The pattern of literals is the grammar. -/
theorem language_pattern : pattern.language = language := by
  have hsign : ofClass isSign = sign := ofClass_or '+' '-'
  have hletter : ofClass isExponentLetter = {['e']} + {['E']} := ofClass_or 'e' 'E'
  simp only [pattern, mantissaPattern, exponentPattern, Pattern.language, Pattern.language_optional,
    Pattern.language_run1, hsign, hletter, language, mantissa, exponent, digits, mul_assoc, add_assoc]

theorem fullMatch_pattern_iff : pattern.fullMatch t = true ↔ t ∈ language := by
  rw [Pattern.fullMatch_iff, language_pattern]

/-! ## Reading once -/

/-- A sign before a text is split off. -/
theorem exists_spanSign (t : Text) : ∃ s ∈ 1 + sign, t = s ++ (spanSign t).2 := by
  rw [spanSign.eq_def]
  split
  · exact ⟨['-'], .inr (.inr rfl), rfl⟩
  · exact ⟨['+'], .inr (.inl rfl), rfl⟩
  · exact ⟨[], .inl rfl, rfl⟩

theorem spanSign_append (hs : s ∈ 1 + sign) (hbody : ∀ c, body.head? = some c → isSign c = false) :
    (spanSign (s ++ body)).2 = body := by
  rcases hs with rfl | rfl | rfl
  · rw [List.nil_append, spanSign.eq_def]
    split
    · exact absurd (hbody '-' rfl) (by decide)
    · exact absurd (hbody '+' rfl) (by decide)
    · rfl
  · rfl
  · rfl

theorem not_isSign_of_isDigit {c : Char} (h : isDigit c = true) : isSign c = false := by
  rw [isSign, Bool.or_eq_false_iff, beq_eq_false_iff_ne, beq_eq_false_iff_ne]
  constructor <;> rintro rfl <;> exact absurd h (by decide)

/-- Digits before a text that does not begin with one are all digits if nothing follows them. -/
theorem append_mem_digits_iff (hu : ∀ c ∈ u, isDigit c = true) (hv : NoDigitAhead v) :
    u ++ v ∈ digits ↔ digitValues u ≠ [] ∧ v = [] := by
  rw [mem_digits, Ne, Ne, digitValues_eq_nil hu]
  match v with
  | [] => simp [and_iff_left hu]
  | c :: v =>
    refine iff_of_false (fun ⟨_, hall⟩ => ?_) (fun ⟨_, hnil⟩ => List.cons_ne_nil c v hnil)
    have hc := hall c (by simp)
    rw [hv c rfl] at hc
    cases hc

/-- An exponent begins with its letter, and behind it and a sign there are digits. -/
theorem cons_mem_exponent_iff {c : Char} : c :: t ∈ 1 + exponent ↔ (c = 'e' ∨ c = 'E') ∧ (spanSign t).2 ∈ digits := by
  constructor
  · rintro (h | ⟨_, ⟨e, he, s, hs, rfl⟩, ds, hds, h⟩)
    · cases h
    · replace h : e ++ s ++ ds = c :: t := h
      have hsign : (spanSign (s ++ ds)).2 = ds := by
        refine spanSign_append hs fun c hc => ?_
        exact not_isSign_of_isDigit ((mem_digits.1 hds).2 c (List.mem_of_mem_head? hc))
      rcases he with rfl | rfl
      · obtain ⟨rfl, rfl⟩ : 'e' = c ∧ s ++ ds = t := List.cons.inj h
        exact ⟨.inl rfl, by rwa [hsign]⟩
      · obtain ⟨rfl, rfl⟩ : 'E' = c ∧ s ++ ds = t := List.cons.inj h
        exact ⟨.inr rfl, by rwa [hsign]⟩
  · rintro ⟨hc, hdigits⟩
    obtain ⟨s, hs, ht⟩ := exists_spanSign t
    refine .inr ⟨c :: s, ⟨[c], ?_, s, hs, rfl⟩, _, hdigits, congrArg (c :: ·) ht.symm⟩
    rcases hc with rfl | rfl
    · exact .inl rfl
    · exact .inr rfl

theorem isSome_exponent?_iff : (exponent? t).isSome = true ↔ t ∈ 1 + exponent := by
  cases t with
  | nil => exact iff_of_true rfl (.inl rfl)
  | cons c t =>
    rw [exponent?, cons_mem_exponent_iff]
    split
    · next hc =>
      cases hsign : spanSign t with
      | mk negative body =>
        obtain ⟨u, v, rfl, hu, hv⟩ := exists_spanDigits body
        simp only [spanDigits_append hu hv, hc, true_and, append_mem_digits_iff hu hv]
        split
        · next heq =>
          obtain ⟨hds, rfl⟩ := Prod.mk.inj heq
          simp [hds]
        · next hne =>
          refine iff_of_false (by simp) ?_
          rintro ⟨hds, hnil⟩
          obtain ⟨d, ds, hcons⟩ := List.exists_cons_of_ne_nil hds
          exact hne d ds (by rw [hcons, hnil])
    · next hc => simp [hc]

theorem isSome_assemble {whole fraction : List Nat} :
    (assemble negative whole fraction t).isSome = true ↔ t ∈ 1 + exponent := by
  rw [assemble, Option.isSome_map, isSome_exponent?_iff]

theorem head?_of_mem_exponent {c : Char} (h : t ∈ 1 + exponent) (hc : t.head? = some c) : c = 'e' ∨ c = 'E' := by
  match t with
  | d :: t =>
    cases hc
    exact (cons_mem_exponent_iff.1 h).1

theorem noDigitAhead_of_mem_exponent (h : t ∈ 1 + exponent) : NoDigitAhead t := by
  intro c hc
  rcases head?_of_mem_exponent h hc with rfl | rfl <;> decide

theorem head?_ne_point_of_mem_exponent (h : t ∈ 1 + exponent) : t.head? ≠ some '.' := fun hc =>
  absurd (head?_of_mem_exponent h hc) (by decide)

theorem noDigitAhead_point (t : Text) : NoDigitAhead ('.' :: t) := by
  rintro d hd
  cases hd
  decide

/-- Every text is split as the reader of decimals splits it, whether or not it is a decimal: digits, and then a point
and digits, if there is a point behind the first ones. -/
theorem exists_decimal_parts (t : Text) :
    (∃ u w x, t = u ++ '.' :: (w ++ x) ∧ (∀ c ∈ u, isDigit c = true) ∧ (∀ c ∈ w, isDigit c = true) ∧ NoDigitAhead x) ∨
      ∃ u v, t = u ++ v ∧ (∀ c ∈ u, isDigit c = true) ∧ NoDigitAhead v ∧ v.head? ≠ some '.' := by
  obtain ⟨u, v, rfl, hu, hv⟩ := exists_spanDigits t
  by_cases hpoint : v.head? = some '.'
  · obtain ⟨rest, rfl⟩ : ∃ rest, v = '.' :: rest := ⟨v.tail, (List.cons_head?_tail hpoint).symm⟩
    obtain ⟨w, x, rfl, hw, hx⟩ := exists_spanDigits rest
    exact .inl ⟨u, w, x, rfl, hu, hw, hx⟩
  · exact .inr ⟨u, v, rfl, hu, hv, hpoint⟩

/-- A decimal with a point, by the digits on both sides of it. -/
theorem decimal?_point (hu : ∀ c ∈ u, isDigit c = true) (hw : ∀ c ∈ w, isDigit c = true) (hx : NoDigitAhead x) :
    decimal? negative (u ++ '.' :: (w ++ x)) =
      if digitValues u = [] ∧ digitValues w = [] then none
      else assemble negative (digitValues u) (digitValues w) x := by
  rw [decimal?, spanDigits_append hu (noDigitAhead_point _)]
  cases digitValues u with
  | nil =>
    simp only [spanDigits_append hw hx, true_and]
    cases digitValues w <;> rfl
  | cons d ds => simp [spanDigits_append hw hx]

/-- A decimal without a point. -/
theorem decimal?_whole (hu : ∀ c ∈ u, isDigit c = true) (hv : NoDigitAhead v) (hpoint : v.head? ≠ some '.') :
    decimal? negative (u ++ v) = if digitValues u = [] then none else assemble negative (digitValues u) [] v := by
  have hne (rest : Text) : v ≠ '.' :: rest := by
    rintro rfl
    exact hpoint rfl
  rw [decimal?, spanDigits_append hu hv]
  cases digitValues u with
  | nil => simp
  | cons d ds => simp

/-- A mantissa, possibly with an exponent: digits, possibly a point and digits, then possibly an exponent. -/
theorem mem_decimal_iff : t ∈ mantissa * (1 + exponent) ↔ ∃ u v, t = u ++ v ∧ (∀ c ∈ u, isDigit c = true) ∧
    (u ≠ [] ∧ v ∈ 1 + exponent ∨ ∃ w x, v = '.' :: (w ++ x) ∧ (∀ c ∈ w, isDigit c = true) ∧ ¬ (u = [] ∧ w = []) ∧
      x ∈ 1 + exponent) := by
  constructor
  · rintro ⟨_, ⟨_, ⟨u, hu, p, hp, rfl⟩, w, hw, rfl⟩ | ⟨p, hp, w, hw, rfl⟩, x, hx, rfl⟩
    · obtain ⟨hne, hu⟩ := mem_digits.1 hu
      replace hw := mem_kstar_ofClass.1 hw
      rcases hp with rfl | rfl
      · exact ⟨u ++ w, x, by simp, fun c hc => (List.mem_append.1 hc).elim (hu c) (hw c), .inl ⟨by simp [hne], hx⟩⟩
      · exact ⟨u, '.' :: (w ++ x), by simp, hu, .inr ⟨w, x, rfl, hw, fun h => hne h.1, hx⟩⟩
    · obtain ⟨hne, hw⟩ := mem_digits.1 hw
      obtain rfl : p = ['.'] := hp
      exact ⟨[], '.' :: (w ++ x), by simp, by simp, .inr ⟨w, x, rfl, hw, fun h => hne h.2, hx⟩⟩
  · rintro ⟨u, v, rfl, hu, ⟨hne, hv⟩ | ⟨w, x, rfl, hw, hne, hx⟩⟩
    · refine ⟨u, .inl ⟨u, ⟨u, mem_digits.2 ⟨hne, hu⟩, [], .inl rfl, by simp⟩, [], ?_, by simp⟩, v, hv, rfl⟩
      exact mem_kstar_ofClass.2 (by simp)
    · by_cases hnil : u = []
      · subst hnil
        refine ⟨'.' :: w, .inr ⟨['.'], rfl, w, mem_digits.2 ⟨fun hw => hne ⟨rfl, hw⟩, hw⟩, rfl⟩, x, hx, by simp⟩
      · refine ⟨u ++ ['.'] ++ w, .inl ⟨u ++ ['.'], ⟨u, mem_digits.2 ⟨hnil, hu⟩, ['.'], .inr rfl, rfl⟩, w,
          mem_kstar_ofClass.2 hw, rfl⟩, x, hx, by simp⟩

/-- A text is read as a decimal exactly if it is a mantissa, possibly with an exponent. -/
theorem isSome_decimal?_iff : (decimal? negative t).isSome = true ↔ t ∈ mantissa * (1 + exponent) := by
  constructor
  · intro h
    rcases exists_decimal_parts t with ⟨u, w, x, rfl, hu, hw, hx⟩ | ⟨u, v, rfl, hu, hv, hpoint⟩
    · simp only [decimal?_point hu hw hx, digitValues_eq_nil hu, digitValues_eq_nil hw] at h
      split at h
      · cases h
      · next hne => exact mem_decimal_iff.2 ⟨u, _, rfl, hu, .inr ⟨w, x, rfl, hw, hne, isSome_assemble.1 h⟩⟩
    · simp only [decimal?_whole hu hv hpoint, digitValues_eq_nil hu] at h
      split at h
      · cases h
      · next hne => exact mem_decimal_iff.2 ⟨u, v, rfl, hu, .inl ⟨hne, isSome_assemble.1 h⟩⟩
  · intro h
    obtain ⟨u, v, rfl, hu, ⟨hne, hv⟩ | ⟨w, x, rfl, hw, hne, hx⟩⟩ := mem_decimal_iff.1 h
    · rw [decimal?_whole hu (noDigitAhead_of_mem_exponent hv) (head?_ne_point_of_mem_exponent hv),
        if_neg (mt (digitValues_eq_nil hu).1 hne)]
      exact isSome_assemble.2 hv
    · rw [decimal?_point hu hw (noDigitAhead_of_mem_exponent hx),
        if_neg (by rwa [digitValues_eq_nil hu, digitValues_eq_nil hw])]
      exact isSome_assemble.2 hx

/-- A decimal begins with a digit or a point. -/
theorem exists_cons_of_mem_decimal (h : t ∈ mantissa * (1 + exponent)) :
    ∃ c rest, t = c :: rest ∧ (isDigit c = true ∨ c = '.') := by
  obtain ⟨u, v, rfl, hu, hv⟩ := mem_decimal_iff.1 h
  match u with
  | d :: u => exact ⟨d, u ++ v, rfl, .inl (hu d List.mem_cons_self)⟩
  | [] =>
    rcases hv with ⟨hne, -⟩ | ⟨w, x, rfl, -⟩
    · exact absurd rfl hne
    · exact ⟨'.', w ++ x, rfl, .inr rfl⟩

theorem not_isSign_of_mem_decimal (h : t ∈ mantissa * (1 + exponent)) : ∀ c, t.head? = some c → isSign c = false := by
  obtain ⟨d, rest, rfl, hd⟩ := exists_cons_of_mem_decimal h
  rintro c ⟨⟩
  rcases hd with hd | rfl
  · exact not_isSign_of_isDigit hd
  · rfl

/-- A text is read as a literal exactly if it is in the grammar. -/
theorem isSome_parse?_iff : (parse? t).isSome = true ↔ t ∈ language := by
  constructor
  · intro h
    obtain ⟨s, hs, ht⟩ := exists_spanSign t
    rw [ht]
    refine ⟨s, hs, (spanSign t).2, ?_, rfl⟩
    rw [parse?] at h
    simp only at h
    split at h
    · next hbody => exact .inl (.inl hbody)
    · split at h
      · next hbody => exact .inl (.inr hbody)
      · exact .inr (isSome_decimal?_iff.1 h)
  · rintro ⟨s, hs, body, hbody, rfl⟩
    -- no body begins with a sign, so the sign of the grammar is the one that is split off
    have hsign : (spanSign (s ++ body)).2 = body := by
      refine spanSign_append hs ?_
      rcases hbody with (rfl | rfl) | hbody
      · rintro c ⟨⟩; rfl
      · rintro c ⟨⟩; rfl
      · exact not_isSign_of_mem_decimal hbody
    change (parse? (s ++ body)).isSome = true
    rw [parse?]
    simp only [hsign]
    split
    · rfl
    · split
      · rfl
      · next hnan hinfinity =>
        rcases hbody with (hbody | hbody) | hbody
        · exact absurd hbody hnan
        · exact absurd hbody hinfinity
        · exact isSome_decimal?_iff.2 hbody

/-! ## Conversion -/

/-- Nothing is dropped from a text without underscores. -/
theorem joinedFrom_eq (h : '_' ∉ t) (afterDigit : Bool) : joinedFrom afterDigit t = some t := by
  induction t generalizing afterDigit with
  | nil => rfl
  | cons c t ih =>
    rw [List.mem_cons, not_or] at h
    rw [joinedFrom, if_neg (Ne.symm h.1), ih h.2]
    rfl

/-- A letter in lower case comes from itself or from the capital letter, which stands 32 places before it. -/
theorem eq_of_toLower_eq {c d : Char} (h : c.toLower = d) : c = d ∨ c.toNat + 32 = d.toNat := by
  delta Char.toLower at h
  split at h
  · next hupper =>
    have hle := UInt32.le_iff_toNat_le.1 hupper.2
    have hstep : ('a'.val - 'A'.val).toNat = 32 := by decide
    have hz : 'Z'.val.toNat = 90 := by decide
    right
    rw [← h]
    simp only [Char.toNat, UInt32.toNat_add]
    omega
  · exact .inl h

/-- A digit in lower case is no letter. -/
theorem toLower_ne_of_isDigit {c d : Char} (upper : Char) (hupper : upper.toNat + 32 = d.toNat)
    (hd : isDigit d = false) (hu : isDigit upper = false) (h : isDigit c = true) : c.toLower ≠ d := by
  intro hc
  rcases eq_of_toLower_eq hc with rfl | hn
  · rw [h] at hd
    cases hd
  · obtain rfl : c = upper := Char.toNat_inj.1 (by omega)
    rw [h] at hu
    cases hu

/-- A decimal is no word. -/
theorem map_toLower_ne_of_decimal? {l : Literal} (h : decimal? negative body = some l) (word : Text) :
    body.map Char.toLower ≠ 'n' :: word ∧ body.map Char.toLower ≠ 'i' :: word := by
  obtain ⟨c, rest, rfl, hc⟩ := exists_cons_of_mem_decimal (isSome_decimal?_iff.1 (Option.isSome_of_eq_some h))
  have hhead : c.toLower ≠ 'n' ∧ c.toLower ≠ 'i' := by
    rcases hc with hc | rfl
    · exact ⟨toLower_ne_of_isDigit 'N' rfl (by decide) (by decide) hc,
        toLower_ne_of_isDigit 'I' rfl (by decide) (by decide) hc⟩
    · decide
  exact ⟨fun heq => hhead.1 (List.cons.inj heq).1, fun heq => hhead.2 (List.cons.inj heq).1⟩

/-- What is read once is converted to the same literal. -/
theorem convert?_of_parse? {l : Literal} (h : parse? t = some l) : convert? t = some l := by
  rw [parse?] at h
  rw [convert?]
  simp only at h ⊢
  split at h
  · next hbody =>
    rw [hbody, if_pos (by decide)]
    exact h
  · split at h
    · next hbody =>
      rw [hbody, if_neg (by decide), if_pos (by decide)]
      exact h
    · have hunderscore : '_' ∉ (spanSign t).2 := fun hmem => absurd (isLetter_of_decimal? h _ hmem) (by decide)
      have hwords := map_toLower_ne_of_decimal? h
      rw [if_neg (hwords _).1, if_neg (not_or_intro (hwords _).2 (hwords _).2), joinedFrom_eq hunderscore]
      exact h

end Literal

/-! ## Digits of other scripts -/

namespace Text

variable {t : Text} {c : Char}

/-- The ASCII digit of the same value in place of a digit. -/
def toAsciiDigit (c : Char) : Char :=
  match digit? c with
  | some d => Nat.digitChar d
  | none => c

theorem digit?_eq_some_iff {d : Nat} (h : digit? c = some d) : ∃ z ∈ zeros, c.toNat = z + d ∧ d < 10 := by
  obtain ⟨z, hz, hd⟩ := List.exists_of_findSome?_eq_some h
  split at hd
  · next hrange =>
    rw [Bool.and_eq_true, decide_eq_true_iff, decide_eq_true_iff] at hrange
    cases hd
    exact ⟨z, hz, by omega, by omega⟩
  · cases hd

theorem digit?_digitChar : ∀ d < 10, digit? (Nat.digitChar d) = some d := by decide

theorem toAsciiDigit_of_digit? {d : Nat} (h : digit? c = some d) : toAsciiDigit c = Nat.digitChar d := by
  rw [toAsciiDigit, h]

theorem toAsciiDigit_of_not_isDigit (h : isDigit c = false) : toAsciiDigit c = c := by
  have hc : digit? c = none := by simpa [isDigit] using h
  rw [toAsciiDigit, hc]

theorem digit?_toAsciiDigit (c : Char) : digit? (toAsciiDigit c) = digit? c := by
  cases hc : digit? c with
  | none => rw [toAsciiDigit_of_not_isDigit (by rw [isDigit, hc]; rfl), hc]
  | some d =>
    obtain ⟨-, -, -, hd⟩ := digit?_eq_some_iff hc
    rw [toAsciiDigit_of_digit? hc, digit?_digitChar d hd]

theorem isDigit_toAsciiDigit (c : Char) : isDigit (toAsciiDigit c) = isDigit c := by
  rw [isDigit, digit?_toAsciiDigit, isDigit]

/-- Only a character itself becomes one that is no digit. -/
theorem toAsciiDigit_eq_iff {e : Char} (he : isDigit e = false) : toAsciiDigit c = e ↔ c = e := by
  cases hc : isDigit c with
  | false => rw [toAsciiDigit_of_not_isDigit hc]
  | true =>
    refine iff_of_false ?_ ?_ <;> rintro rfl
    · rw [isDigit_toAsciiDigit, hc] at he
      cases he
    · rw [hc] at he
      cases he

theorem not_isBlank_of_isDigit (h : isDigit c = true) : isBlank c = false := by
  obtain ⟨d, hd⟩ := Option.isSome_iff_exists.1 h
  obtain ⟨z, hz, hc, hlt⟩ := digit?_eq_some_iff hd
  have hall : ∀ z ∈ zeros, ∀ d < 10, isBlank (Char.ofNat (z + d)) = false := by decide +kernel
  rw [← Char.ofNat_toNat c, hc]
  exact hall z hz d hlt

theorem isBlank_toAsciiDigit (c : Char) : isBlank (toAsciiDigit c) = isBlank c := by
  cases hc : isDigit c with
  | false => rw [toAsciiDigit_of_not_isDigit hc]
  | true =>
    rw [not_isBlank_of_isDigit hc]
    exact not_isBlank_of_isDigit ((isDigit_toAsciiDigit c).trans hc)

theorem trim_map_toAsciiDigit (t : Text) : trim (t.map toAsciiDigit) = t.trim.map toAsciiDigit := by
  have hblank : isBlank ∘ toAsciiDigit = isBlank := funext isBlank_toAsciiDigit
  simp only [trim, trimBy, trimEndBy, trimStartBy, List.dropWhile_map, ← List.map_reverse, hblank]

theorem spanDigits_map_toAsciiDigit (t : Text) :
    spanDigits (t.map toAsciiDigit) = ((spanDigits t).1, (spanDigits t).2.map toAsciiDigit) := by
  induction t with
  | nil => rfl
  | cons c t ih =>
    rw [List.map_cons, spanDigits, spanDigits, digit?_toAsciiDigit]
    cases digit? c with
    | none => rfl
    | some d => simp only [ih]

theorem forall_isDigit_map (h : ∀ c ∈ t, isDigit c = true) : ∀ c ∈ t.map toAsciiDigit, isDigit c = true :=
  List.forall_mem_map.2 fun c hc => (isDigit_toAsciiDigit c).trans (h c hc)

theorem noDigitAhead_map (h : NoDigitAhead t) : NoDigitAhead (t.map toAsciiDigit) := by
  intro d hd
  rw [List.head?_map, Option.map_eq_some_iff] at hd
  obtain ⟨c, hc, rfl⟩ := hd
  exact (isDigit_toAsciiDigit c).trans (h c hc)

theorem digitValues_map (t : Text) : digitValues (t.map toAsciiDigit) = digitValues t := by
  simp only [digitValues, List.filterMap_map, Function.comp_def, digit?_toAsciiDigit]

/-- Only a word itself becomes one without digits. -/
theorem map_toAsciiDigit_eq_iff {w : Text} (hw : w.any isDigit = false) : t.map toAsciiDigit = w ↔ t = w := by
  induction w generalizing t with
  | nil => exact List.map_eq_nil_iff
  | cons e w ih =>
    rw [List.any_cons, Bool.or_eq_false_iff] at hw
    cases t with
    | nil => simp
    | cons c t => rw [List.map_cons, List.cons.injEq, List.cons.injEq, toAsciiDigit_eq_iff hw.1, ih hw.2]

end Text

namespace Literal

open Text

variable {t : Text}

theorem spanSign_cons {c : Char} (h : isSign c = false) : spanSign (c :: t) = (false, c :: t) := by
  rw [spanSign.eq_def]
  split
  · next heq => cases heq; exact absurd h (by decide)
  · next heq => cases heq; exact absurd h (by decide)
  · rfl

theorem isSign_toAsciiDigit (c : Char) : isSign (toAsciiDigit c) = isSign c := by
  rw [Bool.eq_iff_iff]
  simp only [isSign, Bool.or_eq_true, beq_iff_eq, toAsciiDigit_eq_iff (e := '+') (by decide),
    toAsciiDigit_eq_iff (e := '-') (by decide)]

theorem spanSign_map_toAsciiDigit (t : Text) :
    spanSign (t.map toAsciiDigit) = ((spanSign t).1, (spanSign t).2.map toAsciiDigit) := by
  cases t with
  | nil => rfl
  | cons c t =>
    cases hc : isSign c with
    | false =>
      rw [List.map_cons, spanSign_cons (by rw [isSign_toAsciiDigit, hc]), spanSign_cons hc]
      rfl
    | true =>
      rw [isSign, Bool.or_eq_true, beq_iff_eq, beq_iff_eq] at hc
      rcases hc with rfl | rfl <;> rfl

theorem exponent?_map_toAsciiDigit (t : Text) : exponent? (t.map toAsciiDigit) = exponent? t := by
  cases t with
  | nil => rfl
  | cons c t =>
    have he : isDigit 'e' = false := by decide
    have hE : isDigit 'E' = false := by decide
    simp only [List.map_cons, exponent?, toAsciiDigit_eq_iff he, toAsciiDigit_eq_iff hE, spanSign_map_toAsciiDigit,
      spanDigits_map_toAsciiDigit]
    cases spanDigits (spanSign t).2 with
    | mk ds rest => cases ds <;> cases rest <;> rfl

theorem decimal?_map_toAsciiDigit (negative : Bool) (t : Text) :
    decimal? negative (t.map toAsciiDigit) = decimal? negative t := by
  have hassemble (whole fraction : List Nat) (tail : Text) :
      assemble negative whole fraction (tail.map toAsciiDigit) = assemble negative whole fraction tail := by
    rw [assemble, exponent?_map_toAsciiDigit, assemble]
  rcases exists_decimal_parts t with ⟨u, w, x, rfl, hu, hw, hx⟩ | ⟨u, v, rfl, hu, hv, hpoint⟩
  · have hmap : toAsciiDigit '.' = '.' := toAsciiDigit_of_not_isDigit (by decide)
    rw [List.map_append, List.map_cons, hmap, List.map_append,
      decimal?_point (forall_isDigit_map hu) (forall_isDigit_map hw) (noDigitAhead_map hx), decimal?_point hu hw hx,
      hassemble, digitValues_map, digitValues_map]
  · have hmap : (v.map toAsciiDigit).head? ≠ some '.' := by
      rw [List.head?_map, Ne, Option.map_eq_some_iff]
      rintro ⟨c, hc, heq⟩
      rw [toAsciiDigit_eq_iff (by decide)] at heq
      exact hpoint (heq ▸ hc)
    rw [List.map_append, decimal?_whole (forall_isDigit_map hu) (noDigitAhead_map hv) hmap,
      decimal?_whole hu hv hpoint, hassemble, digitValues_map]

theorem parse?_map_toAsciiDigit (t : Text) : parse? (t.map toAsciiDigit) = parse? t := by
  have hnan : ['N', 'a', 'N'].any isDigit = false := by decide
  have hinfinity : ['I', 'n', 'f', 'i', 'n', 'i', 't', 'y'].any isDigit = false := by decide
  simp only [parse?, spanSign_map_toAsciiDigit, map_toAsciiDigit_eq_iff hnan, map_toAsciiDigit_eq_iff hinfinity,
    decimal?_map_toAsciiDigit]

end Literal

/-! ## Recognition and conversion -/

/-- A text is recognized and converted to what it reads as at once. -/
theorem parseNumber_eq (t : Text) : parseNumber t = .ok (readNumber? t) := by
  rw [parseNumber, readNumber?]
  simp only [Literal.fullMatch_pattern_iff, ← Literal.isSome_parse?_iff]
  cases hparse : Literal.parse? t.trim with
  | none => rfl
  | some l => simp [Literal.convert?_of_parse? hparse]

theorem isSome_readNumber?_iff (t : Text) : (readNumber? t).isSome = true ↔ t.trim ∈ Literal.language := by
  rw [readNumber?, Option.isSome_map, Literal.isSome_parse?_iff]

/-- A text has a number exactly if it is in the grammar between blanks. Then it is converted, so the conversion never
fails. ASCII digits in place of its digits and blanks around it change nothing. -/
theorem parseNumber_exact (t : Text) :
    ((∃ v, parseNumber t = .ok (some v)) ↔ t.trim ∈ Literal.language) ∧
    (parseNumber t = .ok none ↔ t.trim ∉ Literal.language) ∧
    (t.trim ∈ Literal.language →
      ∃ l, Literal.convert? t.trim = some l ∧ parseNumber t = .ok (some l.value)) ∧
    parseNumber (t.map Text.toAsciiDigit) = parseNumber t ∧
    ∀ u v : Text, (∀ c ∈ u, Text.isBlank c = true) → (∀ c ∈ v, Text.isBlank c = true) →
      parseNumber (u ++ t ++ v) = parseNumber t := by
  refine ⟨?accepted, ?refused, fun h => ?converted, ?digits, fun u v hu hv => ?blanks⟩
  case accepted =>
    rw [parseNumber_eq, ← isSome_readNumber?_iff, Option.isSome_iff_exists]
    simp only [Except.ok.injEq]
  case refused =>
    rw [parseNumber_eq, ← isSome_readNumber?_iff, Option.not_isSome_iff_eq_none, Except.ok.injEq]
  case converted =>
    obtain ⟨l, hl⟩ := Option.isSome_iff_exists.1 (Literal.isSome_parse?_iff.2 h)
    exact ⟨l, Literal.convert?_of_parse? hl, by rw [parseNumber_eq, readNumber?, hl]; rfl⟩
  case digits =>
    rw [parseNumber_eq, parseNumber_eq, readNumber?, Text.trim_map_toAsciiDigit, Literal.parse?_map_toAsciiDigit,
      readNumber?]
  case blanks =>
    have htrim : Text.trim (u ++ t ++ v) = t.trim := Text.trimBy_append hu hv t
    rw [parseNumber_eq, parseNumber_eq, readNumber?, htrim, readNumber?]

theorem parseNumber_exact_sample :
    (∃ l, Literal.convert? ['٣', '.', 'e', '४'] = some l ∧ parseNumber ['٣', '.', 'e', '४'] = .ok (some l.value)) ∧
    parseNumber ['3', '.', 'e', '4'] = parseNumber ['٣', '.', 'e', '४'] ∧
    parseNumber ['\n', '٣', '.', 'e', '४', ' '] = parseNumber ['٣', '.', 'e', '४'] ∧
    parseNumber ['.', 'e', '४'] = .ok none := by
  have htrim : Text.trim ['٣', '.', 'e', '४'] = ['٣', '.', 'e', '४'] := by decide
  have hmap : List.map Text.toAsciiDigit ['٣', '.', 'e', '४'] = ['3', '.', 'e', '4'] := by decide
  obtain ⟨-, -, hconverted, hdigits, hblanks⟩ := parseNumber_exact ['٣', '.', 'e', '४']
  rw [htrim] at hconverted
  rw [hmap] at hdigits
  refine ⟨hconverted (Literal.fullMatch_pattern_iff.1 (by decide)), hdigits,
    hblanks ['\n'] [' '] (List.all_eq_true.1 rfl) (List.all_eq_true.1 rfl), ?_⟩
  exact (parseNumber_exact _).2.1.2 (mt Literal.fullMatch_pattern_iff.2 (by decide))

end Mixfix
