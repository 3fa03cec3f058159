import Mixfix.Proofs.Numerals
import Mixfix.Proofs.Tokenize

/-!
# Signs in number literals

A literal may begin with a sign, and its exponent may: there is no other place for one (`Literal.exists_body`). A minus
sign at the start negates the number behind it, which is a literal by itself (`Literal.exists_of_readNumber?_sign`). A
sign anywhere else in a text with a number literal stands behind a piece that is no literal, be it blanks or what is
before the sign of an exponent. So there are three spellings of number literals (`Literal.spelling_of_readNumber?`).
-/

open scoped Computability

namespace Mixfix

/-! ## Blanks and characters of literals -/

namespace Text

variable {t : Text}

/-- Blanks and characters of literals alone. -/
def Numeric (t : Text) : Prop := ∀ c ∈ t, isBlank c = true ∨ Literal.isLetter c = true

theorem numeric_of_readNumber? {v : Float} (h : readNumber? t = some v) : t.Numeric := by
  obtain ⟨u, c, w, ht, hu, hw, -, htrim⟩ := exists_trimBy isBlank t
  intro x hx
  rw [ht] at hx
  rcases List.mem_append.1 hx with hx | hx
  · rcases List.mem_append.1 hx with hx | hx
    · exact .inl (hu x hx)
    · exact .inr (isLetter_of_readNumber? h x (by rwa [trim, htrim]))
  · exact .inl (hw x hx)

theorem trim_of_forall_isBlank (h : ∀ c ∈ t, isBlank c = true) : t.trim = [] := by
  have := trimBy_eq (p := isBlank) (u := t) (c := []) (v := []) h (by simp) ⟨by simp, by simp⟩
  rwa [List.append_nil, List.append_nil] at this

theorem trim_trimSpaces (t : Text) : t.trimSpaces.trim = t.trim := by
  obtain ⟨u, c, v, ht, hu, hv, -, htrim⟩ := exists_trimBy isSpace t
  have hblank {s : Text} (hs : ∀ x ∈ s, isSpace x = true) : ∀ x ∈ s, isBlank x = true := by
    intro x hx
    rw [beq_iff_eq.1 (hs x hx)]
    rfl
  rw [trimSpaces, htrim, ht]
  exact (trimBy_append (hblank hu) (hblank hv) c).symm

end Text

namespace Literal

open Text

variable {t u v w body : Text} {c z : Char} {negative : Bool} {l : Literal}

/-! ## Where signs stand -/

theorem eq_of_isSign (h : isSign z = true) : z = '+' ∨ z = '-' := by
  rwa [isSign, Bool.or_eq_true, beq_iff_eq, beq_iff_eq] at h

theorem eq_of_isExponentLetter (h : isExponentLetter c = true) : c = 'e' ∨ c = 'E' := by
  rwa [isExponentLetter, Bool.or_eq_true, beq_iff_eq, beq_iff_eq] at h

theorem not_isSign_of_isBlank (h : isBlank c = true) : isSign c = false := by
  rw [Bool.eq_false_iff]
  intro hsign
  rcases eq_of_isSign hsign with rfl | rfl <;> cases h

theorem not_isBlank_of_isLetter (h : isLetter c = true) : isBlank c = false := by
  rcases Bool.or_eq_true_iff.1 h with hdigit | hletter
  · exact not_isBlank_of_isDigit hdigit
  · have hall : letters.all (fun c => !isBlank c) = true := by decide
    simpa using List.all_eq_true.1 hall c (List.contains_iff_mem.1 hletter)

/-- No sign is in the text. -/
def Unsigned (t : Text) : Prop := ∀ c ∈ t, isSign c = false

instance : DecidablePred Unsigned := fun t => List.decidableBAll (fun c => isSign c = false) t

theorem unsigned_append_iff : Unsigned (u ++ v) ↔ Unsigned u ∧ Unsigned v := List.forall_mem_append

/-- What stands before the sign of an exponent: digits or a point, and at last the letter of the exponent. -/
structure Severed (w : Text) : Prop where
  unsigned : Unsigned w
  head : ∃ c rest, w = c :: rest ∧ (isDigit c = true ∨ c = '.')
  last : ∃ c, w.getLast? = some c ∧ isExponentLetter c = true

theorem isDigit_or_point_of_mem_mantissa (h : t ∈ mantissa) : ∀ c ∈ t, isDigit c = true ∨ c = '.' := by
  intro c hc
  rcases h with ⟨_, ⟨u, hu, p, hp, rfl⟩, w, hw, rfl⟩ | ⟨p, rfl, w, hw, rfl⟩
  · rcases List.mem_append.1 hc with hc | hc
    · rcases List.mem_append.1 hc with hc | hc
      · exact .inl ((mem_digits.1 hu).2 c hc)
      · rcases hp with rfl | rfl
        · cases hc
        · exact .inr (List.mem_singleton.1 hc)
    · exact .inl (mem_kstar_ofClass.1 hw c hc)
  · rcases List.mem_append.1 hc with hc | hc
    · exact .inr (List.mem_singleton.1 hc)
    · exact .inl ((mem_digits.1 hw).2 c hc)

theorem not_isSign_of_isDigit_or_point (h : isDigit c = true ∨ c = '.') : isSign c = false := by
  rcases h with h | rfl
  · exact not_isSign_of_isDigit h
  · rfl

theorem unsigned_of_mem_digits (h : t ∈ digits) : Unsigned t :=
  fun c hc => not_isSign_of_isDigit ((mem_digits.1 h).2 c hc)

theorem mem_sign_iff : t ∈ sign ↔ ∃ z, t = [z] ∧ isSign z = true := by
  rw [sign, ← ofClass_or, mem_ofClass]
  exact exists_congr fun z => and_comm

theorem exists_cons_of_mem_mantissa (h : t ∈ mantissa) : ∃ c rest, t = c :: rest ∧ (isDigit c = true ∨ c = '.') :=
  exists_cons_of_mem_decimal ⟨t, h, [], .inl rfl, List.append_nil t⟩

/-- In a decimal without its sign, a sign stands only behind the letter of the exponent. -/
theorem unsigned_or_of_mem_decimal (h : t ∈ mantissa * (1 + exponent)) :
    Unsigned t ∨ ∃ w z ds, t = w ++ z :: ds ∧ Severed w ∧ isSign z = true := by
  obtain ⟨m, hm, x, hx, rfl⟩ := h
  have hmantissa : Unsigned m := fun c hc => not_isSign_of_isDigit_or_point (isDigit_or_point_of_mem_mantissa hm c hc)
  rcases hx with rfl | ⟨_, ⟨e, he, s, hs, rfl⟩, ds, hds, rfl⟩
  · exact .inl (unsigned_append_iff.2 ⟨hmantissa, fun _ => nofun⟩)
  · obtain ⟨c, rfl, hc⟩ : ∃ c, e = [c] ∧ isExponentLetter c = true := by
      rcases he with rfl | rfl
      · exact ⟨'e', rfl, rfl⟩
      · exact ⟨'E', rfl, rfl⟩
    have hletter : Unsigned [c] := by
      intro c' hc'
      rw [List.mem_singleton.1 hc']
      rcases eq_of_isExponentLetter hc with rfl | rfl <;> rfl
    have hbefore : Unsigned (m ++ [c]) := unsigned_append_iff.2 ⟨hmantissa, hletter⟩
    rcases hs with rfl | hs
    · exact .inl (by simpa using unsigned_append_iff.2 ⟨hbefore, unsigned_of_mem_digits hds⟩)
    · obtain ⟨z, rfl, hz⟩ := mem_sign_iff.1 hs
      obtain ⟨d, rest, rfl, hd⟩ := exists_cons_of_mem_mantissa hm
      have hsevered : Severed (d :: rest ++ [c]) := ⟨hbefore, ⟨d, rest ++ [c], rfl, hd⟩, c, List.getLast?_concat, hc⟩
      exact .inr ⟨d :: rest ++ [c], z, ds, by simp, hsevered, hz⟩

theorem not_isExponentLetter_of_isDigit_or_point (h : isDigit c = true ∨ c = '.') : isExponentLetter c = false := by
  rw [Bool.eq_false_iff]
  intro hletter
  rcases eq_of_isExponentLetter hletter with rfl | rfl <;> exact absurd h (by decide)

/-- No literal ends with the letter of an exponent. -/
theorem not_mem_language_of_getLast? (h : t.getLast? = some c) (hc : isExponentLetter c = true) : t ∉ language := by
  rintro ⟨s, -, body, hbody, rfl⟩
  obtain ⟨u, v, rfl, hne, hv⟩ : ∃ u v, body = u ++ v ∧ v ≠ [] ∧ ∀ c ∈ v, isExponentLetter c = false := by
    rcases hbody with (rfl | rfl) | ⟨m, hm, x, hx, rfl⟩
    · exact ⟨[], _, rfl, by decide, by simp [isExponentLetter]⟩
    · exact ⟨[], _, rfl, by decide, by simp [isExponentLetter]⟩
    · rcases hx with rfl | ⟨e, -, ds, hds, rfl⟩
      · obtain ⟨d, rest, rfl, -⟩ := exists_cons_of_mem_mantissa hm
        refine ⟨[], d :: rest, List.append_nil _, List.cons_ne_nil d rest, fun c hc => ?_⟩
        exact not_isExponentLetter_of_isDigit_or_point (isDigit_or_point_of_mem_mantissa hm c hc)
      · obtain ⟨hne, hds⟩ := mem_digits.1 hds
        refine ⟨m ++ e, ds, (List.append_assoc m e ds).symm, hne, fun c hc => ?_⟩
        exact not_isExponentLetter_of_isDigit_or_point (.inl (hds c hc))
  have hlast : (s ++ (u ++ v)).getLast? = some c := h
  rw [← List.append_assoc, List.getLast?_append_of_ne_nil _ hne] at hlast
  rw [hv c (List.mem_of_getLast? hlast)] at hc
  cases hc

theorem Severed.not_mem_language (h : Severed w) : w ∉ language := by
  obtain ⟨c, hlast, hc⟩ := h.last
  exact not_mem_language_of_getLast? hlast hc

/-- A literal is a sign or nothing, and a text in which a sign stands only behind the letter of an exponent. -/
theorem exists_body (h : t ∈ language) : ∃ s body, t = s ++ body ∧ (s = [] ∨ ∃ z, s = [z] ∧ isSign z = true) ∧
    (Unsigned body ∨ ∃ w z ds, body = w ++ z :: ds ∧ Severed w ∧ isSign z = true) := by
  obtain ⟨s, hs, body, hbody, rfl⟩ := h
  refine ⟨s, body, rfl, hs.imp id mem_sign_iff.1, ?_⟩
  rcases hbody with (rfl | rfl) | hbody
  · exact .inl (by decide)
  · exact .inl (by decide)
  · exact unsigned_or_of_mem_decimal hbody

/-! ## The sign of a literal -/

/-- A decimal reads the same with a sign, apart from the sign. -/
theorem exists_of_decimal? (h : decimal? negative t = some l) : ∃ n e, l = .decimal ⟨negative, n, e⟩ ∧
    decimal? false t = some (.decimal ⟨false, n, e⟩) := by
  have hassemble {whole fraction : List Nat} {tail : Text} (h : assemble negative whole fraction tail = some l) :
      ∃ n e, l = .decimal ⟨negative, n, e⟩ ∧ assemble false whole fraction tail = some (.decimal ⟨false, n, e⟩) := by
    obtain ⟨e, he, rfl⟩ := Option.map_eq_some_iff.1 h
    exact ⟨_, _, rfl, by rw [assemble, he]; rfl⟩
  rcases exists_decimal_parts t with ⟨u, w, x, rfl, hu, hw, hx⟩ | ⟨u, v, rfl, hu, hv, hpoint⟩
  · rw [decimal?_point hu hw hx] at h ⊢
    split at h
    · cases h
    · next hne =>
      rw [if_neg hne]
      exact hassemble h
  · rw [decimal?_whole hu hv hpoint] at h ⊢
    split at h
    · cases h
    · next hne =>
      rw [if_neg hne]
      exact hassemble h

theorem value_nan_neg : -nan.value = nan.value := by decide +kernel

theorem value_infinity (negative : Bool) :
    (infinity negative).value = if negative then -(infinity false).value else (infinity false).value := by
  cases negative <;> decide +kernel

theorem value_decimal (negative : Bool) (n : Nat) (e : Int) : (decimal ⟨negative, n, e⟩).value =
    if negative then -(decimal ⟨false, n, e⟩).value else (decimal ⟨false, n, e⟩).value := by
  cases negative <;> rfl

/-- A literal behind a sign is one by itself, and a minus sign negates its value. -/
theorem exists_of_parse?_cons (hz : isSign z = true) (hbody : ∀ c, body.head? = some c → isSign c = false)
    (h : parse? (z :: body) = some l) :
    ∃ l', parse? body = some l' ∧ l.value = if z == '-' then -l'.value else l'.value := by
  have hsign : spanSign (z :: body) = (z == '-', body) := by
    rcases eq_of_isSign hz with rfl | rfl <;> rfl
  have hnone : spanSign body = (false, body) := by
    match body with
    | [] => rfl
    | c :: rest => exact spanSign_cons (hbody c rfl)
  rw [parse?, hsign] at h
  rw [parse?, hnone]
  simp only at h ⊢
  split at h
  · next hnan =>
    rw [if_pos hnan]
    cases h
    exact ⟨nan, rfl, by rw [value_nan_neg, ite_self]⟩
  · next hnan =>
    rw [if_neg hnan]
    split at h
    · next hinfinity =>
      rw [if_pos hinfinity]
      cases h
      exact ⟨_, rfl, value_infinity _⟩
    · next hinfinity =>
      rw [if_neg hinfinity]
      obtain ⟨n, e, rfl, hread⟩ := exists_of_decimal? h
      exact ⟨_, hread, value_decimal _ n e⟩

/-- The number behind a sign is one by itself, and a minus sign negates it. -/
theorem exists_of_readNumber?_sign {n : Nat} {v : Float} (hz : isSign z = true) (hu : Unsigned t)
    (h : readNumber? (spaces n ++ z :: t) = some v) :
    ∃ w, readNumber? t = some w ∧ v = if z == '-' then -w else w := by
  obtain ⟨l, hl, rfl⟩ := Option.map_eq_some_iff.1 h
  obtain ⟨s, c, blanks, htext, hs, hblanks, hc, htrim⟩ := exists_trimBy isBlank (spaces n ++ z :: t)
  rw [trim, htrim] at hl
  have hblank : isBlank z = false := by rcases eq_of_isSign hz with rfl | rfl <;> rfl
  cases c with
  | nil => cases hl
  | cons c body =>
    have hstart := trimStartBy_eq (p := isBlank) (u := spaces n) (c := z :: t) (fun _ hx => isBlank_of_mem_spaces hx)
      (by rintro x ⟨⟩; exact hblank)
    rw [htext, List.append_assoc, trimStartBy_eq hs (by simpa using hc.1)] at hstart
    obtain ⟨rfl, rfl⟩ := List.cons.inj hstart
    obtain ⟨l', hl', hvalue⟩ := exists_of_parse?_cons hz
      (fun x hx => hu x (List.mem_append_left _ (List.mem_of_mem_head? hx))) hl
    have hclean : ∀ x ∈ body, isBlank x = false :=
      fun x hx => not_isBlank_of_isLetter (isLetter_of_parse? hl' x hx)
    have hbody : trim (body ++ blanks) = body := trimBy_eq (u := []) (by simp) hblanks
      ⟨fun x hx => hclean x (List.mem_of_mem_head? hx), fun x hx => hclean x (List.mem_of_getLast? hx)⟩
    have hread : readNumber? (body ++ blanks) = some l'.value := by rw [readNumber?, hbody, hl']; rfl
    exact ⟨l'.value, hread, hvalue⟩

/-! ## Signs behind other characters -/

/-- No sign stands behind the first character that is no space. -/
def NoLaterSign (t : Text) : Prop := Unsigned (trimStartBy isSpace t).tail

instance : DecidablePred NoLaterSign := fun t => inferInstanceAs (Decidable (Unsigned (trimStartBy isSpace t).tail))

theorem Unsigned.noLaterSign (h : Unsigned t) : NoLaterSign t := fun c hc =>
  h c ((List.dropWhile_suffix isSpace).subset (List.mem_of_mem_tail hc))

theorem Unsigned.noLaterSign_sign (h : Unsigned t) (hz : isSign z = true) (n : Nat) :
    NoLaterSign (spaces n ++ z :: t) := by
  have hstart := trimStartBy_eq (p := isSpace) (u := spaces n) (c := z :: t)
    (fun c hc => by rw [List.eq_of_mem_replicate hc]; rfl)
    (by rintro c ⟨⟩; rcases eq_of_isSign hz with rfl | rfl <;> rfl)
  rw [NoLaterSign, hstart]
  exact h

theorem not_noLaterSign (hu : u.trimSpaces ≠ []) (hz : isSign z = true) : ¬ NoLaterSign (u ++ z :: v) := by
  have hne : u.dropWhile isSpace ≠ [] := by
    rw [Ne, List.dropWhile_eq_nil_iff]
    exact mt trimSpaces_eq_nil_iff.2 hu
  obtain ⟨c, rest, hrest⟩ := List.exists_cons_of_ne_nil hne
  intro h
  have hmem : z ∈ (trimStartBy isSpace (u ++ z :: v)).tail := by
    rw [trimStartBy, List.dropWhile_append, hrest]
    simp
  rw [h z hmem] at hz
  cases hz

/-! ## Spellings -/

/-- A piece of a literal that is neither a literal nor a name: blanks, not all of them spaces, or what stands before the
sign of an exponent. -/
structure Piece (w : Text) : Prop where
  numeric : w.Numeric
  unsigned : Unsigned w
  ne_nil : w.trimSpaces ≠ []
  not_number : readNumber? w = none
  head : ∀ c, w.trim.head? = some c → isDigit c = true ∨ c = '.'

theorem piece_of_forall_isBlank (h : ∀ c ∈ u, isBlank c = true) (hne : u.trimSpaces ≠ []) : Piece u where
  numeric c hc := .inl (h c hc)
  unsigned c hc := not_isSign_of_isBlank (h c hc)
  ne_nil := hne
  not_number := by
    rw [← readNumber?_trim, trim_of_forall_isBlank h]
    rfl
  head := by
    rw [trim_of_forall_isBlank h]
    exact fun c => nofun

theorem Severed.piece {w : Text} (h : Severed w) (hn : w.Numeric) (hu : ∀ c ∈ u, isBlank c = true) :
    Piece (u ++ w) := by
  obtain ⟨c, rest, hcons, hc⟩ := h.head
  have hletter : isLetter c = true := by
    rcases hc with hc | rfl
    · rw [isLetter, hc, Bool.true_or]
    · rfl
  have hclean : Clean isBlank w := by
    constructor
    · rw [hcons]
      rintro x ⟨⟩
      exact not_isBlank_of_isLetter hletter
    · obtain ⟨e, hlast, he⟩ := h.last
      rw [hlast]
      rintro x ⟨⟩
      rcases eq_of_isExponentLetter he with rfl | rfl <;> rfl
  have htrim : (u ++ w).trim = w := by
    have := trimBy_eq (v := []) hu (by simp) hclean
    rwa [List.append_nil] at this
  refine ⟨?_, ?_, ?_, ?_, ?_⟩
  · exact List.forall_mem_append.2 ⟨fun x hx => .inl (hu x hx), hn⟩
  · exact unsigned_append_iff.2 ⟨fun x hx => not_isSign_of_isBlank (hu x hx), h.unsigned⟩
  · rw [Ne, trimSpaces_eq_nil_iff]
    intro hall
    have hspace := hall c (by rw [hcons]; simp)
    rw [beq_iff_eq.1 hspace] at hletter
    cases hletter
  · rw [← Option.not_isSome_iff_eq_none, isSome_readNumber?_iff, htrim]
    exact h.not_mem_language
  · rw [htrim, hcons]
    rintro x ⟨⟩
    exact hc

/-- How a text with a number literal is spelled: without signs, with a sign for its first character, spaces apart, or
with a sign behind a piece that is no literal. -/
inductive Spelling : Text → Prop
  | bare {t : Text} (ht : Unsigned t) : Spelling t
  | signed {n : Nat} {z : Char} {t : Text} (hz : isSign z = true) (ht : Unsigned t) : Spelling (spaces n ++ z :: t)
  | broken {p w q : Text} {z : Char} (hp : p = [] ∨ ∃ p' z', p = p' ++ [z'] ∧ isSign z' = true) (hw : Piece w)
      (hz : isSign z = true) : Spelling (p ++ (w ++ z :: q))

theorem spelling_of_readNumber? {v : Float} (h : readNumber? t = some v) : Spelling t := by
  have hnumeric := numeric_of_readNumber? h
  have hsome : (readNumber? t).isSome = true := by rw [h]; rfl
  obtain ⟨u, c, x, ht, hu, hx, -, htrim⟩ := exists_trimBy isBlank t
  rw [isSome_readNumber?_iff, trim, htrim] at hsome
  obtain ⟨s, body, rfl, hs, hbody⟩ := exists_body hsome
  have hunsigned {y : Text} (hy : ∀ c ∈ y, isBlank c = true) : Unsigned y := fun c hc => not_isSign_of_isBlank (hy c hc)
  rcases hbody with hbody | ⟨w, z, ds, rfl, hw, hz⟩
  · have hrest : Unsigned (body ++ x) := unsigned_append_iff.2 ⟨hbody, hunsigned hx⟩
    rcases hs with rfl | ⟨z, rfl, hz⟩
    · have hall : Unsigned (u ++ (body ++ x)) := unsigned_append_iff.2 ⟨hunsigned hu, hrest⟩
      rw [ht, List.nil_append, List.append_assoc]
      exact .bare hall
    · rw [ht, List.append_assoc, List.append_assoc, List.singleton_append]
      by_cases hspaces : u.trimSpaces = []
      · rw [eq_spaces_of_forall (trimSpaces_eq_nil_iff.1 hspaces)]
        exact .signed hz hrest
      · exact .broken (.inl rfl) (piece_of_forall_isBlank hu hspaces) hz
  · have hn : w.Numeric := fun c hc => hnumeric c (by rw [ht]; simp [hc])
    rcases hs with rfl | ⟨z', rfl, hz'⟩
    · have := Spelling.broken (p := []) (q := ds ++ x) (.inl rfl) (hw.piece hn hu) hz
      simpa [ht] using this
    · have := Spelling.broken (p := u ++ [z']) (q := ds ++ x) (.inr ⟨u, z', rfl, hz'⟩)
        (hw.piece (u := []) hn (by simp)) hz
      simpa [ht] using this

theorem Piece.not_noLaterSign {p w q : Text} (h : Piece w) (hz : isSign z = true) :
    ¬ NoLaterSign (p ++ (w ++ z :: q)) := by
  rw [← List.append_assoc]
  refine Literal.not_noLaterSign (mt ?_ h.ne_nil) hz
  rw [trimSpaces_eq_nil_iff, trimSpaces_eq_nil_iff]
  exact fun hall c hc => hall c (List.mem_append_right _ hc)

end Literal

end Mixfix
