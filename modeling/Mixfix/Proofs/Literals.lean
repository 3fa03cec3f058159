import Mixfix.Number

/-!
# The characters of number literals

A number literal is written with digits, signs, a point and the letters of an exponent or of a name
(`Literal.isLetter_of_parse?`). So a text with another character is no literal.
-/

namespace Mixfix

namespace Literal

/-- The characters that literals are written with, apart from digits. -/
def letters : List Char := ['N', 'a', 'I', 'n', 'f', 'i', 't', 'y', '.', 'e', 'E', '+', '-']

/-- A character that a literal may be written with. -/
def isLetter (c : Char) : Bool := Text.isDigit c || letters.contains c

variable {t body tail : Text} {c : Char}

theorem isLetter_of_mem (h : c ∈ letters) : isLetter c = true := by simp [isLetter, h]

/-- What digits at the start of a text leave, and the digits. -/
theorem isLetter_spanDigits (h : ∀ c ∈ (Text.spanDigits t).2, isLetter c = true) : ∀ c ∈ t, isLetter c = true := by
  induction t with
  | nil => simp
  | cons d t ih =>
    rw [Text.spanDigits] at h
    split at h
    · next x hx =>
      have hd : isLetter d = true := by simp [isLetter, Text.isDigit, hx]
      exact List.forall_mem_cons.2 ⟨hd, ih h⟩
    · exact h

theorem isLetter_spanSign (h : ∀ c ∈ (spanSign t).2, isLetter c = true) : ∀ c ∈ t, isLetter c = true := by
  rw [spanSign.eq_def] at h
  split at h
  · exact List.forall_mem_cons.2 ⟨isLetter_of_mem (by decide), h⟩
  · exact List.forall_mem_cons.2 ⟨isLetter_of_mem (by decide), h⟩
  · exact h

theorem isLetter_of_exponent? {n : Int} (h : exponent? t = some n) : ∀ c ∈ t, isLetter c = true := by
  match t with
  | [] => simp
  | e :: rest =>
    rw [exponent?] at h
    split at h
    · next he =>
      have hletter : isLetter e = true := by rcases he with rfl | rfl <;> exact isLetter_of_mem (by decide)
      refine List.forall_mem_cons.2 ⟨hletter, isLetter_spanSign (isLetter_spanDigits ?_)⟩
      cases hdigits : Text.spanDigits (spanSign rest).2 with
      | mk ds tail =>
        simp only [hdigits] at h
        split at h
        · next heq => cases heq; simp
        · cases h
    · cases h

theorem isLetter_of_assemble {negative : Bool} {whole fraction : List Nat} {l : Literal}
    (h : assemble negative whole fraction tail = some l) : ∀ c ∈ tail, isLetter c = true := by
  obtain ⟨n, hn, -⟩ := Option.map_eq_some_iff.1 h
  exact isLetter_of_exponent? hn

theorem isLetter_of_decimal? {negative : Bool} {l : Literal} (h : decimal? negative t = some l) :
    ∀ c ∈ t, isLetter c = true := by
  have hpoint : isLetter '.' = true := isLetter_of_mem (by decide)
  cases hspan : Text.spanDigits t with
  | mk whole tail =>
    have htail : ∀ c ∈ tail, isLetter c = true := by
      rw [decimal?, hspan] at h
      split at h
      · next rest heq =>
        cases heq
        refine List.forall_mem_cons.2 ⟨hpoint, isLetter_spanDigits ?_⟩
        cases hfraction : Text.spanDigits rest with
        | mk fraction tail =>
          simp only [hfraction] at h
          split at h
          · cases h
          · next heq => cases heq; exact isLetter_of_assemble h
      · cases h
      · next rest _ heq =>
        cases heq
        exact List.forall_mem_cons.2 ⟨hpoint, isLetter_spanDigits (isLetter_of_assemble h)⟩
      · next heq => cases heq; exact isLetter_of_assemble h
    exact isLetter_spanDigits (by rw [hspan]; exact htail)

theorem isLetter_of_parse? {l : Literal} (h : parse? t = some l) : ∀ c ∈ t, isLetter c = true := by
  refine isLetter_spanSign ?_
  rw [parse?] at h
  simp only at h
  split at h
  · next hbody => rw [hbody]; exact List.all_eq_true.1 (by decide)
  · split at h
    · next hbody => rw [hbody]; exact List.all_eq_true.1 (by decide)
    · exact isLetter_of_decimal? h

end Literal

/-- The text of a number is written with the characters of literals, apart from the blanks around it. -/
theorem isLetter_of_readNumber? {t : Text} {v : Float} (h : readNumber? t = some v) :
    ∀ c ∈ t.trim, Literal.isLetter c = true := by
  obtain ⟨l, hl, -⟩ := Option.map_eq_some_iff.1 h
  exact Literal.isLetter_of_parse? hl

end Mixfix
