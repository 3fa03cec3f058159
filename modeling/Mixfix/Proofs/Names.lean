import Mathlib.Data.List.Infix
import Mathlib.Data.List.TakeWhile
import Mixfix.Parse
import Mixfix.Proofs.Sections

/-!
# Names apart from tokens

A section is looked up by its text without the blanks around it. If names contain no token, not even without the blanks
around the token (`Registry.Spares`), a section with a fixed token is no name (`TokenList.Faithful.trimmedText_ne`), and
a section of one other token is looked up by the text of this token (`TokenList.Faithful.trimmedText_eq`).
-/

namespace Mixfix

/-! ## Trimming -/

namespace Text

variable {p : Char → Bool} {s t c u v : Text}

/-- The text neither begins nor ends with a character of the class. -/
def Clean (p : Char → Bool) (c : Text) : Prop :=
  (∀ x, c.head? = some x → p x = false) ∧ ∀ x, c.getLast? = some x → p x = false

theorem trimStartBy_eq (hu : ∀ x ∈ u, p x = true) (hc : ∀ x, c.head? = some x → p x = false) :
    trimStartBy p (u ++ c) = c := by
  rw [trimStartBy, List.dropWhile_append_of_pos hu]
  match c with
  | [] => rfl
  | x :: c => rw [List.dropWhile_cons_of_neg (by simp [hc x rfl])]

theorem trimEndBy_eq (hv : ∀ x ∈ v, p x = true) (hc : ∀ x, c.getLast? = some x → p x = false) :
    trimEndBy p (c ++ v) = c := by
  have hstart := trimStartBy_eq (u := v.reverse) (c := c.reverse) (fun x hx => hv x (List.mem_reverse.1 hx))
    (by simpa [List.head?_reverse] using hc)
  rw [trimStartBy] at hstart
  rw [trimEndBy, List.reverse_append, hstart, List.reverse_reverse]

/-- Trimming drops all that stands around clean text. -/
theorem trimBy_eq (hu : ∀ x ∈ u, p x = true) (hv : ∀ x ∈ v, p x = true) (hc : Clean p c) :
    trimBy p (u ++ c ++ v) = c := by
  rw [trimBy]
  match c with
  | [] =>
    have hall : trimStartBy p (u ++ [] ++ v) = [] := by
      have := trimStartBy_eq (p := p) (u := u ++ v) (c := []) (fun x hx => (List.mem_append.1 hx).elim (hu x) (hv x))
        (by simp)
      simpa using this
    rw [hall]
    rfl
  | x :: c =>
    rw [List.append_assoc, trimStartBy_eq hu (by simpa using hc.1), trimEndBy_eq hv hc.2]

/-- What trimming leaves is clean, and what it drops is of the class. -/
theorem exists_trimBy (p : Char → Bool) (t : Text) : ∃ u c v, t = u ++ c ++ v ∧ (∀ x ∈ u, p x = true) ∧
    (∀ x ∈ v, p x = true) ∧ Clean p c ∧ trimBy p t = c := by
  have hsuffix : t.dropWhile p = trimBy p t ++ ((t.dropWhile p).reverse.takeWhile p).reverse := by
    rw [trimBy, trimEndBy, trimStartBy, ← List.reverse_append, List.takeWhile_append_dropWhile, List.reverse_reverse]
  have hsplit : t = t.takeWhile p ++ trimBy p t ++ ((t.dropWhile p).reverse.takeWhile p).reverse := by
    rw [List.append_assoc, ← hsuffix, List.takeWhile_append_dropWhile]
  refine ⟨_, _, _, hsplit, fun x hx => List.mem_takeWhile_imp hx,
    fun x hx => List.mem_takeWhile_imp (List.mem_reverse.1 hx), ⟨fun x hx => ?_, fun x hx => ?_⟩, rfl⟩
  · have hhead : (t.dropWhile p).head? = some x := by
      rw [hsuffix, List.head?_append, hx]
      rfl
    have := List.head?_dropWhile_not p t
    rw [hhead] at this
    simpa using this
  · rw [trimBy, trimEndBy, List.getLast?_reverse, trimStartBy] at hx
    have := List.head?_dropWhile_not p (t.dropWhile p).reverse
    rw [hx] at this
    simpa using this

theorem trimBy_append (hu : ∀ x ∈ u, p x = true) (hv : ∀ x ∈ v, p x = true) (t : Text) :
    trimBy p (u ++ t ++ v) = trimBy p t := by
  obtain ⟨u', c, v', ht, hu', hv', hc, htrim⟩ := exists_trimBy p t
  have hassoc : u ++ t ++ v = (u ++ u') ++ c ++ (v' ++ v) := by rw [ht]; simp
  rw [htrim, hassoc]
  exact trimBy_eq (fun x hx => (List.mem_append.1 hx).elim (hu x) (hu' x))
    (fun x hx => (List.mem_append.1 hx).elim (hv' x) (hv x)) hc

theorem infix_trimStartBy (hc : ∀ x, c.head? = some x → p x = false) (h : c <:+: s) : c <:+: trimStartBy p s := by
  obtain ⟨u, v, rfl⟩ := h
  rw [trimStartBy, List.append_assoc, List.dropWhile_append]
  split
  · match c with
    | [] => exact List.nil_infix
    | x :: c =>
      rw [List.cons_append, List.dropWhile_cons_of_neg (by simp [hc x rfl])]
      exact (List.prefix_append _ v).isInfix
  · exact ⟨u.dropWhile p, v, by rw [List.append_assoc]⟩

/-- Clean text within a text stays there when the text is trimmed. -/
theorem infix_trimBy (hc : Clean p c) (h : c <:+: s) : c <:+: trimBy p s := by
  have hend := infix_trimStartBy (p := p) (c := c.reverse) (s := (trimStartBy p s).reverse)
    (by simpa [List.head?_reverse] using hc.2) (List.reverse_infix.2 (infix_trimStartBy hc.1 h))
  rw [trimBy, trimEndBy, ← List.reverse_infix, List.reverse_reverse]
  exact hend

/-- Text within a text is within it trimmed, when it is trimmed itself. -/
theorem trim_infix_trim (h : t <:+: s) : t.trim <:+: s.trim := by
  obtain ⟨u, c, v, ht, -, -, hc, htrim⟩ := exists_trimBy isBlank t
  have hct : c <:+: t := ⟨u, v, ht.symm⟩
  rw [trim, htrim, trim]
  exact infix_trimBy hc (hct.trans h)

theorem isBlank_of_mem_spaces {n : Nat} {x : Char} (hx : x ∈ spaces n) : isBlank x = true := by
  rw [List.eq_of_mem_replicate hx]
  decide

/-- Spaces around a text are trimmed. -/
theorem trim_spaces (m n : Nat) (t : Text) : trim (spaces m ++ t ++ spaces n) = t.trim :=
  trimBy_append (fun _ hx => isBlank_of_mem_spaces hx) (fun _ hx => isBlank_of_mem_spaces hx) t

theorem trim_trim (t : Text) : t.trim.trim = t.trim := by
  obtain ⟨u, c, v, -, -, -, hc, htrim⟩ := exists_trimBy isBlank t
  have hself := trimBy_eq (p := isBlank) (u := []) (v := []) (by simp) (by simp) hc
  rw [List.nil_append, List.append_nil] at hself
  rw [trim, trim, htrim, hself]

theorem clean_of_trim_eq (h : t.trim = t) : Clean isSpace t := by
  obtain ⟨u, c, v, -, -, -, hc, htrim⟩ := exists_trimBy isBlank t
  have hspace (x : Char) (hx : isBlank x = false) : isSpace x = false := by
    rw [isSpace, beq_eq_false_iff_ne]
    rintro rfl
    cases hx
  rw [trim, htrim] at h
  rw [← h]
  exact ⟨fun x hx => hspace x (hc.1 x hx), fun x hx => hspace x (hc.2 x hx)⟩

end Text

theorem readNumber?_spaces (m n : Nat) (t : Text) :
    readNumber? (Text.spaces m ++ t ++ Text.spaces n) = readNumber? t := by
  rw [readNumber?, Text.trim_spaces, readNumber?]

/-- A trimmed text reads as the number that the text reads as. -/
theorem readNumber?_trim (t : Text) : readNumber? t.trim = readNumber? t := by
  rw [readNumber?, Text.trim_trim, readNumber?]

/-! ## Texts of sections -/

/-- What a row writes contains the text of each token. -/
theorem Row.infix_render {r : Row} {t : Token} (h : t ∈ r.tokens) : t.text <:+: r.render := by
  obtain ⟨s, hs, rfl⟩ := List.mem_map.1 h
  obtain ⟨us, vs, hitems⟩ := List.append_of_mem hs
  refine ⟨us.flatMap Spaced.render ++ Text.spaces s.spaces, vs.flatMap Spaced.render ++ Text.spaces r.trailing, ?_⟩
  rw [render, hitems]
  simp [Spaced.render]

namespace TokenList

variable {l : TokenList} {t : Token}

/-- The text of a faithful list contains the text of each token. -/
theorem Faithful.infix_text (h : l.Faithful) (ht : t ∈ l.tokens) : t.text <:+: l.text := by
  rw [h]
  exact Row.infix_render ht

/-- The text of a faithful list of one token is that of the token between spaces. -/
theorem Faithful.text_eq (h : l.Faithful) (ht : l.tokens = [t]) :
    ∃ m n, l.text = Text.spaces m ++ t.text ++ Text.spaces n := by
  rw [Row.tokens] at ht
  obtain ⟨s, hs, rfl⟩ := List.map_eq_singleton_iff.1 ht
  refine ⟨s.spaces, l.trailing, ?_⟩
  rw [h, Row.render, hs]
  simp [Spaced.render]

theorem Faithful.trimmedText_nil (h : l.Faithful) (ht : l.tokens = []) : l.trimmedText = [] := by
  rw [Row.tokens, List.map_eq_nil_iff] at ht
  have hnil : Text.trim [] = [] := rfl
  have htrim := Text.trim_spaces l.trailing 0 []
  rw [hnil, List.append_nil, Text.spaces, Text.spaces, List.replicate_zero, List.append_nil] at htrim
  rw [trimmedText, h, Row.render, ht]
  exact htrim

theorem Faithful.trimmedText_eq (h : l.Faithful) (ht : l.tokens = [t]) : l.trimmedText = t.text.trim := by
  obtain ⟨m, n, htext⟩ := h.text_eq ht
  rw [trimmedText, htext, Text.trim_spaces]

theorem Faithful.readNumber?_eq (h : l.Faithful) (ht : l.tokens = [t]) : readNumber? l.text = readNumber? t.text := by
  obtain ⟨m, n, htext⟩ := h.text_eq ht
  rw [htext, readNumber?_spaces]

end TokenList

/-! ## Names -/

variable {α : Type}

/-- A name that no number literal and no text with a token can be taken for. -/
structure Registry.Spares (r : Registry α) (name : Text) : Prop where
  ne_nil : name ≠ []
  not_number : readNumber? name = none
  no_token : ∀ t ∈ r.tokens, ¬ t.trim <:+: name

instance (r : Registry α) (name : Text) : Decidable (r.Spares name) :=
  decidable_of_iff (name ≠ [] ∧ (readNumber? name).isNone = true ∧ ∀ t ∈ r.tokens, ¬ t.trim <:+: name)
    ⟨fun ⟨hne, hnumber, htoken⟩ => ⟨hne, Option.isNone_iff_eq_none.1 hnumber, htoken⟩,
      fun ⟨hne, hnumber, htoken⟩ => ⟨hne, Option.isNone_iff_eq_none.2 hnumber, htoken⟩⟩

/-- The names of variables and functions are apart from number literals and tokens. -/
structure Grammar.NamesApart (g : Grammar α) : Prop where
  vars : ∀ name ∈ g.vars, g.operators.Spares name
  functions : ∀ name ∈ g.functions, g.operators.Spares name

/-- A section with a fixed token is no name. -/
theorem TokenList.Faithful.trimmedText_ne {l : TokenList} (h : l.Faithful) {r : Registry α} {name t : Text}
    (hn : r.Spares name) (ht : .fixed t ∈ l.tokens) (hr : t ∈ r.tokens) : l.trimmedText ≠ name := by
  rintro rfl
  exact hn.no_token t hr (Text.trim_infix_trim (h.infix_text ht))

end Mixfix
