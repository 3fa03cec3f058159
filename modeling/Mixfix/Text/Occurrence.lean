import Mixfix.Text.Basic

/-!
# Occurrences of a text

`pieces sep t` cuts `t` at the occurrences of `sep`, found from the left and never overlapping. Joined again by `sep`,
the pieces give back `t` (`intercalate_pieces`).
-/

namespace Mixfix.Text

/-- Puts a character in front of the first piece. -/
def consPiece (c : Char) : List Text → List Text
  | [] => [[c]]
  | p :: ps => (c :: p) :: ps

/-- Walks a text: `inside` characters of an occurrence found before are still to be passed over. -/
def piecesFrom (sep : Text) : Nat → Text → List Text
  | _, [] => [[]]
  | inside + 1, _ :: rest => piecesFrom sep inside rest
  | 0, c :: rest =>
    if sep.isPrefixOf (c :: rest) then [] :: piecesFrom sep (sep.length - 1) rest
    else consPiece c (piecesFrom sep 0 rest)

/-- The parts of a text between the occurrences of a separator. -/
def pieces (sep t : Text) : List Text := piecesFrom sep 0 t

/-! ## Joining the pieces -/

theorem consPiece_ne_nil (c : Char) (ps : List Text) : consPiece c ps ≠ [] := by
  cases ps <;> simp [consPiece]

theorem piecesFrom_ne_nil (sep : Text) (inside : Nat) (t : Text) : piecesFrom sep inside t ≠ [] := by
  fun_induction piecesFrom sep inside t with
  | case1 => simp
  | case2 inside c rest ih => exact ih
  | case3 => simp
  | case4 => exact consPiece_ne_nil _ _

/-- There is always a piece, if only an empty one. -/
theorem pieces_ne_nil (sep t : Text) : pieces sep t ≠ [] := piecesFrom_ne_nil sep 0 t

theorem intercalate_consPiece (sep : Text) (c : Char) {ps : List Text} (h : ps ≠ []) :
    List.intercalate sep (consPiece c ps) = c :: List.intercalate sep ps := by
  match ps with
  | [p] => simp [consPiece, List.intercalate]
  | p :: q :: ps => simp [consPiece, List.intercalate]

theorem intercalate_piecesFrom {sep : Text} (h : sep ≠ []) (inside : Nat) (t : Text) :
    List.intercalate sep (piecesFrom sep inside t) = t.drop inside := by
  fun_induction piecesFrom sep inside t with
  | case1 => simp [List.intercalate]
  | case2 inside c rest ih => simpa using ih
  | case3 c rest hp ih =>
    obtain ⟨tail, ht⟩ := List.isPrefixOf_iff_prefix.1 hp
    obtain ⟨p, ps, hps⟩ := List.exists_cons_of_ne_nil (piecesFrom_ne_nil sep (sep.length - 1) rest)
    rw [hps] at ih ⊢
    have htail : rest.drop (sep.length - 1) = tail := by
      match sep, h with
      | s :: sep, _ =>
        simp only [List.cons_append, List.cons.injEq] at ht
        simp [← ht.2]
    rw [List.intercalate_cons_cons, ih, htail]
    simpa using ht
  | case4 c rest hp ih =>
    rw [intercalate_consPiece sep c (piecesFrom_ne_nil _ _ _), ih]
    rfl

/-- Joined by the separator, the pieces of a text are the text. -/
theorem intercalate_pieces {sep : Text} (h : sep ≠ []) (t : Text) : List.intercalate sep (pieces sep t) = t :=
  intercalate_piecesFrom h 0 t

end Mixfix.Text
