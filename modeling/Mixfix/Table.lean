/-!
# Tables

A table binds keys to values and remembers the order in which its keys were first bound: binding a key anew replaces
its value in place (`Table.insert`). What a key is bound to is what it was bound to last (`Table.get?_insert`).
-/

namespace Mixfix

/-- Keys with their values, in the order of their first binding. -/
structure Table (κ α : Type) where
  entries : List (κ × α) := []
  deriving Repr

namespace Table

variable {κ α : Type} [BEq κ]

/-- The table without keys. -/
def empty : Table κ α := ⟨[]⟩

/-- The value of a key. -/
def get? (t : Table κ α) (k : κ) : Option α := t.entries.lookup k

/-- Whether a key is bound. -/
def contains (t : Table κ α) (k : κ) : Bool := (t.get? k).isSome

/-- Replaces the value of a key where it stands, or binds the key last. -/
def insertEntry (k : κ) (v : α) : List (κ × α) → List (κ × α)
  | [] => [(k, v)]
  | (k', v') :: rest => if k == k' then (k', v) :: rest else (k', v') :: insertEntry k v rest

/-- Binds a key to a value. -/
def insert (t : Table κ α) (k : κ) (v : α) : Table κ α := ⟨insertEntry k v t.entries⟩

/-- Binds each key of a list, one after the other. -/
def insertAll (t : Table κ α) (bindings : List (κ × α)) : Table κ α :=
  bindings.foldl (fun t b => t.insert b.1 b.2) t

omit [BEq κ] in
/-- The keys, in the order of their first binding. -/
def keys (t : Table κ α) : List κ := t.entries.map Prod.fst

omit [BEq κ] in
/-- The values, in the order of their keys. -/
def values (t : Table κ α) : List α := t.entries.map Prod.snd

/-! ## Look-ups after an insertion -/

variable [LawfulBEq κ]

theorem lookup_insertEntry (k k' : κ) (v : α) (es : List (κ × α)) :
    (insertEntry k v es).lookup k' = if k' == k then some v else es.lookup k' := by
  induction es with
  | nil => simp [insertEntry, List.lookup_cons]; split <;> simp_all
  | cons e es ih =>
    obtain ⟨k₀, v₀⟩ := e
    grind [insertEntry]

/-- An insertion binds its key and leaves every other key as it is. -/
theorem get?_insert (t : Table κ α) (k k' : κ) (v : α) :
    (t.insert k v).get? k' = if k' == k then some v else t.get? k' := lookup_insertEntry k k' v t.entries

/-- A value that is found after an insertion is the one that was inserted, at its key, or was there before. -/
theorem eq_or_of_get?_insert {t : Table κ α} {k k' : κ} {v v' : α} (h : (t.insert k v).get? k' = some v') :
    k' = k ∧ v' = v ∨ t.get? k' = some v' := by
  rw [get?_insert] at h
  split at h
  · next hk => exact Or.inl ⟨eq_of_beq hk, (Option.some.inj h).symm⟩
  · exact Or.inr h

end Table

end Mixfix
