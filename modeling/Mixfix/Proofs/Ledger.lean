import Mathlib.Data.List.Basic
import Mixfix.Proofs.Registry
import Mixfix.Session

/-!
# Sessions without addresses

A session amounts to a ledger: its builder and its expressions as values (`Session.ledger`). As long as the builder and
the expressions have tables of their own (`Session.Separate`), what is written for one of them is not seen by another,
so each step changes the ledger as if there were no addresses (`Session.Separate.ledger_step`), and the tables stay
apart (`Session.Separate.step`). Over whole sessions, an expression is changed by its own commands only
(`Session.expression?_after`), and the builder by none of those that are for expressions (`Session.builder_after`).
-/

namespace Mixfix

/-! ## Heaps -/

namespace Heap

variable {α : Type} {h : Heap α} {a a' : Nat}

theorem read_write_self (ha : a < h.next) (t : Table Text α) : (h.write a t).read a = t := by
  simp only [next] at ha
  simp [read, write, List.getD_eq_getElem?_getD, ha]

theorem read_write_ne (hne : a ≠ a') (t : Table Text α) : (h.write a t).read a' = h.read a' := by
  simp [read, write, List.getD_eq_getElem?_getD, List.getElem?_set_ne hne]

theorem read_alloc_of_lt (ha : a < h.next) (t : Table Text α) : (h.alloc t).read a = h.read a := by
  simp only [next] at ha
  simp [read, alloc, List.getD_eq_getElem?_getD, List.getElem?_append_left ha]

theorem read_alloc_next (h : Heap α) (t : Table Text α) : (h.alloc t).read h.next = t := by
  simp [read, alloc, next, List.getD_eq_getElem?_getD]

theorem next_write (h : Heap α) (a : Nat) (t : Table Text α) : (h.write a t).next = h.next := List.length_set

theorem next_alloc (h : Heap α) (t : Table Text α) : (h.alloc t).next = h.next + 1 := by
  simp [next, alloc]

end Heap

/-! ## Keys -/

namespace Table

variable {κ α : Type} [BEq κ] [LawfulBEq κ] {t : Table κ α} {k : κ}

theorem contains_iff_mem_keys : t.contains k = true ↔ k ∈ t.keys := by
  obtain ⟨es⟩ := t
  induction es with
  | nil => simp [contains, get?, keys]
  | cons e es ih =>
    obtain ⟨k', v⟩ := e
    simp only [contains, get?, keys, List.lookup_cons, List.map_cons, List.mem_cons] at ih ⊢
    by_cases hk : k = k'
    · simp [hk]
    · rw [beq_false_of_ne hk, or_iff_right hk]
      exact ih

/-- Binding a key anew leaves the keys as they are. -/
theorem keys_insert (h : t.contains k = true) (v : α) : (t.insert k v).keys = t.keys := by
  obtain ⟨es⟩ := t
  rw [contains_iff_mem_keys] at h
  simp only [insert, keys] at h ⊢
  induction es with
  | nil => cases h
  | cons e es ih =>
    rw [insertEntry]
    split
    · rfl
    · next hk =>
      rcases List.mem_cons.1 h with rfl | h
      · exact absurd (beq_self_eq_true _) hk
      · rw [List.map_cons, List.map_cons, ih h]

end Table

variable {κ : Type}

/-! ## Other values -/

/-- The second expression is the first one with other values for its names. -/
structure Expression.Revised (e e' : Expression κ) : Prop where
  tree : e'.tree = e.tree
  source : e'.source = e.source
  vars : e'.vars.keys = e.vars.keys
  functions : e'.functions.keys = e.functions.keys

namespace Expression

/-- The expression after a change, or as it was if it was not changed. -/
def changed (change? : Expression κ → Option (Expression κ)) (e : Expression κ) : Expression κ :=
  (change? e).getD e

variable {e e' e'' : Expression κ} {name : Text}

theorem Revised.refl (e : Expression κ) : Revised e e := ⟨rfl, rfl, rfl, rfl⟩

theorem Revised.trans (h : Revised e e') (h' : Revised e' e'') : Revised e e'' :=
  ⟨h'.tree.trans h.tree, h'.source.trans h.source, h'.vars.trans h.vars, h'.functions.trans h.functions⟩

theorem revised_setVariable? {value : Float} (h : e.setVariable? name value = some e') : Revised e e' := by
  rw [setVariable?] at h
  split at h
  · next hname =>
    cases h
    exact ⟨rfl, rfl, Table.keys_insert hname value, rfl⟩
  · cases h

theorem revised_redefineFunction? {body : Body κ} {least : Option Int}
    (h : e.redefineFunction? name body least = some e') : Revised e e' := by
  rw [redefineFunction?] at h
  split at h
  · next hname =>
    cases h
    exact ⟨rfl, rfl, rfl, Table.keys_insert hname _⟩
  · cases h

theorem revised_changed {change? : Expression κ → Option (Expression κ)}
    (h : ∀ e', change? e = some e' → Revised e e') : Revised e (e.changed change?) := by
  rw [changed]
  cases hchange : change? e with
  | none => exact .refl e
  | some e' => exact h e' hchange

end Expression

/-! ## Ledgers -/

/-- A builder and its expressions as values. -/
structure Ledger (κ : Type) where
  builder : Builder κ
  expressions : List (Expression κ)

/-- The builder after a command. -/
def Builder.next (b : Builder κ) : Command κ → Builder κ
  | .register r => (b.register r).toOption.getD b
  | .build text => { b with operators := b.consulted text }
  | .groups => { b with operators := b.operators.groups.2 }
  | .views | .evaluate _ | .report _ | .setVariable .. | .redefineFunction .. | .inspect _ => b

/-- The ledger after a command. -/
def Ledger.next (l : Ledger κ) (c : Command κ) : Ledger κ :=
  { builder := l.builder.next c
    expressions :=
      match c with
      | .build text => l.expressions ++ (l.builder.build text).toOption.toList
      | .setVariable i name value => l.expressions.modify i (.changed (·.setVariable? name value))
      | .redefineFunction i name body least =>
        l.expressions.modify i (.changed (·.redefineFunction? name body least))
      | .register _ | .views | .groups | .evaluate _ | .report _ | .inspect _ => l.expressions }

namespace Session

variable {s : Session κ}

/-- What the session amounts to. -/
def ledger (s : Session κ) : Ledger κ := ⟨s.builder, s.expressions.map s.load⟩

theorem expression?_eq (s : Session κ) (i : Nat) : s.expression? i = s.ledger.expressions[i]? := by
  rw [expression?, ledger, List.getElem?_map]

/-- Where the tables of the builder and of the expressions are. -/
def owned (s : Session κ) : List Places := s.places :: s.expressions.map Held.places

/-- The builder and the expressions have tables of their own. -/
structure Separate (s : Session κ) : Prop where
  apart : s.owned.Pairwise fun p p' => p.vars ≠ p'.vars ∧ p.functions ≠ p'.functions
  bounded : ∀ p ∈ s.owned, p.vars < s.vars.next ∧ p.functions < s.functions.next

/-- Sessions whose owners and heaps are of the same kind are alike in this. -/
theorem Separate.congr {s' : Session κ} (h : s.Separate) (howned : s'.owned = s.owned)
    (hvars : s'.vars.next = s.vars.next) (hfunctions : s'.functions.next = s.functions.next) : s'.Separate where
  apart := by
    rw [howned]
    exact h.apart
  bounded := by
    rw [howned, hvars, hfunctions]
    exact h.bounded

/-! ## Writing and adding tables -/

theorem load_writeTables_self {h : Held κ} (hvars : h.places.vars < s.vars.next)
    (hfunctions : h.places.functions < s.functions.next) (vars : Table Text Float)
    (functions : Table Text (Function κ)) :
    (s.writeTables h.places vars functions).load h = ⟨h.tree, vars, functions, h.source⟩ := by
  rw [load, writeTables, Heap.read_write_self hvars, Heap.read_write_self hfunctions]

theorem load_writeTables_ne {h : Held κ} {p : Places}
    (hne : p.vars ≠ h.places.vars ∧ p.functions ≠ h.places.functions) (vars : Table Text Float)
    (functions : Table Text (Function κ)) : (s.writeTables p vars functions).load h = s.load h := by
  rw [load, writeTables, Heap.read_write_ne hne.1, Heap.read_write_ne hne.2, load]

theorem builder_writeTables_ne {p : Places} (hne : p.vars ≠ s.places.vars ∧ p.functions ≠ s.places.functions)
    (vars : Table Text Float) (functions : Table Text (Function κ)) :
    (s.writeTables p vars functions).builder = s.builder := by
  rw [builder, writeTables, Heap.read_write_ne hne.1, Heap.read_write_ne hne.2, builder]

namespace Separate

theorem apart_builder (h : s.Separate) {held : Held κ} (hm : held ∈ s.expressions) :
    s.places.vars ≠ held.places.vars ∧ s.places.functions ≠ held.places.functions :=
  (List.pairwise_cons.1 h.apart).1 _ (List.mem_map_of_mem hm)

theorem apart_expressions (h : s.Separate) {i j : Nat} {held held' : Held κ} (hi : s.expressions[i]? = some held)
    (hj : s.expressions[j]? = some held') (hne : i ≠ j) :
    held.places.vars ≠ held'.places.vars ∧ held.places.functions ≠ held'.places.functions := by
  have hpairwise := List.pairwise_map.1 (List.pairwise_cons.1 h.apart).2
  rw [List.pairwise_iff_getElem] at hpairwise
  obtain ⟨hilt, rfl⟩ := List.getElem?_eq_some_iff.1 hi
  obtain ⟨hjlt, rfl⟩ := List.getElem?_eq_some_iff.1 hj
  rcases Nat.lt_or_gt_of_ne hne with hlt | hlt
  · exact hpairwise i j hilt hjlt hlt
  · exact (hpairwise j i hjlt hilt hlt).imp Ne.symm Ne.symm

theorem bounded_expression (h : s.Separate) {held : Held κ} (hm : held ∈ s.expressions) :
    held.places.vars < s.vars.next ∧ held.places.functions < s.functions.next :=
  h.bounded _ (List.mem_cons_of_mem _ (List.mem_map_of_mem hm))

/-- The tables of a builder are not those of its expressions. -/
theorem ledger_storeBuilder (h : s.Separate) (b : Builder κ) :
    (s.storeBuilder b).ledger = ⟨b, s.ledger.expressions⟩ := by
  obtain ⟨hvars, hfunctions⟩ := h.bounded _ List.mem_cons_self
  have hbuilder : (s.storeBuilder b).builder = b := by
    rw [storeBuilder, writeTables, builder, Heap.read_write_self hvars, Heap.read_write_self hfunctions]
  have hexpressions : s.expressions.map (s.storeBuilder b).load = s.expressions.map s.load :=
    List.map_congr_left fun held hm => load_writeTables_ne (h.apart_builder hm) b.vars b.functions
  exact congrArg₂ Ledger.mk hbuilder hexpressions

theorem storeBuilder (h : s.Separate) (b : Builder κ) : (s.storeBuilder b).Separate :=
  h.congr rfl (Heap.next_write _ _ _) (Heap.next_write _ _ _)

/-- The tables of an expression are not those of the builder or of another expression. -/
theorem ledger_storeExpression (h : s.Separate) {i : Nat} {e e' : Expression κ} (he : s.expression? i = some e)
    (hrevised : e.Revised e') : (s.storeExpression i e').ledger = ⟨s.builder, s.ledger.expressions.set i e'⟩ := by
  obtain ⟨held, hheld, rfl⟩ := Option.map_eq_some_iff.1 he
  have hm := List.mem_of_getElem? hheld
  obtain ⟨hvars, hfunctions⟩ := h.bounded_expression hm
  have hstore : s.storeExpression i e' = s.writeTables held.places e'.vars e'.functions := by
    rw [storeExpression, hheld]
  have hbuilder := builder_writeTables_ne ((h.apart_builder hm).imp Ne.symm Ne.symm) e'.vars e'.functions
  have hexpressions : s.expressions.map (s.writeTables held.places e'.vars e'.functions).load =
      (s.expressions.map s.load).set i e' := by
    refine List.ext_getElem? fun j => ?_
    rw [List.getElem?_map, List.getElem?_set, List.getElem?_map]
    by_cases hij : i = j
    · subst hij
      have hi : i < (s.expressions.map s.load).length := by
        rw [List.length_map]
        exact (List.getElem?_eq_some_iff.1 hheld).1
      have hheld' : (⟨held.tree, e'.vars, e'.functions, held.source⟩ : Expression κ) = e' := by
        rw [show held.tree = e'.tree from hrevised.tree.symm, show held.source = e'.source from hrevised.source.symm]
      rw [if_pos rfl, if_pos hi, hheld, Option.map_some, load_writeTables_self hvars hfunctions, hheld']
    · rw [if_neg hij]
      cases hj : s.expressions[j]? with
      | none => rfl
      | some held' => exact congrArg some (load_writeTables_ne (h.apart_expressions hheld hj hij) e'.vars e'.functions)
  rw [hstore]
  exact congrArg₂ Ledger.mk hbuilder hexpressions

theorem storeExpression (h : s.Separate) (i : Nat) (e : Expression κ) : (s.storeExpression i e).Separate := by
  rw [Session.storeExpression]
  split
  · exact h.congr rfl (Heap.next_write _ _ _) (Heap.next_write _ _ _)
  · exact h

/-- A new expression has new tables. -/
theorem ledger_adopt (h : s.Separate) (e : Expression κ) :
    (s.adopt e).ledger = ⟨s.builder, s.ledger.expressions ++ [e]⟩ := by
  obtain ⟨hvars, hfunctions⟩ := h.bounded _ List.mem_cons_self
  have hbuilder : (s.adopt e).builder = s.builder := by
    rw [adopt, builder, Heap.read_alloc_of_lt hvars, Heap.read_alloc_of_lt hfunctions, builder]
  have hbefore : s.expressions.map (s.adopt e).load = s.expressions.map s.load := by
    refine List.map_congr_left fun held hm => ?_
    obtain ⟨hvars, hfunctions⟩ := h.bounded_expression hm
    rw [adopt, load, Heap.read_alloc_of_lt hvars, Heap.read_alloc_of_lt hfunctions, load]
  have hnew : (s.adopt e).load (s.hold e) = e := by
    rw [adopt, load, hold, Heap.read_alloc_next, Heap.read_alloc_next]
  have hexpressions : (s.expressions ++ [s.hold e]).map (s.adopt e).load =
      s.expressions.map s.load ++ [e] := by
    rw [List.map_append, hbefore, List.map_singleton, hnew]
  exact congrArg₂ Ledger.mk hbuilder hexpressions

theorem adopt (h : s.Separate) (e : Expression κ) : (s.adopt e).Separate := by
  have howned : (s.adopt e).owned = s.owned ++ [⟨s.vars.next, s.functions.next⟩] := by
    simp [owned, Session.adopt, hold]
  refine ⟨?_, ?_⟩
  · rw [howned, List.pairwise_append]
    refine ⟨h.apart, List.pairwise_singleton _ _, fun p hp p' hp' => ?_⟩
    rw [List.mem_singleton.1 hp']
    exact (h.bounded p hp).imp Nat.ne_of_lt Nat.ne_of_lt
  · intro p hp
    rw [howned] at hp
    rw [Session.adopt, Heap.next_alloc, Heap.next_alloc]
    rcases List.mem_append.1 hp with hp | hp
    · exact (h.bounded p hp).imp Nat.lt_succ_of_lt Nat.lt_succ_of_lt
    · rw [List.mem_singleton.1 hp]
      exact ⟨Nat.lt_succ_self _, Nat.lt_succ_self _⟩

end Separate

/-! ## Steps -/

variable {m : Type → Type} [Monad m] {callbacks : Callbacks κ m}

namespace Separate

/-- What is changed in a session is the value of one expression. -/
theorem ledger_change (h : s.Separate) {change? : Expression κ → Option (Expression κ)}
    (hrevised : ∀ e e', change? e = some e' → e.Revised e') (i : Nat) :
    (s.onExpression i fun e => s.change (m := m) i (change? e)).2.ledger =
      ⟨s.builder, s.ledger.expressions.modify i (.changed change?)⟩ := by
  rw [List.modify_eq_set_getElem?, ← expression?_eq, onExpression]
  cases he : s.expression? i with
  | none => rfl
  | some e =>
    cases hchange : change? e with
    | none =>
      have hset : s.ledger.expressions.set i e = s.ledger.expressions := by
        rw [expression?_eq] at he
        obtain ⟨hi, rfl⟩ := List.getElem?_eq_some_iff.1 he
        exact List.set_getElem_self hi
      simp only [Session.change, Expression.changed, hchange, Option.map_eq_map, Option.map_some, Option.getD_none,
        Option.getD_some, hset]
      rfl
    | some e' =>
      have hrevised := hrevised e e' hchange
      simp only [Session.change, Expression.changed, hchange, Option.map_eq_map, Option.map_some, Option.getD_some,
        h.ledger_storeExpression he hrevised]

theorem change (h : s.Separate) (change? : Expression κ → Option (Expression κ)) (i : Nat) :
    (s.onExpression i fun e => s.change (m := m) i (change? e)).2.Separate := by
  rw [onExpression]
  split
  · unfold Session.change
    split
    · exact h.storeExpression i _
    · exact h
  · exact h

/-- A step changes what the session amounts to as if there were no addresses. -/
theorem ledger_step (h : s.Separate) (callbacks : Callbacks κ m) (c : Command κ) :
    (s.step callbacks c).2.ledger = s.ledger.next c := by
  have honly {i : Nat} {f : Expression κ → m (Reply κ)} : (s.onExpression i fun e => (f e, s)).2.ledger = s.ledger := by
    rw [onExpression]
    split <;> rfl
  have hoperators (r : Registry (Action κ)) : Separate { s with operators := r } := h.congr rfl rfl rfl
  cases c with
  | register r =>
    unfold Session.step Ledger.next Builder.next
    cases hr : s.builder.register r with
    | ok b =>
      simp only [hr, ledger]
      exact h.ledger_storeBuilder b
    | error e =>
      simp only [hr, ledger]
      rfl
  | build text =>
    unfold Session.step Ledger.next Builder.next
    cases hb : s.builder.build text with
    | ok e =>
      simp only [ledger, hb]
      exact (hoperators _).ledger_adopt e
    | error e =>
      simp only [ledger, hb, Except.toOption, Option.toList, List.append_nil]
      rfl
  | views | groups => rfl
  | evaluate i | report i | inspect i => exact honly
  | setVariable i name value => exact h.ledger_change (fun _ _ => Expression.revised_setVariable?) i
  | redefineFunction i name body least => exact h.ledger_change (fun _ _ => Expression.revised_redefineFunction?) i

/-- After a step the tables are apart again. -/
theorem step (h : s.Separate) (callbacks : Callbacks κ m) (c : Command κ) : (s.step callbacks c).2.Separate := by
  have honly {i : Nat} {f : Expression κ → m (Reply κ)} : (s.onExpression i fun e => (f e, s)).2.Separate := by
    rw [onExpression]
    split <;> exact h
  have hoperators (r : Registry (Action κ)) : Separate { s with operators := r } := h.congr rfl rfl rfl
  cases c with
  | register r =>
    rw [Session.step]
    split
    · exact h.storeBuilder _
    · exact h
  | build text =>
    rw [Session.step]
    split
    · exact (hoperators _).adopt _
    · exact hoperators _
  | views => exact h
  | groups => exact hoperators _
  | evaluate i | report i | inspect i => exact honly
  | setVariable i name value => exact h.change _ i
  | redefineFunction i name body least => exact h.change _ i

theorem after (h : s.Separate) (callbacks : Callbacks κ m) (cs : List (Command κ)) :
    (s.after callbacks cs).Separate := by
  induction cs generalizing s with
  | nil => exact h
  | cons c cs ih => exact ih (h.step callbacks c)

theorem ledger_after (h : s.Separate) (callbacks : Callbacks κ m) (cs : List (Command κ)) :
    (s.after callbacks cs).ledger = cs.foldl Ledger.next s.ledger := by
  induction cs generalizing s with
  | nil => rfl
  | cons c cs ih =>
    rw [List.foldl_cons, ← h.ledger_step callbacks c]
    exact ih (h.step callbacks c)

end Separate

/-- The tables of a builder that has built nothing yet are apart. -/
theorem separate_new (limits : Limits) : (new (κ := κ) limits).Separate where
  apart := List.pairwise_singleton _ _
  bounded := by
    intro p hp
    rw [List.mem_singleton.1 hp]
    exact ⟨Nat.zero_lt_one, Nat.zero_lt_one⟩

end Session

/-! ## Runs -/

namespace Builder

variable {b : Builder κ}

/-- A command for an expression leaves the builder as it is. -/
theorem next_of_not_isForBuilder {c : Command κ} (h : c.isForBuilder = false) : b.next c = b := by
  cases c with
  | register r | build text | views | groups => cases h
  | evaluate i | report i | setVariable i name value | redefineFunction i name body least | inspect i => rfl

theorem foldl_next_filter (b : Builder κ) (cs : List (Command κ)) :
    (cs.filter Command.isForBuilder).foldl next b = cs.foldl next b := by
  induction cs generalizing b with
  | nil => rfl
  | cons c cs ih =>
    rw [List.filter_cons, List.foldl_cons]
    split
    · exact ih (b.next c)
    · next hc => rw [ih, next_of_not_isForBuilder (by simpa using hc)]

end Builder

/-- The expression with a number after a command. -/
def Expression.next (i : Nat) (e : Expression κ) : Command κ → Expression κ
  | .setVariable j name value => if j = i then e.changed (·.setVariable? name value) else e
  | .redefineFunction j name body least => if j = i then e.changed (·.redefineFunction? name body least) else e
  | .register _ | .build _ | .views | .groups | .evaluate _ | .report _ | .inspect _ => e

namespace Expression

/-- No command adds a name or removes one. -/
theorem revised_next (i : Nat) (e : Expression κ) (c : Command κ) : Revised e (e.next i c) := by
  cases c with
  | register r | build text | views | groups | evaluate j | report j | inspect j => exact .refl e
  | setVariable j name value =>
    rw [next]
    split
    · exact revised_changed fun _ => revised_setVariable?
    · exact .refl e
  | redefineFunction j name body least =>
    rw [next]
    split
    · exact revised_changed fun _ => revised_redefineFunction?
    · exact .refl e

theorem revised_foldl (i : Nat) (e : Expression κ) (cs : List (Command κ)) : Revised e (cs.foldl (next i) e) := by
  induction cs generalizing e with
  | nil => exact .refl e
  | cons c cs ih => exact (revised_next i e c).trans (ih (e.next i c))

end Expression

namespace Ledger

variable {l : Ledger κ} {i : Nat}

theorem builder_foldl (l : Ledger κ) (cs : List (Command κ)) :
    (cs.foldl next l).builder = cs.foldl Builder.next l.builder := by
  induction cs generalizing l with
  | nil => rfl
  | cons c cs ih => exact ih (l.next c)

theorem length_le_next (l : Ledger κ) (c : Command κ) : l.expressions.length ≤ (l.next c).expressions.length := by
  unfold next
  cases c <;> simp

/-- A command changes no expression but its own. -/
theorem getElem?_next (hi : i < l.expressions.length) (c : Command κ) :
    (l.next c).expressions[i]? = l.expressions[i]?.map (·.next i c) := by
  unfold next
  cases c with
  | build text => simp [List.getElem?_append_left hi, Expression.next]
  | register r | views | groups | evaluate j | report j | inspect j => simp [Expression.next]
  | setVariable j name value | redefineFunction j name body least =>
    simp only [List.getElem?_modify, Expression.next]
    by_cases hj : j = i <;> simp [hj]

theorem getElem?_foldl (hi : i < l.expressions.length) (cs : List (Command κ)) :
    (cs.foldl next l).expressions[i]? = l.expressions[i]?.map fun e => cs.foldl (Expression.next i) e := by
  induction cs generalizing l with
  | nil => simp
  | cons c cs ih =>
    rw [List.foldl_cons, ih (Nat.lt_of_lt_of_le hi (l.length_le_next c)), getElem?_next hi, Option.map_map]
    rfl

end Ledger

namespace Session

variable {m : Type → Type} [Monad m] {s : Session κ}

theorem after_append (s : Session κ) (callbacks : Callbacks κ m) (cs cs' : List (Command κ)) :
    s.after callbacks (cs ++ cs') = (s.after callbacks cs).after callbacks cs' := List.foldl_append

/-- The builder after commands is what the commands that are for it make of it. -/
theorem builder_after (h : s.Separate) (callbacks : Callbacks κ m) (cs : List (Command κ)) :
    (s.after callbacks cs).builder = cs.foldl Builder.next s.builder :=
  (congrArg Ledger.builder (h.ledger_after callbacks cs)).trans (s.ledger.builder_foldl cs)

/-- An expression after commands is what its own commands make of it. -/
theorem expression?_after (h : s.Separate) (callbacks : Callbacks κ m) {text : Text} {e : Expression κ}
    (he : s.builder.build text = .ok e) (cs : List (Command κ)) :
    (s.after callbacks (.build text :: cs)).expression? s.expressions.length =
      some (cs.foldl (Expression.next s.expressions.length) e) := by
  have hbuilt : (s.ledger.next (.build text)).expressions = s.ledger.expressions ++ [e] := by
    show s.ledger.expressions ++ (s.builder.build text).toOption.toList = _
    rw [he]
    rfl
  have hlength : s.ledger.expressions.length = s.expressions.length := List.length_map _
  rw [expression?_eq, h.ledger_after, List.foldl_cons, Ledger.getElem?_foldl, hbuilt]
  · rw [← hlength, List.getElem?_concat_length, Option.map_some]
  · rw [hbuilt, List.length_append, hlength]
    exact Nat.lt_succ_self _

end Session

end Mixfix
