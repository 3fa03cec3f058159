import Mathlib.Data.List.Induction
import Mixfix.Operator.Catalogue
import Mixfix.Proofs.Groups

/-!
# What a catalogue holds after any requests

A catalogue keeps one operator for each prefix token, postfix token and sequence of infix tokens (`Slot`), and a group
keeps each of its operators in the table or trie of its kind (`Place`). Whatever was asked of a catalogue before, be it
registrations, registrations that were refused, or groups, it has the operators that were registered last in their slots
and the tokens in the order in which they came (`Catalogue.LastWins`, `Catalogue.lastWins_after`).

* A request is followed by tables that record one request more (`Catalogue.Records.next`).
* Groups that hold some operators hold one more after it is added (`Registry.Filled.add`).
* What the groups are depends on nothing that the requests without effect change (`Catalogue.dropGroups_next`).
-/

namespace Mixfix

variable {α : Type}

/-! ## Slots and places -/

/-- What a catalogue keeps a single operator for. -/
inductive Slot where
  | prefixed (token : Text)
  | postfixed (token : Text)
  | infixed (tokens : List Text)
  deriving DecidableEq

/-- Where a group keeps a single operator. -/
inductive Place where
  | prefixed (token : Text)
  | postfixed (token : Text)
  | infixed (associativity : Associativity) (tokens : List Text)
  deriving DecidableEq

namespace Place

/-- The slot of what is kept in the place. Operators that repeat to different sides share a slot. -/
def slot : Place → Slot
  | prefixed t => .prefixed t
  | postfixed t => .postfixed t
  | infixed _ ts => .infixed ts

end Place

namespace Operator

/-- The place of an operator in the group of its priority; one that is refused has none. -/
def place? (o : Operator α) : Option Place :=
  match o.refusal?, o.fixity with
  | none, .prefixed => some (.prefixed o.token)
  | none, .postfixed => some (.postfixed o.token)
  | none, .infixed a => some (.infixed a o.tokens)
  | _, _ => none

/-- The slot of an operator in a catalogue. -/
def slot? (o : Operator α) : Option Slot := o.place?.map Place.slot

theorem place?_of_refusal? {o : Operator α} {e : Refusal} (h : o.refusal? = some e) : o.place? = none := by
  rw [place?, h]

/-- An operator has a place exactly if it is not refused. -/
theorem exists_place?_iff {o : Operator α} : (∃ p, o.place? = some p) ↔ o.refusal? = none := by
  cases h : o.refusal? with
  | some e => simp [place?_of_refusal? h]
  | none =>
    have hp := fixity_ne_of_refusal? h
    rw [place?, h]
    cases hf : o.fixity <;> simp_all

end Operator

namespace Group

variable {g : Group α} {o : Operator α}

/-- The operator that the group keeps in a place. -/
def at? (g : Group α) : Place → Option (Operator α)
  | .prefixed t => g.prefixOps.get? t
  | .postfixed t => g.postfixOps.get? t
  | .infixed .left ts => g.left.get? ts
  | .infixed .right ts => g.right.get? ts

theorem at?_empty (p : Float) (place : Place) : (empty p : Group α).at? place = none := by
  match place with
  | .prefixed _ | .postfixed _ => rfl
  | .infixed .left ts | .infixed .right ts => exact Trie.get?_empty ts

/-- An operator that is added takes its place and leaves every other one as it is. -/
theorem at?_addPlaced (place : Place) :
    (g.addPlaced o).at? place = if o.place? = some place then some o else g.at? place := by
  cases hrefusal : o.refusal? with
  | some e => simp [addPlaced_of_refusal? hrefusal, Operator.place?_of_refusal? hrefusal]
  | none =>
    rw [addPlaced_of_not_refused hrefusal, put, Operator.place?, hrefusal]
    cases o.fixity with
    | prefixed =>
      cases place with
      | prefixed t => simp [at?, Table.get?_insert, @eq_comm _ t]
      | postfixed _ => simp [at?]
      | infixed a _ => cases a <;> simp [at?]
    | postfixed =>
      cases place with
      | prefixed _ => simp [at?]
      | postfixed t => simp [at?, Table.get?_insert, @eq_comm _ t]
      | infixed a _ => cases a <;> simp [at?]
    | infixed a =>
      cases place with
      | prefixed _ | postfixed _ => cases a <;> simp [at?]
      | infixed a' ts => cases a <;> cases a' <;> simp [at?, Trie.insert, Trie.get?_set, @eq_comm _ ts]
    | unplaced =>
      cases place with
      | prefixed _ | postfixed _ => simp [at?]
      | infixed a _ => cases a <;> simp [at?]

end Group

/-! ## What was registered -/

namespace Request

/-- The operator that the request registers; one that is refused is not registered. -/
def operator? : Request α → Option (Operator α)
  | add o => if o.refusal?.isSome then none else some o
  | addToken _ | groups => none

/-- The tokens that the request registers, in order. -/
def texts : Request α → List Text
  | add o => if o.refusal?.isSome then [] else o.tokens
  | addToken t => [t]
  | groups => []

/-- Whether the request registers something. -/
def registers : Request α → Bool
  | add o => o.refusal?.isNone
  | addToken _ => true
  | groups => false

/-- The operators that some requests register, in order. -/
def operators (qs : List (Request α)) : List (Operator α) := qs.filterMap operator?

/-- The tokens that some requests register, in order and with repeats. -/
def allTexts (qs : List (Request α)) : List Text := qs.flatMap texts

theorem not_refused_of_mem_operators {qs : List (Request α)} {o : Operator α} (ho : o ∈ operators qs) :
    o.refusal? = none := by
  obtain ⟨q, -, hq⟩ := List.mem_filterMap.1 ho
  match q with
  | .add o' =>
    rw [operator?] at hq
    split at hq
    · cases hq
    · next hp =>
      cases hq
      simpa using hp
  | .addToken _ | .groups => cases hq

theorem operators_concat (qs : List (Request α)) (q : Request α) :
    operators (qs ++ [q]) = operators qs ++ q.operator?.toList := by
  rw [operators, List.filterMap_append, List.filterMap_cons]
  cases q.operator? <;> rfl

theorem allTexts_concat (qs : List (Request α)) (q : Request α) : allTexts (qs ++ [q]) = allTexts qs ++ q.texts := by
  simp [allTexts]

/-- The tokens that some requests register beside the built-in ones, in the order of the first registration of each. -/
def newTexts (qs : List (Request α)) : List Text := ((allTexts qs).filter (· ∉ Token.builtinTexts)).eraseDups

end Request

namespace Operator

variable {o o' : Operator α} {os : List (Operator α)}

/-- The operator is among the operators, and none behind it has its slot. -/
def IsLatest (os : List (Operator α)) (o : Operator α) : Prop :=
  ∃ before behind, os = before ++ o :: behind ∧ ∀ o' ∈ behind, o'.slot? ≠ o.slot?

/-- The last of the operators that has a slot. -/
def latest? (os : List (Operator α)) (s : Slot) : Option (Operator α) := os.reverse.find? fun o => o.slot? = some s

theorem latest?_concat (os : List (Operator α)) (o : Operator α) (s : Slot) :
    latest? (os ++ [o]) s = if o.slot? = some s then some o else latest? os s := by
  rw [latest?, List.reverse_append, List.reverse_singleton, List.singleton_append, List.find?_cons]
  by_cases h : o.slot? = some s <;> simp [h, latest?]

theorem latest?_eq_some_iff {s : Slot} : latest? os s = some o ↔ IsLatest os o ∧ o.slot? = some s := by
  rw [latest?, List.find?_eq_some_iff_append]
  constructor
  · rintro ⟨hslot, behind, before, hos, hbehind⟩
    have hslot : o.slot? = some s := by simpa using hslot
    refine ⟨⟨before.reverse, behind.reverse, ?_, fun o' ho' => ?_⟩, hslot⟩
    · rw [← List.reverse_reverse os, hos]
      simp
    · rw [hslot]
      simpa using hbehind o' (List.mem_reverse.1 ho')
  · rintro ⟨⟨before, behind, rfl, hbehind⟩, hslot⟩
    refine ⟨by simpa using hslot, behind.reverse, before.reverse, by simp, fun o' ho' => ?_⟩
    have hne := hbehind o' (List.mem_reverse.1 ho')
    rw [hslot] at hne
    simpa using hne

end Operator

/-! ## Groups that are filled -/

namespace Group

open Priority

variable {g : Group α} {o : Operator α} {os : List (Operator α)}

/-- The group keeps those of the operators that have its priority, each in its place, and nothing else. -/
def Keeps (g : Group α) (os : List (Operator α)) : Prop :=
  ∀ p o, g.at? p = some o ↔ o ∈ os ∧ o.place? = some p ∧ rank g.priority = rank o.priority

theorem keeps_empty {p : Float} (h : ∀ o ∈ os, rank p ≠ rank o.priority) : (empty p).Keeps os := by
  intro place o
  rw [at?_empty]
  constructor
  · rintro ⟨⟩
  · rintro ⟨ho, -, hr⟩
    exact absurd hr (h o ho)

/-- An operator of another priority does not matter. -/
theorem Keeps.concat (h : g.Keeps os) (hr : rank g.priority ≠ rank o.priority) : g.Keeps (os ++ [o]) := by
  intro p o'
  rw [h p o', List.mem_append, List.mem_singleton]
  constructor
  · rintro ⟨ho', hrest⟩
    exact ⟨Or.inl ho', hrest⟩
  · rintro ⟨ho' | rfl, hpo, hro⟩
    · exact ⟨ho', hpo, hro⟩
    · exact absurd hro hr

/-- An operator of the priority of the group is kept if its place is new. -/
theorem Keeps.addPlaced (h : g.Keeps os) (hr : rank g.priority = rank o.priority)
    (hnew : ∀ o' ∈ os, o'.place? ≠ o.place?) : (g.addPlaced o).Keeps (os ++ [o]) := by
  intro p o'
  rw [at?_addPlaced, priority_addPlaced, List.mem_append, List.mem_singleton]
  split
  · next hpo =>
    constructor
    · rintro ⟨⟩
      exact ⟨Or.inr rfl, hpo, hr⟩
    · rintro ⟨ho' | rfl, hpo', -⟩
      · exact absurd (hpo'.trans hpo.symm) (hnew o' ho')
      · rfl
  · next hpo =>
    rw [h p o']
    constructor
    · rintro ⟨ho', hrest⟩
      exact ⟨Or.inl ho', hrest⟩
    · rintro ⟨ho' | rfl, hpo', hro⟩
      · exact ⟨ho', hpo', hro⟩
      · exact absurd hpo' hpo

end Group

namespace Registry

open Priority Mixfix.Group

variable {o : Operator α} {os : List (Operator α)} {gs gs' : List (Group α)} {g : Group α}

/-- There is one group for each priority of the operators, and it keeps those of this priority. -/
structure Filled (os : List (Operator α)) (gs : List (Group α)) : Prop where
  notNaN : ∀ g ∈ gs, g.priority.isNaN = false
  nodup : (gs.map fun g => rank g.priority).Nodup
  ranks : ∀ x, x ∈ gs.map (fun g => rank g.priority) ↔ ∃ o ∈ os, rank o.priority = x
  keeps : ∀ g ∈ gs, g.Keeps os
  sound : ∀ g ∈ gs, g.Sound

theorem filled_nil : Filled (α := α) [] [] := ⟨by simp, List.nodup_nil, by simp, by simp, by simp⟩

theorem Filled.perm (h : Filled os gs) (hp : gs'.Perm gs) : Filled os gs' where
  notNaN g hg := h.notNaN g (hp.mem_iff.1 hg)
  nodup := (hp.map _).nodup_iff.2 h.nodup
  ranks x := (hp.map _).mem_iff.trans (h.ranks x)
  keeps g hg := h.keeps g (hp.mem_iff.1 hg)
  sound g hg := h.sound g (hp.mem_iff.1 hg)

/-- Of the groups only that of the operator's priority changes, and if there is none, there is a new one. -/
theorem mem_addToGroups_cases (hn : (gs.map fun g => rank g.priority).Nodup) (hgs : ∀ g ∈ gs, g.priority.isNaN = false)
    (ho : o.priority.isNaN = false) (hg : g ∈ addToGroups o gs) :
    (g ∈ gs ∧ rank g.priority ≠ rank o.priority) ∨
      (∃ g' ∈ gs, rank g'.priority = rank o.priority ∧ g = g'.addPlaced o) ∨
        (g = (Group.empty o.priority).addPlaced o ∧ ∀ g' ∈ gs, rank g'.priority ≠ rank o.priority) := by
  induction gs with
  | nil => exact Or.inr (Or.inr ⟨List.mem_singleton.1 hg, by simp⟩)
  | cons g₀ gs ih =>
    rw [List.map_cons, List.nodup_cons] at hn
    rw [addToGroups] at hg
    split at hg
    · next heq =>
      rw [beq_iff (hgs g₀ List.mem_cons_self) ho] at heq
      rcases List.mem_cons.1 hg with rfl | hg
      · exact Or.inr (Or.inl ⟨g₀, List.mem_cons_self, heq, rfl⟩)
      · refine Or.inl ⟨List.mem_cons_of_mem _ hg, fun he => hn.1 ?_⟩
        rw [heq, ← he]
        exact List.mem_map_of_mem hg
    · next hne =>
      rw [beq_iff (hgs g₀ List.mem_cons_self) ho] at hne
      rcases List.mem_cons.1 hg with rfl | hg
      · exact Or.inl ⟨List.mem_cons_self, hne⟩
      · rcases ih hn.2 (fun g' hg' => hgs g' (List.mem_cons_of_mem _ hg')) hg with
          ⟨hg, hr⟩ | ⟨g', hg', hr, rfl⟩ | ⟨rfl, hr⟩
        · exact Or.inl ⟨List.mem_cons_of_mem _ hg, hr⟩
        · exact Or.inr (Or.inl ⟨g', List.mem_cons_of_mem _ hg', hr, rfl⟩)
        · exact Or.inr (Or.inr ⟨rfl, List.forall_mem_cons.2 ⟨hne, hr⟩⟩)

/-- Adding an operator of a new place fills it, in the group of its priority. -/
theorem Filled.add (h : Filled os gs) (ho : o.priority.isNaN = false) (hnew : ∀ o' ∈ os, o'.place? ≠ o.place?) :
    Filled (os ++ [o]) (addToGroups o gs) := by
  have hranks := @map_rank_addToGroups _ o gs h.notNaN ho
  have hcases {g : Group α} (hg : g ∈ addToGroups o gs) := mem_addToGroups_cases h.nodup h.notNaN ho hg
  constructor
  case notNaN =>
    intro g hg
    rcases hcases hg with ⟨hg, -⟩ | ⟨g', hg', -, rfl⟩ | ⟨rfl, -⟩
    · exact h.notNaN g hg
    · rw [priority_addPlaced]
      exact h.notNaN g' hg'
    · rw [priority_addPlaced]
      exact ho
  case nodup =>
    rw [hranks]
    split
    · exact h.nodup
    · next hno =>
      rw [← List.concat_eq_append]
      exact List.Nodup.concat hno h.nodup
  case ranks =>
    intro x
    have hold := h.ranks x
    rw [hranks]
    simp only [List.mem_append, List.mem_singleton, or_and_right, exists_or, exists_eq_left]
    split
    · next hmem =>
      rw [hold]
      constructor
      · exact Or.inl
      · rintro (hx | rfl)
        · exact hx
        · exact hold.1 hmem
    · rw [List.mem_append, List.mem_singleton, hold, eq_comm (a := x)]
  case keeps =>
    intro g hg
    rcases hcases hg with ⟨hg, hr⟩ | ⟨g', hg', hr, rfl⟩ | ⟨rfl, hr⟩
    · exact (h.keeps g hg).concat hr
    · exact (h.keeps g' hg').addPlaced hr hnew
    · refine (keeps_empty fun o' ho' he => ?_).addPlaced rfl hnew
      obtain ⟨g', hg', hr'⟩ := List.mem_map.1 ((h.ranks _).2 ⟨o', ho', rfl⟩)
      exact hr g' hg' (hr'.trans he.symm)
  case sound =>
    intro g hg
    rcases hcases hg with ⟨hg, -⟩ | ⟨g', hg', -, rfl⟩ | ⟨rfl, -⟩
    · exact h.sound g hg
    · exact (h.sound g' hg').addPlaced
    · exact (sound_empty _).addPlaced

theorem Filled.foldl {os' : List (Operator α)} (h : Filled os gs) (ho : ∀ o ∈ os', o.priority.isNaN = false)
    (hn : (os ++ os').Pairwise fun o o' => o.place? ≠ o'.place?) :
    Filled (os ++ os') (os'.foldl (fun gs o => addToGroups o gs) gs) := by
  induction os' generalizing os gs with
  | nil => rwa [List.append_nil]
  | cons o os' ih =>
    have hnew (o' : Operator α) (ho' : o' ∈ os) : o'.place? ≠ o.place? :=
      (List.pairwise_append.1 hn).2.2 o' ho' o List.mem_cons_self
    have hadd := h.add (ho o List.mem_cons_self) hnew
    have hassoc : os ++ o :: os' = (os ++ [o]) ++ os' := by simp
    rw [hassoc] at hn ⊢
    exact ih hadd (fun o' ho' => ho o' (List.mem_cons_of_mem _ ho')) hn

/-- A group of filled groups has an operator in some place. -/
theorem Filled.exists_at? (h : Filled os gs) (hp : ∀ o ∈ os, ∃ p, o.place? = some p) (hg : g ∈ gs) :
    ∃ p o, g.at? p = some o := by
  obtain ⟨o, ho, hrank⟩ := (h.ranks _).1 (List.mem_map_of_mem hg)
  obtain ⟨p, hplace⟩ := hp o ho
  exact ⟨p, o, (h.keeps g hg p o).2 ⟨ho, hplace, hrank.symm⟩⟩

/-- An operator that has a place is in one of the filled groups, and in no other. -/
theorem Filled.existsUnique (h : Filled os gs) (ho : o ∈ os) {p : Place} (hplace : o.place? = some p) :
    ∃! g, g ∈ gs ∧ ∃ p, g.at? p = some o := by
  obtain ⟨g, hg, hrank⟩ := List.mem_map.1 ((h.ranks _).2 ⟨o, ho, rfl⟩)
  refine ⟨g, ⟨hg, p, (h.keeps g hg p o).2 ⟨ho, hplace, hrank⟩⟩, ?_⟩
  rintro g' ⟨hg', p', hat⟩
  have hrank' := ((h.keeps g' hg' p' o).1 hat).2.2
  exact List.inj_on_of_nodup_map h.nodup hg' hg (hrank'.trans hrank.symm)

/-- The groups of operators of different places are filled with them, in ascending order. -/
theorem filled_priorityGroups {r : Registry α} (ho : ∀ o ∈ r.operators, o.priority.isNaN = false)
    (hn : r.operators.Pairwise fun o o' => o.place? ≠ o'.place?) : Filled r.operators r.priorityGroups ∧
      r.priorityGroups.Pairwise fun g g' => g.priority < g'.priority := by
  have hfold : Filled r.operators (r.operators.foldl (fun gs o => addToGroups o gs) []) := filled_nil.foldl ho hn
  have hfilled : Filled r.operators r.priorityGroups := hfold.perm (List.mergeSort_perm _ _)
  refine ⟨hfilled, ?_⟩
  have hsorted : r.priorityGroups.Pairwise fun g g' => rank g.priority < rank g'.priority := by
    refine pairwise_mergeSort_of_key (fun a ha b hb => ?_) hfold.nodup
    rw [Bool.eq_iff_iff]
    simp [lt_iff (hfold.notNaN b hb) (hfold.notNaN a ha)]
  exact hsorted.imp_of_mem fun hg hg' hlt => (lt_iff (hfilled.notNaN _ hg) (hfilled.notNaN _ hg')).2 hlt

end Registry

/-! ## Catalogues -/

namespace Catalogue

open Operator

variable {c c' : Catalogue α} {o : Operator α} {os : List (Operator α)} {us : List Text} {qs : List (Request α)}

/-- The operator that the catalogue keeps for a slot. -/
def lookup (c : Catalogue α) : Slot → Option (Operator α)
  | .prefixed t => c.prefixOps.get? t
  | .postfixed t => c.postfixOps.get? t
  | .infixed ts => c.infixOps.get? ts

theorem mem_including {ts : List Text} {t t' : Text} : t' ∈ including ts t ↔ t' = t ∨ t' ∈ ts := by
  rw [including]
  split
  · next h =>
    constructor
    · exact Or.inr
    · rintro (rfl | h')
      · simpa using h
      · exact h'
  · rw [List.mem_append, List.mem_singleton, or_comm]

theorem mem_foldl_including {ts us : List Text} {t : Text} : t ∈ us.foldl including ts ↔ t ∈ us ∨ t ∈ ts := by
  induction us generalizing ts with
  | nil => simp
  | cons u us ih => rw [List.foldl_cons, ih, mem_including, List.mem_cons, or_assoc, or_left_comm]

/-! ### Tokens -/

/-- The tables of tokens agree on the tokens that were registered. -/
structure Knows (us : List Text) (c : Catalogue α) : Prop where
  tokens : c.tokens = Token.builtinTexts ++ (us.filter (· ∉ Token.builtinTexts)).eraseDups
  known : ∀ t, t ∈ c.known ↔ t ∈ c.tokens
  operatorTokens : ∀ t, t ∈ c.operatorTokens ↔ t ∈ c.tokens ∧ t ∉ Token.builtinTexts

theorem Knows.mem_tokens (h : c.Knows us) {t : Text} : t ∈ c.tokens ↔ t ∈ Token.builtinTexts ∨ t ∈ us := by
  rw [h.tokens, List.mem_append, List.mem_eraseDups, List.mem_filter]
  by_cases hb : t ∈ Token.builtinTexts <;> simp [hb]

theorem eraseDups_concat (us : List Text) (t : Text) :
    (us ++ [t]).eraseDups = if t ∈ us then us.eraseDups else us.eraseDups ++ [t] := by
  rw [List.eraseDups_append, List.removeAll, List.filter_singleton]
  by_cases h : t ∈ us <;> simp [h, List.eraseDups_cons]

theorem Knows.addToken (h : c.Knows us) (t : Text) : (c.addToken t).Knows (us ++ [t]) := by
  have hmem : t ∈ c.known ↔ t ∈ Token.builtinTexts ∨ t ∈ us := (h.known t).trans h.mem_tokens
  rw [Catalogue.addToken]
  split
  · next hknown =>
    have hold := hmem.1 (by simpa using hknown)
    refine ⟨?_, h.known, h.operatorTokens⟩
    rw [h.tokens, List.filter_append, List.filter_singleton]
    by_cases hb : t ∈ Token.builtinTexts
    · simp [hb]
    · simp [hb, eraseDups_concat, hold.resolve_left hb]
  · next hknown =>
    obtain ⟨hb, hu⟩ : t ∉ Token.builtinTexts ∧ t ∉ us := by
      rw [← not_or, ← hmem]
      simpa using hknown
    refine ⟨?_, fun t' => ?_, fun t' => ?_⟩
    · simp [h.tokens, hb, hu, List.filter_append, eraseDups_concat]
    · rw [mem_including, h.known, List.mem_append, List.mem_singleton, or_comm]
    · rw [mem_including, h.operatorTokens, List.mem_append, List.mem_singleton, or_and_right, or_comm]
      refine or_congr_right ?_
      constructor
      · rintro rfl
        exact ⟨rfl, hb⟩
      · exact And.left

theorem Knows.foldl (h : c.Knows us) (ts : List Text) : (ts.foldl Catalogue.addToken c).Knows (us ++ ts) := by
  induction ts generalizing c us with
  | nil => rwa [List.append_nil]
  | cons t ts ih =>
    have hrest := ih (h.addToken t)
    rw [List.append_assoc, List.singleton_append] at hrest
    exact hrest

/-- The registry has the tokens of the catalogue. -/
theorem Knows.tokens_registry (h : c.Knows us) : c.registry.tokens = c.tokens := by
  rw [Registry.tokens, registry, h.tokens, List.drop_left]

theorem Knows.registry_addToken (h : c.Knows us) (t : Text) : (c.addToken t).registry = c.registry.addToken t := by
  have hknown : c.known.contains t = c.registry.tokens.contains t := by
    rw [Bool.eq_iff_iff, List.contains_iff_mem, List.contains_iff_mem, h.tokens_registry, h.known]
  rw [Catalogue.addToken, Registry.addToken, hknown]
  split
  · rfl
  · have hlength : Token.builtinTexts.length ≤ c.tokens.length := by
      rw [h.tokens, List.length_append]
      exact Nat.le_add_right _ _
    rw [registry, registry, List.drop_append_of_le_length hlength]

theorem Knows.registry_foldl (h : c.Knows us) (ts : List Text) :
    (ts.foldl Catalogue.addToken c).registry = ts.foldl Registry.addToken c.registry := by
  induction ts generalizing c us with
  | nil => rfl
  | cons t ts ih => rw [List.foldl_cons, List.foldl_cons, ih (h.addToken t), h.registry_addToken]

/-- Registering tokens changes nothing but the tables of tokens. -/
theorem addTokens_eq (ts : List Text) : ∃ tokens known operatorTokens,
    ts.foldl addToken c = { c with tokens, known, operatorTokens } := by
  induction ts generalizing c with
  | nil => exact ⟨c.tokens, c.known, c.operatorTokens, rfl⟩
  | cons t ts ih =>
    obtain ⟨tokens, known, operatorTokens, heq⟩ := @ih (c.addToken t)
    refine ⟨tokens, known, operatorTokens, ?_⟩
    rw [List.foldl_cons, heq, addToken]
    split <;> rfl

/-! ### Operators -/

/-- The tables of operators agree on the operators that were registered. -/
structure Files (os : List (Operator α)) (c : Catalogue α) : Prop where
  lookup : ∀ s, c.lookup s = latest? os s
  nodup_prefix : c.prefixOps.keys.Nodup
  nodup_postfix : c.postfixOps.keys.Nodup
  nodup_infix : c.infixOps.keys.Nodup
  infixTokens : ∀ t, t ∈ c.infixTokens ↔ ∃ ts o, c.infixOps.get? ts = some o ∧ t ∈ ts

/-- The groups and the tables of tokens do not matter. -/
theorem Files.congr (h : c.Files os) (hbefore : c'.prefixOps = c.prefixOps) (hbehind : c'.postfixOps = c.postfixOps)
    (hbetween : c'.infixOps = c.infixOps) (htokens : c'.infixTokens = c.infixTokens) : c'.Files os where
  lookup s := by
    rw [← h.lookup]
    cases s <;> simp [Catalogue.lookup, hbefore, hbehind, hbetween]
  nodup_prefix := hbefore ▸ h.nodup_prefix
  nodup_postfix := hbehind ▸ h.nodup_postfix
  nodup_infix := hbetween ▸ h.nodup_infix
  infixTokens t := by
    rw [htokens, hbetween]
    exact h.infixTokens t

/-- An operator that is put into the catalogue is put into the registry. -/
theorem registry_put : (c.put o).registry = c.registry.put o := by
  rw [put, Registry.put]
  cases o.fixity <;> rfl

/-- Putting an operator into the catalogue changes neither the tables of tokens nor the groups. -/
theorem tokens_put : (c.put o).tokens = c.tokens ∧ (c.put o).known = c.known ∧
    (c.put o).operatorTokens = c.operatorTokens ∧ (c.put o).cached = c.cached := by
  rw [put]
  cases o.fixity <;> exact ⟨rfl, rfl, rfl, rfl⟩

/-- An operator that is not refused is put into its slot. -/
theorem Files.put (h : c.Files os) (hp : o.refusal? = none) : (c.put o).Files (os ++ [o]) := by
  have hlookup {c' : Catalogue α} (hc : ∀ s, c'.lookup s = if o.slot? = some s then some o else c.lookup s) (s : Slot) :
      c'.lookup s = latest? (os ++ [o]) s := by
    rw [hc, latest?_concat, h.lookup]
  rw [Catalogue.put]
  cases hf : o.fixity with
  | prefixed =>
    have hslot : o.slot? = some (.prefixed o.token) := by simp [slot?, place?, hp, hf, Place.slot]
    refine ⟨hlookup fun s => ?_, Table.nodup_keys_insert h.nodup_prefix _ _, h.nodup_postfix, h.nodup_infix,
      h.infixTokens⟩
    cases s <;> simp [Catalogue.lookup, Table.get?_insert, hslot, @eq_comm _ o.token]
  | postfixed =>
    have hslot : o.slot? = some (.postfixed o.token) := by simp [slot?, place?, hp, hf, Place.slot]
    refine ⟨hlookup fun s => ?_, h.nodup_prefix, Table.nodup_keys_insert h.nodup_postfix _ _, h.nodup_infix,
      h.infixTokens⟩
    cases s <;> simp [Catalogue.lookup, Table.get?_insert, hslot, @eq_comm _ o.token]
  | infixed a =>
    have hslot : o.slot? = some (.infixed o.tokens) := by simp [slot?, place?, hp, hf, Place.slot]
    refine ⟨hlookup fun s => ?_, h.nodup_prefix, h.nodup_postfix, Table.nodup_keys_insert h.nodup_infix _ _,
      fun t => ?_⟩
    · cases s <;> simp [Catalogue.lookup, Table.get?_insert, hslot, @eq_comm _ o.tokens]
    · rw [mem_foldl_including, h.infixTokens]
      constructor
      · rintro (ht | ⟨ts, o', hts, ht⟩)
        · exact ⟨o.tokens, o, by simp [Table.get?_insert], ht⟩
        · by_cases heq : ts = o.tokens
          · exact ⟨o.tokens, o, by simp [Table.get?_insert], heq ▸ ht⟩
          · exact ⟨ts, o', by simp [Table.get?_insert, heq, hts], ht⟩
      · rintro ⟨ts, o', hts, ht⟩
        rcases Table.eq_or_of_get?_insert hts with ⟨rfl, -⟩ | hts
        · exact Or.inl ht
        · exact Or.inr ⟨ts, o', hts, ht⟩
  | unplaced => exact absurd hf (fixity_ne_of_refusal? hp)

/-- The operators of the registry are those that the catalogue keeps for its slots. -/
theorem Files.mem_operators (h : c.Files os) : o ∈ c.registry.operators ↔ IsLatest os o ∧ ∃ s, o.slot? = some s := by
  have hkept : (∃ s, c.lookup s = some o) ↔ IsLatest os o ∧ ∃ s, o.slot? = some s := by
    simp only [h.lookup, latest?_eq_some_iff, exists_and_left]
  rw [← hkept]
  simp only [Registry.operators, registry, List.mem_append, Table.mem_values_iff h.nodup_prefix,
    Table.mem_values_iff h.nodup_postfix, Table.mem_values_iff h.nodup_infix]
  constructor
  · rintro ((⟨t, ht⟩ | ⟨t, ht⟩) | ⟨ts, ht⟩)
    · exact ⟨.prefixed t, ht⟩
    · exact ⟨.postfixed t, ht⟩
    · exact ⟨.infixed ts, ht⟩
  · rintro ⟨s, hs⟩
    cases s with
    | prefixed t => exact Or.inl (Or.inl ⟨t, hs⟩)
    | postfixed t => exact Or.inl (Or.inr ⟨t, hs⟩)
    | infixed ts => exact Or.inr ⟨ts, hs⟩

/-- No two operators of the registry have one slot. -/
theorem Files.pairwise_operators (h : c.Files os) :
    c.registry.operators.Pairwise fun o o' => o.slot? ≠ o'.slot? := by
  have hslot {s : Slot} {o : Operator α} (hs : c.lookup s = some o) : o.slot? = some s :=
    (latest?_eq_some_iff.1 ((h.lookup s).symm.trans hs)).2
  have hvalues {κ : Type} [BEq κ] [LawfulBEq κ] {t : Table κ (Operator α)} (slot : κ → Slot) (hn : t.keys.Nodup)
      (ht : ∀ k, t.get? k = c.lookup (slot k)) : t.values.map Operator.slot? = t.keys.map fun k => some (slot k) := by
    rw [Table.values, Table.keys, List.map_map, List.map_map]
    refine List.map_congr_left fun e he => hslot ?_
    rw [← ht]
    exact (Table.lookup_eq_some_iff hn).2 he
  have hnodup : (c.registry.operators.map Operator.slot?).Nodup := by
    rw [Registry.operators, List.map_append, List.map_append, registry, hvalues .prefixed h.nodup_prefix fun k => rfl,
      hvalues .postfixed h.nodup_postfix fun k => rfl, hvalues .infixed h.nodup_infix fun k => rfl]
    refine List.nodup_append'.2 ⟨List.nodup_append'.2 ⟨h.nodup_prefix.map fun t t' he => ?_,
      h.nodup_postfix.map fun t t' he => ?_, ?_⟩, h.nodup_infix.map fun ts ts' he => ?_, ?_⟩
    · simpa using he
    · simpa using he
    · simp [List.disjoint_left]
    · simpa using he
    · simp [List.disjoint_left, or_imp, forall_and]
  exact List.pairwise_map.1 hnodup

/-! ### Requests -/

/-- The catalogue records the requests. -/
structure Records (qs : List (Request α)) (c : Catalogue α) : Prop where
  knows : c.Knows (Request.allTexts qs)
  files : c.Files (Request.operators qs)
  /-- Groups that are kept are up to date. -/
  kept : ∀ gs, c.cached = some gs → gs = c.registry.priorityGroups

theorem records_empty : (empty : Catalogue α).Records [] where
  knows := ⟨rfl, fun _ => Iff.rfl, fun t => by simp [empty]⟩
  files :=
    ⟨fun s => by cases s <;> rfl, List.nodup_nil, List.nodup_nil, List.nodup_nil, fun t => by simp [empty, Table.get?]⟩
  kept _ h := by cases h

/-- An operator that is refused is not registered, and only the groups are dropped. -/
theorem add_of_refusal? {e : Refusal} (h : o.refusal? = some e) : c.add o = (.error e, c.dropGroups) := by
  rw [add, file, h]

theorem add_of_not_refused (h : o.refusal? = none) :
    c.add o = (.ok (), o.tokens.foldl addToken (c.dropGroups.put o)) := by
  rw [add, file, h]

/-- An operator that is not refused is registered with its tokens. -/
theorem Records.add (h : c.Records qs) (hp : o.refusal? = none) :
    (c.add o).2.Records (qs ++ [.add o]) ∧ (c.add o).2.registry = (c.registry.add o).2 := by
  have hdropped : c.dropGroups.Files (Request.operators qs) := h.files.congr rfl rfl rfl rfl
  have hfiles := hdropped.put hp
  obtain ⟨htokens, hknown, hoperators, hcached⟩ := @tokens_put _ c.dropGroups o
  have hknows : (c.dropGroups.put o).Knows (Request.allTexts qs) := by
    refine ⟨?_, ?_, ?_⟩
    · rw [htokens]
      exact h.knows.tokens
    · rw [htokens, hknown]
      exact h.knows.known
    · rw [htokens, hoperators]
      exact h.knows.operatorTokens
  have htexts : Request.allTexts (qs ++ [.add o]) = Request.allTexts qs ++ o.tokens := by
    simp [Request.allTexts_concat, Request.texts, hp]
  have hregistered : Request.operators (qs ++ [.add o]) = Request.operators qs ++ [o] := by
    simp [Request.operators_concat, Request.operator?, hp]
  obtain ⟨tokens, known, operatorTokens, heq⟩ := @addTokens_eq _ (c.dropGroups.put o) o.tokens
  rw [add_of_not_refused hp, Registry.add_of_not_refused hp]
  refine ⟨⟨?_, ?_, fun gs hgs => ?_⟩, ?_⟩
  · rw [htexts]
    exact hknows.foldl o.tokens
  · rw [hregistered, heq]
    exact hfiles.congr rfl rfl rfl rfl
  · rw [heq] at hgs
    exact absurd (hcached.symm.trans hgs) (by rintro ⟨⟩)
  · rw [hknows.registry_foldl, registry_put]
    rfl

/-- A request that registers nothing leaves the tables as they are. -/
theorem Records.idle (h : c.Records qs) {q : Request α} (htexts : q.texts = []) (hoperator : q.operator? = none)
    {cached : Option (List (Group α))} (hkept : ∀ gs, cached = some gs → gs = c.registry.priorityGroups) :
    { c with cached }.Records (qs ++ [q]) where
  knows := by
    rw [Request.allTexts_concat, htexts, List.append_nil]
    exact ⟨h.knows.tokens, h.knows.known, h.knows.operatorTokens⟩
  files := by
    rw [Request.operators_concat, hoperator, Option.toList_none, List.append_nil]
    exact h.files.congr rfl rfl rfl rfl
  kept := hkept

/-- A request is recorded, and the registry is what the request makes of it. -/
theorem Records.next (h : c.Records qs) (q : Request α) :
    (c.next q).Records (qs ++ [q]) ∧ (c.next q).registry = c.registry.next q := by
  match q with
  | .add o =>
    cases hp : o.refusal? with
    | some e =>
      rw [Catalogue.next, Registry.next, add_of_refusal? hp, Registry.add_of_refusal? hp]
      exact ⟨h.idle (by simp [Request.texts, hp]) (by simp [Request.operator?, hp]) (by rintro gs ⟨⟩), rfl⟩
    | none => exact h.add hp
  | .addToken t =>
    obtain ⟨tokens, known, operatorTokens, heq⟩ := @addTokens_eq _ c [t]
    rw [List.foldl_cons, List.foldl_nil] at heq
    refine ⟨⟨?_, ?_, ?_⟩, h.knows.registry_addToken t⟩
    · rw [Request.allTexts_concat]
      exact h.knows.addToken t
    · rw [Request.operators_concat, Catalogue.next, heq]
      exact (List.append_nil _).symm ▸ h.files.congr rfl rfl rfl rfl
    · rw [Catalogue.next, heq]
      exact h.kept
  | .groups =>
    rw [Catalogue.next, Registry.next, Catalogue.groups, Registry.groups]
    cases hcached : c.cached with
    | some gs =>
      rw [show c.registry.cached = some gs from hcached]
      exact ⟨@Records.idle _ c qs h .groups rfl rfl c.cached h.kept, rfl⟩
    | none =>
      rw [show c.registry.cached = none from hcached]
      exact ⟨h.idle rfl rfl fun gs hgs => (Option.some.inj hgs).symm, rfl⟩

theorem after_concat (qs : List (Request α)) (q : Request α) : after (qs ++ [q]) = (after qs).next q := by
  rw [after, List.foldl_append]
  rfl

/-- All requests are recorded, and the registry is what they make of an empty one. -/
theorem records_after (qs : List (Request α)) :
    (after qs).Records qs ∧ (after qs).registry = qs.foldl Registry.next Registry.empty := by
  induction qs using List.reverseRecOn with
  | nil => exact ⟨records_empty, rfl⟩
  | append_singleton qs q ih =>
    obtain ⟨hrecords, hregistry⟩ := ih
    rw [after_concat, List.foldl_append, ← hregistry]
    exact hrecords.next q

/-! ### Requests without effect -/

theorem dropGroups_dropGroups (c : Catalogue α) : c.dropGroups.dropGroups = c.dropGroups := rfl

theorem dropGroups_foldl (ts : List Text) : (ts.foldl addToken c).dropGroups = ts.foldl addToken c.dropGroups := by
  induction ts generalizing c with
  | nil => rfl
  | cons t ts ih =>
    rw [List.foldl_cons, List.foldl_cons, ih]
    congr 1
    rw [addToken, addToken, show c.dropGroups.known = c.known from rfl]
    split <;> rfl

/-- Apart from the groups, a request makes the same of catalogues that are the same apart from the groups. -/
theorem dropGroups_next (q : Request α) (h : c.dropGroups = c'.dropGroups) :
    (c.next q).dropGroups = (c'.next q).dropGroups := by
  match q with
  | .add o => rw [next, next, add, add, h]
  | .addToken t =>
    have hfold := dropGroups_foldl (c := c) [t]
    rw [h, ← dropGroups_foldl] at hfold
    exact hfold
  | .groups =>
    have hgroups (c : Catalogue α) : c.groups.2.dropGroups = c.dropGroups := by
      rw [groups]
      split <;> rfl
    rw [next, next, hgroups, hgroups, h]

/-- Apart from the groups, requests that register nothing change nothing. -/
theorem dropGroups_next_of_not_registers {q : Request α} (hq : q.registers = false) :
    (c.next q).dropGroups = c.dropGroups := by
  match q with
  | .add o =>
    cases hp : o.refusal? with
    | some e => rw [next, add_of_refusal? hp, dropGroups_dropGroups]
    | none => simp [Request.registers, hp] at hq
  | .addToken t => cases hq
  | .groups =>
    rw [next, groups]
    split <;> rfl

theorem dropGroups_after_filter (qs : List (Request α)) :
    (after (qs.filter Request.registers)).dropGroups = (after qs).dropGroups := by
  induction qs using List.reverseRecOn with
  | nil => rfl
  | append_singleton qs q ih =>
    rw [List.filter_append, after_concat, List.filter_singleton]
    cases hq : q.registers with
    | true => exact (after_concat _ q).symm ▸ dropGroups_next q ih
    | false =>
      rw [dropGroups_next_of_not_registers hq]
      simpa using ih

/-- The groups are those of the operators, whether they were kept or not. -/
theorem Records.groups_eq (h : c.Records qs) : c.groups.1 = c.dropGroups.registry.priorityGroups := by
  rw [groups]
  cases hcached : c.cached with
  | some gs => exact h.kept gs hcached
  | none => rfl

/-! ### The last registrations win -/

/-- The catalogue has the operators and tokens of the requests, of operators of one slot the last one, and its groups
are those of these operators. -/
structure LastWins (qs : List (Request α)) (c : Catalogue α) : Prop where
  lookup : ∀ s o, c.lookup s = some o ↔ IsLatest (Request.operators qs) o ∧ o.slot? = some s
  refused : ∀ o e, (c.add o).1 = .error e ↔ o.refusal? = some e
  unplaced : ∀ o, (c.add o).1 = .error .unplaced ↔ o.fixity = .unplaced
  tokens : c.tokens = Token.builtinTexts ++ Request.newTexts qs
  operatorTokens : ∀ t, t ∈ c.operatorTokens ↔ t ∈ Request.newTexts qs
  infixTokens : ∀ t, t ∈ c.infixTokens ↔
    ∃ o, IsLatest (Request.operators qs) o ∧ (∃ a, o.fixity = .infixed a) ∧ t ∈ o.tokens
  ascending : c.groups.1.Pairwise fun g g' => g.priority < g'.priority
  inhabited : ∀ g ∈ c.groups.1, ∃ p o, g.at? p = some o
  /-- A group has the operators of its priority in their places, and nothing else. -/
  found : ∀ g ∈ c.groups.1, ∀ p o, g.at? p = some o ↔
    IsLatest (Request.operators qs) o ∧ o.place? = some p ∧ (g.priority == o.priority) = true
  unique : ∀ o, IsLatest (Request.operators qs) o → ∃! g, g ∈ c.groups.1 ∧ ∃ p, g.at? p = some o
  /-- Left-associative operators are also found by their reversed tokens. -/
  reversed : ∀ g ∈ c.groups.1, ∀ ts, g.leftReversed.get? ts = g.at? (.infixed .left ts.reverse)
  /-- Requests that register nothing do not matter. -/
  groups_filter : c.groups.1 = (after (qs.filter Request.registers)).groups.1
  registry : c.registry = qs.foldl Registry.next Registry.empty

theorem isLatest_mem (h : IsLatest os o) : o ∈ os := by
  obtain ⟨before, behind, rfl, -⟩ := h
  exact List.mem_append_right _ List.mem_cons_self

/-- An operator that was registered has a place. -/
theorem exists_place (h : IsLatest (Request.operators qs) o) : ∃ p, o.place? = some p :=
  exists_place?_iff.2 (Request.not_refused_of_mem_operators (isLatest_mem h))

/-- The operators of the registry are the last ones of their slots. -/
theorem Records.mem_operators (h : c.Records qs) : o ∈ c.registry.operators ↔ IsLatest (Request.operators qs) o := by
  rw [h.files.mem_operators]
  constructor
  · exact And.left
  · intro ho
    obtain ⟨p, hp⟩ := exists_place ho
    exact ⟨ho, p.slot, by rw [slot?, hp, Option.map_some]⟩

/-- The groups are filled with the operators of the registry, in ascending order. -/
theorem Records.filled_groups (h : c.Records qs) (hn : ∀ o ∈ c.registry.operators, o.priority.isNaN = false) :
    Registry.Filled c.registry.operators c.groups.1 ∧
      c.groups.1.Pairwise fun g g' => g.priority < g'.priority := by
  have hpairwise : c.registry.operators.Pairwise fun o o' => o.place? ≠ o'.place? :=
    h.files.pairwise_operators.imp fun hne he => hne (by rw [slot?, slot?, he])
  have hgroups : c.groups.1 = c.registry.priorityGroups := h.groups_eq
  rw [hgroups]
  exact Registry.filled_priorityGroups hn hpairwise

theorem add_eq_error_iff {e : Refusal} : (c.add o).1 = .error e ↔ o.refusal? = some e := by
  cases hp : o.refusal? with
  | some e' => simp [add_of_refusal? hp]
  | none => simp [add_of_not_refused hp]

theorem Knows.mem_operatorTokens (h : c.Knows us) {t : Text} :
    t ∈ c.operatorTokens ↔ t ∈ (us.filter (· ∉ Token.builtinTexts)).eraseDups := by
  rw [h.operatorTokens, h.mem_tokens, List.mem_eraseDups, List.mem_filter, decide_eq_true_iff]
  tauto

theorem Records.mem_infixTokens (h : c.Records qs) {t : Text} : t ∈ c.infixTokens ↔
    ∃ o, IsLatest (Request.operators qs) o ∧ (∃ a, o.fixity = .infixed a) ∧ t ∈ o.tokens := by
  have hget (ts : List Text) (o : Operator α) :
      c.infixOps.get? ts = some o ↔ IsLatest (Request.operators qs) o ∧ o.slot? = some (.infixed ts) := by
    rw [← latest?_eq_some_iff, ← h.files.lookup]
    rfl
  have hslot {o : Operator α} (ho : IsLatest (Request.operators qs) o) (ts : List Text) :
      o.slot? = some (.infixed ts) ↔ (∃ a, o.fixity = .infixed a) ∧ o.tokens = ts := by
    rw [slot?, place?, Request.not_refused_of_mem_operators (isLatest_mem ho)]
    cases o.fixity <;> simp [Place.slot]
  rw [h.files.infixTokens]
  constructor
  · rintro ⟨ts, o, ho, ht⟩
    obtain ⟨hlatest, hs⟩ := (hget ts o).1 ho
    obtain ⟨ha, rfl⟩ := (hslot hlatest ts).1 hs
    exact ⟨o, hlatest, ha, ht⟩
  · rintro ⟨o, hlatest, ha, ht⟩
    exact ⟨o.tokens, o, (hget _ o).2 ⟨hlatest, (hslot hlatest _).2 ⟨ha, rfl⟩⟩, ht⟩

/-- After any requests, of the operators of one slot the last one counts, unless some priority is NaN. -/
theorem lastWins_after (qs : List (Request α)) (hn : ∀ o ∈ Request.operators qs, o.priority.isNaN = false) :
    LastWins qs (after qs) := by
  obtain ⟨h, hregistry⟩ := records_after qs
  have hnotNaN {o : Operator α} (ho : o ∈ (after qs).registry.operators) : o.priority.isNaN = false :=
    hn o (isLatest_mem (h.mem_operators.1 ho))
  have hplace {o : Operator α} (ho : o ∈ (after qs).registry.operators) : ∃ p, o.place? = some p :=
    exists_place (h.mem_operators.1 ho)
  obtain ⟨hfilled, hascending⟩ := h.filled_groups fun o ho => hnotNaN ho
  constructor
  case lookup =>
    intro s o
    rw [h.files.lookup, latest?_eq_some_iff]
  case refused => exact fun o e => add_eq_error_iff
  case unplaced =>
    intro o
    rw [add_eq_error_iff, refusal?_eq_unplaced_iff]
  case tokens => exact h.knows.tokens
  case operatorTokens => exact fun t => h.knows.mem_operatorTokens
  case infixTokens => exact fun t => h.mem_infixTokens
  case ascending => exact hascending
  case inhabited => exact fun g hg => hfilled.exists_at? (fun o ho => hplace ho) hg
  case found =>
    intro g hg p o
    rw [hfilled.keeps g hg p o, ← h.mem_operators]
    refine and_congr_right fun ho => and_congr_right fun _ => ?_
    rw [Priority.beq_iff (hfilled.notNaN g hg) (hnotNaN ho)]
  case unique =>
    intro o hlatest
    obtain ⟨p, hp⟩ := exists_place hlatest
    exact hfilled.existsUnique (h.mem_operators.2 hlatest) hp
  case reversed => exact fun g hg ts => (hfilled.sound g hg).reversed ts
  case groups_filter =>
    rw [h.groups_eq, (records_after _).1.groups_eq, dropGroups_after_filter]
  case registry => exact hregistry

/-- An infix operator is replaced by one that repeats to the other side, with groups asked for in between, and with an
operator without a place and one without a token refused. -/
def requestsSample : List (Request Nat) :=
  [.add ⟨.infixed .left, [['+']], 0.0, 1⟩, .groups, .add ⟨.prefixed, [['-']], 1.0, 2⟩,
    .add ⟨.unplaced, [['?']], 3.0, 3⟩, .groups, .add ⟨.prefixed, [], 4.0, 5⟩, .add ⟨.infixed .right, [['+']], 2.0, 4⟩,
    .addToken [';'], .addToken ['-']]

/-- The last operator with the token `+` counts, and the tokens of operators that were refused are not registered. -/
theorem lastWins_after_sample : LastWins requestsSample (after requestsSample) ∧
    ((after requestsSample).lookup (.infixed [['+']])).map Operator.action = some 4 ∧
      (after requestsSample).tokens = [['('], [')'], [','], ['+'], ['-'], [';']] :=
  ⟨lastWins_after requestsSample (by decide +kernel), by decide +kernel, by decide +kernel⟩

end Catalogue

end Mixfix
