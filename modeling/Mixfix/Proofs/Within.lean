import Mixfix.Proofs.Reading

/-!
# Building within limits

A result is *within* limits if it is a value that satisfies a test, or else an error that reports a limit, and some
limit is low (`Within`). The tree of a section is a node of the trees of the sections below its root
(`Grammar.treeOf_eq`), so what is built is within limits if the root and the sections below it are
(`Grammar.within_build_succ`). Trees are compared without their positions (`Tree.strip`).
-/

namespace Mixfix

/-! ## Trees without positions -/

section Trees

variable {α : Type}

namespace Tree

mutual

/-- The tree with zero for every position. -/
def strip : Tree α → Tree α
  | number _ value => number 0 value
  | reference _ name => reference 0 name
  | call _ name args => call 0 name (stripAll args)
  | operation _ operator operands => operation 0 operator (stripAll operands)
  | unknown _ kind => unknown 0 kind

/-- The trees of a list with zero for every position. -/
def stripAll : List (Tree α) → List (Tree α)
  | [] => []
  | t :: ts => strip t :: stripAll ts

end

mutual

theorem nodeCount_strip (t : Tree α) : t.strip.nodeCount = t.nodeCount := by
  cases t with
  | number p v | reference p n | unknown p k => rfl
  | call p n args => rw [strip, nodeCount, nodeCount, nodeCountAll_stripAll]
  | operation p o operands => rw [strip, nodeCount, nodeCount, nodeCountAll_stripAll]

theorem nodeCountAll_stripAll (ts : List (Tree α)) : nodeCountAll (stripAll ts) = nodeCountAll ts := by
  cases ts with
  | nil => rfl
  | cons t ts => rw [stripAll, nodeCountAll, nodeCountAll, nodeCount_strip, nodeCountAll_stripAll]

end

theorem nodeCount_of_strip {t t' : Tree α} (h : t.strip = t'.strip) : t.nodeCount = t'.nodeCount := by
  rw [← nodeCount_strip t, h, nodeCount_strip]

theorem nodeCountAll_append (ts us : List (Tree α)) :
    nodeCountAll (ts ++ us) = nodeCountAll ts + nodeCountAll us := by
  induction ts with
  | nil => simp [nodeCountAll]
  | cons t ts ih => rw [List.cons_append, nodeCountAll, nodeCountAll, ih, Nat.add_assoc]

theorem nodeCountAll_le {κ : Type} {ks : List κ} {f : κ → Tree α} {m : κ → List Token}
    (h : ∀ k ∈ ks, (f k).nodeCount ≤ (m k).length) : nodeCountAll (ks.map f) ≤ ((ks.map m).map List.length).sum := by
  induction ks with
  | nil => exact Nat.le_refl 0
  | cons k ks ih =>
    rw [List.forall_mem_cons] at h
    have := ih h.2
    simp only [List.map_cons, nodeCountAll, List.sum_cons]
    omega

theorem stripAll_eq {ts us : List (Tree α)} (h : List.Forall₂ (fun t u => u.strip = t) ts us) : stripAll us = ts := by
  induction h with
  | nil => rfl
  | cons ht _ ih => rw [stripAll, ht, ih]

theorem stripAll_eq_map (ts : List (Tree α)) : stripAll ts = ts.map strip :=
  stripAll_eq (List.forall₂_map_left_iff.2 (List.forall₂_same.2 fun _ _ => rfl))

theorem stripAll_of_forall₂ {ts us : List (Tree α)} (h : List.Forall₂ (fun t u => u.strip = t.strip) ts us) :
    stripAll us = stripAll ts := by
  rw [stripAll_eq_map ts, stripAll_eq (List.forall₂_map_left_iff.2 h)]

end Tree

end Trees

/-! ## Results within limits -/

/-- The result satisfies a test, or else a limit is exceeded, and this only if one is low. -/
def Within {β : Type} (low : Prop) (Q : β → Prop) (result : Except ExprError β) : Prop :=
  (∃ x, result = .ok x ∧ Q x) ∨ ∃ e, result = .error e ∧ e.code = .limitExceeded ∧ low

namespace Within

variable {β γ : Type} {low low' : Prop} {Q Q' : β → Prop} {result : Except ExprError β}

theorem ok {x : β} (h : Q x) : Within low Q (.ok x) := Or.inl ⟨x, rfl, h⟩

theorem imp (h : Within low Q result) (hlow : low → low') (hQ : ∀ x, Q x → Q' x) : Within low' Q' result :=
  Or.imp (fun ⟨x, hx, hq⟩ => ⟨x, hx, hQ x hq⟩) (fun ⟨e, he, hcode, hl⟩ => ⟨e, he, hcode, hlow hl⟩) h

theorem bind {S : γ → Prop} {f : β → Except ExprError γ} (h : Within low Q result)
    (hf : ∀ x, Q x → Within low S (f x)) : Within low S (result.bind f) := by
  rcases h with ⟨x, rfl, hx⟩ | ⟨e, rfl, he⟩
  · exact hf x hx
  · exact Or.inr ⟨e, rfl, he⟩

theorem map {S : γ → Prop} {f : β → γ} (h : Within low Q result) (hf : ∀ x, Q x → S (f x)) :
    Within low S (result.map f) := by
  rcases h with ⟨x, rfl, hx⟩ | ⟨e, rfl, he⟩
  · exact .ok (hf x hx)
  · exact Or.inr ⟨e, rfl, he⟩

/-- Results one after the other are within limits if each is. -/
theorem mapM {f : γ → Except ExprError β} {xs : List γ} {Qs : List (β → Prop)}
    (h : List.Forall₂ (fun x Q => Within low Q (f x)) xs Qs) :
    Within low (List.Forall₂ (fun Q y => Q y) Qs) (xs.mapM f) := by
  induction h with
  | nil => exact .ok .nil
  | @cons x Q xs Qs hx _ ih =>
    rw [List.mapM_cons]
    exact hx.bind fun y hy => ih.bind fun ys hys => .ok (.cons hy hys)

theorem check {l : Limits} {which : Limit} {actual : Int} {position : Option Int} {expression : Option Text}
    (hlow : l.bound which < actual → low) : Within low (fun _ => True) (l.check which actual position expression) := by
  rw [Limits.check]
  split
  · next h => exact Or.inr ⟨_, rfl, rfl, hlow h⟩
  · exact .ok trivial

end Within

namespace Grammar

open TokenList

variable {α : Type} {g : Grammar α} {source : Text} {gs : List (Group α)} {l : TokenList}
  {buildSection : TokenList → Except ExprError (Tree α)}

/-! ## Nodes -/

/-- The tree of a section with a given root, from the trees of the sections below it. -/
def nodeOf (l : TokenList) : Reading α → List (Tree α) → Tree α
  | .brackets _, ts => ts.headD (.unknown l.position [])
  | .reference name, _ => .reference l.position name
  | .call name _, ts => .call l.position name ts
  | .operation position operator _, ts => .operation position operator ts
  | .number value, _ => .number l.position value

/-- Where no argument is empty, the arguments are built like operands. -/
theorem buildArguments_eq_mapM {name part : Text} {ss : List TokenList} (h : ∀ s ∈ ss, s.isEmpty = false) :
    buildArguments source buildSection name part ss = ss.mapM buildSection := by
  induction ss with
  | nil => rfl
  | cons s ss ih =>
    rw [List.forall_mem_cons] at h
    rw [buildArguments, List.mapM_cons, ih h.2, h.1]
    rfl

theorem treeOf_eq {reading : Reading α} (h : ∀ s ∈ sections reading, s.isEmpty = false) :
    @treeOf α source buildSection l reading =
      ((sections reading).mapM buildSection).map (nodeOf l reading) := by
  cases reading with
  | brackets inner =>
    rw [treeOf, sections, List.mapM_cons, List.mapM_nil]
    cases buildSection inner <;> rfl
  | reference name | number value => rfl
  | call name args =>
    have hargs := @buildArguments_eq_mapM α source buildSection name l.text args h
    rw [treeOf, hargs]
    rfl
  | operation position operator operands => rfl

/-- What the section with a root gives if the sections below it give trees that satisfy some tests. -/
structure Rests (g : Grammar α) (source : Text) (gs : List (Group α)) (levels : Nat) (low : Prop)
    (Q : Tree α → Prop) (l : TokenList) (reading : Reading α) : Prop where
  ne_nil : ∀ s ∈ sections reading, s.isEmpty = false
  sections : ∃ Qs, List.Forall₂ (fun s Q => Within low Q (g.build source gs levels s)) (sections reading) Qs ∧
    ∀ ts, List.Forall₂ (fun Q t => Q t) Qs ts → Q (nodeOf l reading ts)

/-- The tree of a section is within limits if its root is, and the trees of the sections below are. -/
theorem within_build_succ {levels : Nat} {low : Prop} {Q : Tree α → Prop}
    (h : Within low (Rests g source gs levels low Q l) (g.read source gs l)) :
    Within low Q (g.build source gs (levels + 1) l) := by
  rw [build_succ]
  refine h.bind fun reading hreading => ?_
  obtain ⟨Qs, hQs, hnode⟩ := hreading.sections
  rw [treeOf_eq hreading.ne_nil]
  exact (Within.mapM hQs).map hnode

/-- What is known of the trees of the sections below a root gives what is known of the node of them. -/
theorem rests_of_forall₂ {levels : Nat} {low : Prop} {Q : Tree α → Prop} {reading : Reading α} {κ : Type} {ks : List κ}
    {R : κ → Tree α → Prop}
    (h : List.Forall₂ (fun s k => s.isEmpty = false ∧ Within low (R k) (g.build source gs levels s))
      (sections reading) ks)
    (hnode : ∀ ts, List.Forall₂ R ks ts → Q (nodeOf l reading ts)) : Rests g source gs levels low Q l reading where
  ne_nil := ((List.forall₂_and_left _ ks).1 h).1
  sections := by
    refine ⟨ks.map R, List.forall₂_map_right_iff.2 (h.imp fun s k hs => hs.2), fun ts hts => hnode ts ?_⟩
    rwa [List.forall₂_map_left_iff] at hts

/-- Where the trees of the sections below a root are known, so is the node of them. -/
theorem rests_of_trees {levels : Nat} {low : Prop} {reading : Reading α} {ts : List (Tree α)}
    (h : List.Forall₂ (fun s t => s.isEmpty = false ∧ Within low (· = t) (g.build source gs levels s))
      (sections reading) ts) : Rests g source gs levels low (· = nodeOf l reading ts) l reading := by
  refine rests_of_forall₂ h fun ts' hts' => ?_
  have heq : ts = ts' := by
    rw [← List.forall₂_eq_eq_eq]
    exact hts'.imp fun _ _ h => h.symm
  rw [heq]

/-- With no level left the limit of the depth is exceeded. -/
theorem within_build_zero {low : Prop} {Q : Tree α → Prop} (h : low) : Within low Q (g.build source gs 0 l) :=
  Or.inr ⟨_, rfl, rfl, h⟩

/-- A root that is read and the trees of the sections below it give the tree of the section, unless the levels are fewer
than its tokens. -/
theorem within_build_of_read {levels : Nat} {reading : Reading α} {ts : List (Tree α)} (hpos : 0 < l.size)
    (hread : g.read source gs l = .ok reading)
    (hts : List.Forall₂ (fun s t => s.isEmpty = false ∧ s.size < l.size ∧ ∀ levels,
      Within (levels < s.size) (· = t) (g.build source gs levels s)) (sections reading) ts) :
    Within (levels < l.size) (· = nodeOf l reading ts) (g.build source gs levels l) := by
  cases levels with
  | zero => exact within_build_zero hpos
  | succ levels =>
    refine within_build_succ ?_
    rw [hread]
    refine .ok (rests_of_trees (hts.imp fun s t hs => ⟨hs.1, (hs.2.2 levels).imp ?_ fun _ heq => heq⟩))
    have := hs.2.1
    omega

/-- The result is within limits if the tree that is built is, and has no more nodes than the section has tokens. -/
theorem within_parse {Q : Tree α → Prop}
    (h : Within (g.limits.treeDepth.toNat < l.size ∨ g.limits.callArguments < l.size)
      Q (g.build source g.operators.groups.1 g.limits.treeDepth.toNat l)) (hcount : ∀ t, Q t → t.nodeCount ≤ l.size) :
    Within (∃ limit, g.limits.bound limit < l.size) Q (g.parse source l) := by
  have hlow : g.limits.treeDepth.toNat < l.size ∨ g.limits.callArguments < l.size →
      ∃ limit, g.limits.bound limit < l.size := by
    rintro (hlt | hlt)
    · exact ⟨.treeDepth, by rw [Limits.bound]; omega⟩
    · exact ⟨.callArguments, hlt⟩
  refine (h.imp hlow fun _ hQ => hQ).bind fun t ht => ?_
  have hle := hcount t ht
  exact (Within.check fun hlt => ⟨.treeNodes, by omega⟩).bind fun _ _ => .ok ht

end Grammar

end Mixfix
