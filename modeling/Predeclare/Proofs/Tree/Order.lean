import Mathlib.Data.List.Basic
import Mathlib.Data.List.Flatten
import Mathlib.Data.Nat.Init
import Predeclare.Tree.Locate

set_option relaxedAutoImplicit false
set_option autoImplicit false

/-!
# Ancestors and preorder

The nodes at or below a node are listed top down by its preorder, and the nodes at or above it by
its ancestors. The two lists answer the same question from both ends. Each node occurs once in a
preorder, so a node has one position in the preorder of the whole tree, and everything below a
child comes before everything below a later child of the same node.

## Main definitions

* `SyntaxTree.above` — the nodes strictly above a node, innermost first.
* `SyntaxTree.Reachable` — the root leads to the node.
* `SyntaxTree.position` — the place of a node in the preorder of the tree.

## Main results

* `SyntaxTree.mem_preorder_iff` — a node is listed below exactly its ancestors.
* `SyntaxTree.nodup_preorder` — a preorder lists each node once.
* `SyntaxTree.position_lt_of_siblings` — the order of two children is the order of what lies below
  them.
-/

namespace Predeclare

namespace SyntaxTree

variable {n : Nat} (t : SyntaxTree n)

/-- The nodes strictly above a node, innermost first. -/
def above (i : Fin n) : List (Fin n) := (t.ancestors i).tail

/-- A node is reachable if it lies at or below the root. -/
def Reachable (i : Fin n) : Prop := t.root ∈ t.ancestors i

instance (i : Fin n) : Decidable (t.Reachable i) :=
  inferInstanceAs (Decidable (t.root ∈ t.ancestors i))

variable {t}

/-! ## Walking up -/

/-- The ancestors of a node are the node and what is above it. -/
lemma ancestors_eq_cons_above (i : Fin n) : t.ancestors i = i :: t.above i := by
  unfold above
  rw [ancestors_eq i]
  rfl

/-- What is above a node starts with its parent. -/
lemma above_of_parent {i p : Fin n} (h : t.parent i = some p) : t.above i = t.ancestors p := by
  unfold above
  rw [ancestors_eq i, h]
  rfl

/-- Nothing is above a node without parent. -/
lemma above_of_no_parent {i : Fin n} (h : t.parent i = none) : t.above i = [] := by
  unfold above
  rw [ancestors_eq i, h]
  rfl

/-- Nothing is above the root. -/
@[simp] lemma above_root : t.above t.root = [] := above_of_no_parent parent_root

/-- A node is its own ancestor. -/
lemma self_mem_ancestors (i : Fin n) : i ∈ t.ancestors i := by
  rw [ancestors_eq_cons_above]
  exact List.mem_cons_self

/-- What is above a node is the ancestors of its parent. -/
lemma mem_above_iff {a i : Fin n} :
    a ∈ t.above i ↔ ∃ p, t.parent i = some p ∧ a ∈ t.ancestors p := by
  cases h : t.parent i with
  | none => simp [above_of_no_parent h]
  | some p => simp [above_of_parent h]

/-- An ancestor of a node is the node or an ancestor of its parent. -/
lemma mem_ancestors_iff {a i : Fin n} :
    a ∈ t.ancestors i ↔ a = i ∨ ∃ p, t.parent i = some p ∧ a ∈ t.ancestors p := by
  rw [ancestors_eq_cons_above, List.mem_cons, mem_above_iff]

/-- What is above a node is among its ancestors. -/
lemma mem_ancestors_of_mem_above {a i : Fin n} (h : a ∈ t.above i) : a ∈ t.ancestors i := by
  rw [ancestors_eq_cons_above]
  exact List.mem_cons_of_mem i h

/-- The parent of a node is one of its ancestors. -/
lemma parent_mem_ancestors {i p : Fin n} (h : t.parent i = some p) : p ∈ t.ancestors i :=
  mem_ancestors_iff.2 (Or.inr ⟨p, h, self_mem_ancestors p⟩)

/-- Walking up, by induction: what holds of the nodes without parent and passes from a parent to
its children holds of every node. -/
lemma upwards_induction {motive : Fin n → Prop}
    (top : ∀ i, t.parent i = none → motive i)
    (step : ∀ i p, t.parent i = some p → motive p → motive i) (i : Fin n) : motive i := by
  induction h : n - i.val using Nat.strong_induction_on generalizing i with
  | _ k ih =>
    cases hp : t.parent i with
    | none => exact top i hp
    | some p =>
      have lt : i.val < p.val := lt_of_parent hp
      exact step i p hp (ih (n - p.val) (by have := p.isLt; omega) p rfl)

/-- The ancestors of an ancestor end the list of ancestors.

**Proof sketch.** By induction upwards: the ancestors of a node are the node and those of its
parent. -/
lemma ancestors_suffix {a i : Fin n} (h : a ∈ t.ancestors i) :
    t.ancestors a <:+ t.ancestors i := by
  induction i using upwards_induction (t := t) with
  | top i hi =>
    rw [ancestors_eq_cons_above, above_of_no_parent hi, List.mem_singleton] at h
    subst h
    exact List.suffix_rfl
  | step i p hp ih =>
    rcases mem_ancestors_iff.1 h with rfl | ⟨q, hq, hmem⟩
    · exact List.suffix_rfl
    · obtain rfl : p = q := Option.some.inj (hp.symm.trans hq)
      rw [ancestors_eq_cons_above i, above_of_parent hp]
      exact (ih hmem).trans (List.suffix_cons i _)

/-- Ancestors of ancestors are ancestors. -/
lemma mem_ancestors_trans {a b i : Fin n} (ha : a ∈ t.ancestors b) (hb : b ∈ t.ancestors i) :
    a ∈ t.ancestors i :=
  (ancestors_suffix hb).subset ha

/-- The parent of an ancestor of a node is above the node. -/
lemma parent_mem_above {i j p : Fin n} (hj : j ∈ t.ancestors i) (hp : t.parent j = some p) :
    p ∈ t.above i := by
  rcases mem_ancestors_iff.1 hj with rfl | ⟨q, hq, hmem⟩
  · exact mem_above_iff.2 ⟨p, hp, self_mem_ancestors p⟩
  · exact mem_above_iff.2 ⟨q, hq, mem_ancestors_trans (parent_mem_ancestors hp) hmem⟩

/-- What is above an ancestor of a node is above the node. -/
lemma mem_above_trans {a b i : Fin n} (ha : a ∈ t.above b) (hb : b ∈ t.ancestors i) :
    a ∈ t.above i := by
  obtain ⟨p, hp, hmem⟩ := mem_above_iff.1 ha
  obtain ⟨q, hq, hqi⟩ := mem_above_iff.1 (parent_mem_above hb hp)
  exact mem_above_iff.2 ⟨q, hq, mem_ancestors_trans hmem hqi⟩

/-- Ancestors have larger numbers. -/
lemma le_of_mem_ancestors {a i : Fin n} (h : a ∈ t.ancestors i) : i ≤ a := by
  induction i using upwards_induction (t := t) with
  | top i hi =>
    rw [ancestors_eq_cons_above, above_of_no_parent hi, List.mem_singleton] at h
    exact h ▸ Fin.le_refl _
  | step i p hp ih =>
    rcases mem_ancestors_iff.1 h with rfl | ⟨q, hq, hmem⟩
    · exact Fin.le_refl _
    · obtain rfl : p = q := Option.some.inj (hp.symm.trans hq)
      have := ih hmem
      have := lt_of_parent hp
      omega

/-- What is above a node has a larger number. -/
lemma lt_of_mem_above {a i : Fin n} (h : a ∈ t.above i) : i < a := by
  obtain ⟨p, hp, hmem⟩ := mem_above_iff.1 h
  have := lt_of_parent hp
  have := le_of_mem_ancestors hmem
  omega

/-- The nodes above a node have larger numbers, the more so the further up they are. -/
lemma pairwise_lt_above (i : Fin n) : (t.above i).Pairwise (· < ·) := by
  induction i using upwards_induction (t := t) with
  | top i hi =>
    rw [above_of_no_parent hi]
    exact List.Pairwise.nil
  | step i p hp ih =>
    rw [above_of_parent hp, ancestors_eq_cons_above]
    exact List.pairwise_cons.2 ⟨fun a ha => lt_of_mem_above ha, ih⟩

/-- Something above a node is reached through one of the ancestors of the node.

**Proof sketch.** By induction upwards: `a` is the parent of `i`, or it is above the parent. -/
lemma exists_child_of_mem_above {a i : Fin n} (h : a ∈ t.above i) :
    ∃ c ∈ t.ancestors i, t.parent c = some a := by
  induction i using upwards_induction (t := t) with
  | top i hi =>
    rw [above_of_no_parent hi] at h
    exact absurd h List.not_mem_nil
  | step i p hp ih =>
    rw [above_of_parent hp, ancestors_eq_cons_above, List.mem_cons] at h
    rcases h with rfl | h
    · exact ⟨i, self_mem_ancestors i, hp⟩
    · obtain ⟨c, hc, hparent⟩ := ih h
      exact ⟨c, mem_ancestors_trans hc (parent_mem_ancestors hp), hparent⟩

/-- Of two ancestors of a node, one is an ancestor of the other. -/
lemma ancestors_total {a b i : Fin n} (ha : a ∈ t.ancestors i) (hb : b ∈ t.ancestors i) :
    a ∈ t.ancestors b ∨ b ∈ t.ancestors a := by
  rcases List.suffix_or_suffix_of_suffix (ancestors_suffix ha) (ancestors_suffix hb) with h | h
  · exact Or.inl (h.subset (self_mem_ancestors a))
  · exact Or.inr (h.subset (self_mem_ancestors b))

/-- Two ancestors of a node with the same parent are equal.

**Proof sketch.** Of two ancestors one lies above the other. -/
lemma eq_of_parent_of_mem_ancestors {a b p i : Fin n} (ha : a ∈ t.ancestors i)
    (hb : b ∈ t.ancestors i) (hpa : t.parent a = some p) (hpb : t.parent b = some p) : a = b := by
  -- a proper ancestor of `b` is an ancestor of `p`, so it cannot be a child of `p`
  have strict : ∀ {x y : Fin n}, t.parent x = some p → t.parent y = some p →
      x ∈ t.ancestors y → x = y := by
    intro x y hx hy hxy
    rcases mem_ancestors_iff.1 hxy with rfl | ⟨q, hq, hmem⟩
    · rfl
    · obtain rfl : p = q := Option.some.inj (hy.symm.trans hq)
      have := le_of_mem_ancestors hmem
      have := lt_of_parent hx
      omega
  rcases ancestors_total ha hb with h | h
  · exact strict hpa hpb h
  · exact (strict hpb hpa h).symm

/-! ## Walking down -/

/-- A node is the first of its preorder. -/
lemma self_mem_preorder (i : Fin n) : i ∈ t.preorder i := by
  rw [preorder_eq]
  exact List.mem_cons_self

/-- A node of a preorder is its first one or lies in the preorder of a child. -/
lemma mem_preorder_cases {i j : Fin n} :
    j ∈ t.preorder i ↔ j = i ∨ ∃ c ∈ t.children i, j ∈ t.preorder c := by
  rw [preorder_eq, List.mem_cons, List.mem_flatMap]

/-- The stack-driven walk from a node lists the preorder of the node. -/
lemma descendants_eq (i : Fin n) : t.descendants i = t.preorder i := by
  rw [descendants, walk_eq_flatMap_preorder, List.flatMap_singleton]

/-- Walking down, by induction: what passes from all children of a node to the node holds of every
node. -/
lemma downwards_induction {motive : Fin n → Prop}
    (step : ∀ i, (∀ c ∈ t.children i, motive c) → motive i) (i : Fin n) : motive i := by
  induction h : i.val using Nat.strong_induction_on generalizing i with
  | _ k ih =>
    refine step i fun c hc => ih c.val ?_ c rfl
    have : c < i := lt_of_mem_children hc
    omega

/-- The preorder of a child is part of that of its parent. -/
lemma preorder_child_sublist {p c : Fin n} (h : c ∈ t.children p) :
    (t.preorder c).Sublist (t.preorder p) := by
  rw [preorder_eq t p, List.flatMap_def]
  exact (List.sublist_flatten_of_mem (List.mem_map_of_mem h)).cons p

/-- The preorder of a node is part of that of each of its ancestors. -/
lemma preorder_sublist {a i : Fin n} (h : a ∈ t.ancestors i) :
    (t.preorder i).Sublist (t.preorder a) := by
  induction i using upwards_induction (t := t) with
  | top i hi =>
    rw [ancestors_eq_cons_above, above_of_no_parent hi, List.mem_singleton] at h
    exact h ▸ List.Sublist.refl _
  | step i p hp ih =>
    rcases mem_ancestors_iff.1 h with rfl | ⟨q, hq, hmem⟩
    · exact List.Sublist.refl _
    · obtain rfl : p = q := Option.some.inj (hp.symm.trans hq)
      exact (preorder_child_sublist (mem_children_iff.2 hp)).trans (ih hmem)

/-- **A node is listed in the preorders of exactly its ancestors.**

**Proof sketch.** From left to right by induction downwards, as the preorder is made. From right to
left `j` is in its own preorder, which is part of that of each ancestor (`preorder_sublist`). -/
theorem mem_preorder_iff {i j : Fin n} : j ∈ t.preorder i ↔ i ∈ t.ancestors j := by
  constructor
  · intro h
    induction i using downwards_induction (t := t) with
    | step i ih =>
      rcases mem_preorder_cases.1 h with rfl | ⟨c, hc, hmem⟩
      · exact self_mem_ancestors _
      · exact mem_ancestors_trans (parent_mem_ancestors (mem_children_iff.1 hc)) (ih c hc hmem)
  · intro h
    exact (preorder_sublist h).subset (self_mem_preorder j)

/-- Different children of a node have no node below them in common. -/
lemma disjoint_preorder_children {p c d j : Fin n} (hc : c ∈ t.children p)
    (hd : d ∈ t.children p) (hjc : j ∈ t.preorder c) (hjd : j ∈ t.preorder d) : c = d :=
  eq_of_parent_of_mem_ancestors (mem_preorder_iff.1 hjc) (mem_preorder_iff.1 hjd)
    (mem_children_iff.1 hc) (mem_children_iff.1 hd)

/-- **A preorder lists each node once.**

**Proof sketch.** Induction down the tree. The node itself has a larger number than everything below
it. The preorders of different children share no node, since that node would have two ancestors
with the same parent. -/
theorem nodup_preorder (i : Fin n) : (t.preorder i).Nodup := by
  induction i using downwards_induction (t := t) with
  | step i ih =>
    rw [preorder_eq, List.nodup_cons]
    constructor
    · intro h
      obtain ⟨c, hc, hmem⟩ := List.mem_flatMap.1 h
      have := le_of_mem_ancestors (mem_preorder_iff.1 hmem)
      have := lt_of_mem_children hc
      omega
    · refine List.pairwise_flatMap.2 ⟨ih, ?_⟩
      refine (nodup_children i).imp_of_mem fun {c d} hc hd ne x hx y hy => ?_
      rintro rfl
      exact ne (disjoint_preorder_children hc hd hx hy)

/-! ## Positions -/

variable (t) in
/-- The place of a node in the preorder of the tree. -/
def position (i : Fin n) : Nat := (t.preorder t.root).idxOf i

/-- The reachable nodes are those of the preorder of the root. -/
lemma mem_preorder_root_iff {i : Fin n} : i ∈ t.preorder t.root ↔ t.Reachable i :=
  mem_preorder_iff

/-- A child of a reachable node is reachable. -/
lemma Reachable.child {p c : Fin n} (hp : t.Reachable p) (hc : c ∈ t.children p) :
    t.Reachable c :=
  mem_ancestors_trans hp (parent_mem_ancestors (mem_children_iff.1 hc))

/-- An ancestor of a reachable node is reachable: the root has nothing above it. -/
lemma Reachable.ancestor {a i : Fin n} (hi : t.Reachable i) (ha : a ∈ t.ancestors i) :
    t.Reachable a := by
  rcases ancestors_total hi ha with h | h
  · exact h
  · have : a = t.root := by simpa [ancestors_eq_cons_above] using h
    rw [this]
    exact self_mem_ancestors _

/-- A list without repetition is sorted by the places of its entries. -/
lemma pairwise_idxOf {α : Type} [DecidableEq α] {l : List α} (h : l.Nodup) :
    l.Pairwise fun a b => l.idxOf a < l.idxOf b := by
  rw [List.pairwise_iff_getElem]
  intro i j hi hj lt
  rw [h.idxOf_getElem, h.idxOf_getElem]
  exact lt

/-- Every part of the preorder of the tree is sorted by position. -/
lemma pairwise_position {l : List (Fin n)} (h : l.Sublist (t.preorder t.root)) :
    l.Pairwise fun a b => t.position a < t.position b :=
  (pairwise_idxOf (nodup_preorder t.root)).sublist h

/-- Reachable nodes at the same position are equal. -/
lemma eq_of_position_eq {i j : Fin n} (hi : t.Reachable i) (h : t.position i = t.position j) :
    i = j :=
  (List.idxOf_inj (mem_preorder_root_iff.2 hi)).1 h

/-- A node comes behind the nodes above it.

**Proof sketch.** The preorder of the upper node starts with it and contains the lower one, and it
is a part of the preorder of the tree. -/
lemma position_lt_of_mem_above {a i : Fin n} (hi : t.Reachable i) (ha : a ∈ t.above i) :
    t.position a < t.position i := by
  have hai := mem_ancestors_of_mem_above ha
  have hbelow : i ∈ (t.children a).flatMap t.preorder := by
    have hpre : i ∈ t.preorder a := mem_preorder_iff.2 hai
    rw [preorder_eq, List.mem_cons] at hpre
    exact hpre.resolve_left (Fin.ne_of_lt (lt_of_mem_above ha))
  have hsub : [a, i].Sublist (t.preorder a) := by
    rw [preorder_eq]
    exact List.Sublist.cons_cons a (List.singleton_sublist.2 hbelow)
  have hroot : (t.preorder a).Sublist (t.preorder t.root) := preorder_sublist (hi.ancestor hai)
  have hsorted := pairwise_position (hsub.trans hroot)
  rw [List.pairwise_pair] at hsorted
  exact hsorted

/-- What lies below a child is listed before what lies below a later child of the same node. -/
lemma append_preorder_sublist {p c d : Fin n} (h : [c, d].Sublist (t.children p)) :
    (t.preorder c ++ t.preorder d).Sublist (t.preorder p) := by
  have hflat := h.flatMap t.preorder
  simp only [List.flatMap_cons, List.flatMap_nil, List.append_nil] at hflat
  rw [preorder_eq t p]
  exact hflat.cons p

/-- **The order of two children is the order of what lies below them.** -/
theorem position_lt_of_siblings {p c d i j : Fin n} (hp : t.Reachable p)
    (hcd : [c, d].Sublist (t.children p)) (hi : c ∈ t.ancestors i) (hj : d ∈ t.ancestors j) :
    t.position i < t.position j := by
  have hpre : (t.preorder c ++ t.preorder d).Sublist (t.preorder t.root) :=
    (append_preorder_sublist hcd).trans (preorder_sublist hp)
  have hsorted := pairwise_position hpre
  rw [List.pairwise_append] at hsorted
  exact hsorted.2.2 i (mem_preorder_iff.2 hi) j (mem_preorder_iff.2 hj)

end SyntaxTree

end Predeclare
