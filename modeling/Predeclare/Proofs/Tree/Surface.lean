import Mathlib.Data.List.Perm.Subperm
import Predeclare.Proofs.Tree.Order

set_option relaxedAutoImplicit false
set_option autoImplicit false

/-!
# The surface of a tree

Names are bound top down, and what lies below an identifier is not looked at. The nodes that are
looked at form the surface of the tree. Identifiers are leaves in the trees of real programs, whose
surface is all that the root leads to, but a tree may hold nodes below an identifier.

## Main definitions

* `SyntaxTree.surface` — the preorder of a node, cut off below identifiers.
* `SyntaxTree.BelowIdentifier` — some identifier lies strictly above the node.

## Main results

* `SyntaxTree.mem_surface_root_iff` — the surface consists of the reachable nodes that are not
  below an identifier.
* `SyntaxTree.surface_sublist_preorder` — the surface keeps the order of the preorder.
* `SyntaxTree.surface_root_eq_filter` — the surface is a part of the preorder.
-/

namespace Predeclare

namespace SyntaxTree

variable {n : Nat} (t : SyntaxTree n)

/-- A node, followed by the surfaces of its children unless it is an identifier. -/
def surface (i : Fin n) : List (Fin n) :=
  i :: if t.kind i = .identifier then []
    else (t.children i).attach.flatMap fun ⟨c, _⟩ => surface c
termination_by i.val
decreasing_by exact lt_of_mem_children ‹_›

/-- Some identifier lies strictly above the node. -/
def BelowIdentifier (i : Fin n) : Prop := ∃ a ∈ t.above i, t.kind a = .identifier

instance (i : Fin n) : Decidable (t.BelowIdentifier i) :=
  inferInstanceAs (Decidable (∃ a ∈ t.above i, t.kind a = .identifier))

lemma surface_eq (i : Fin n) :
    t.surface i =
      i :: if t.kind i = .identifier then [] else (t.children i).flatMap t.surface := by
  rw [surface]
  congr 2
  rw [List.flatMap_subtype (g := t.surface) (fun _ _ => rfl), List.unattach_attach]

variable {t}

/-- The surface of an identifier is the identifier alone. -/
lemma surface_of_identifier {i : Fin n} (h : t.kind i = .identifier) : t.surface i = [i] := by
  rw [surface_eq, if_pos h]

/-- The surface of any other node goes on with those of its children. -/
lemma surface_of_not_identifier {i : Fin n} (h : t.kind i ≠ .identifier) :
    t.surface i = i :: (t.children i).flatMap t.surface := by
  rw [surface_eq, if_neg h]

/-- The surface keeps the order of the preorder.

**Proof sketch.** By induction downwards: both lists start with the node, and the surface goes on as
the preorder does or stops. -/
lemma surface_sublist_preorder (i : Fin n) : (t.surface i).Sublist (t.preorder i) := by
  induction i using downwards_induction (t := t) with
  | step i ih =>
    rw [surface_eq, preorder_eq]
    apply List.Sublist.cons_cons i
    by_cases h : t.kind i = .identifier
    · rw [if_pos h]
      exact List.nil_sublist _
    · rw [if_neg h]
      exact List.Sublist.flatMap_right _ ih

/-- The surface lists each node once. -/
lemma nodup_surface (i : Fin n) : (t.surface i).Nodup :=
  (nodup_preorder i).sublist (surface_sublist_preorder i)

lemma self_mem_surface (i : Fin n) : i ∈ t.surface i := by
  rw [surface_eq]
  exact List.mem_cons_self

/-- The children of a surface node that is no identifier are on the surface.

**Proof sketch.** By induction downwards on `i`. Since `p` is no identifier, neither is `i` if they
are the same; if not, `p` is on the surface of a child. -/
lemma child_mem_surface {i p c : Fin n} (hp : p ∈ t.surface i) (hc : c ∈ t.children p)
    (hkind : t.kind p ≠ .identifier) : c ∈ t.surface i := by
  induction i using downwards_induction (t := t) with
  | step i ih =>
    by_cases hi : t.kind i = .identifier
    · rw [surface_of_identifier hi, List.mem_singleton] at hp
      exact absurd hi (hp ▸ hkind)
    · rw [surface_of_not_identifier hi, List.mem_cons, List.mem_flatMap] at hp ⊢
      right
      rcases hp with rfl | ⟨d, hd, hmem⟩
      · exact ⟨c, hc, self_mem_surface c⟩
      · exact ⟨d, hd, ih d hd hmem⟩

/-- A surface node is the first one or the child of a surface node that is no identifier.

**Proof sketch.** Induction from the leaves upwards. -/
lemma parent_mem_surface {i j : Fin n} (h : j ∈ t.surface i) (ne : j ≠ i) :
    ∃ p ∈ t.surface i, t.parent j = some p ∧ t.kind p ≠ .identifier := by
  induction i using downwards_induction (t := t) with
  | step i ih =>
    by_cases hi : t.kind i = .identifier
    · rw [surface_of_identifier hi, List.mem_singleton] at h
      exact absurd h ne
    · rw [surface_of_not_identifier hi, List.mem_cons, List.mem_flatMap] at h
      obtain ⟨c, hc, hmem⟩ := h.resolve_left ne
      by_cases hjc : j = c
      · exact ⟨i, self_mem_surface i, mem_children_iff.1 (hjc ▸ hc), hi⟩
      · obtain ⟨p, hp, hpar, hkind⟩ := ih c hc hmem hjc
        refine ⟨p, ?_, hpar, hkind⟩
        rw [surface_of_not_identifier hi]
        exact List.mem_cons_of_mem _ (List.mem_flatMap.2 ⟨c, hc, hp⟩)

/-- A node is below an identifier when its parent is one or is below one. -/
lemma belowIdentifier_of_parent {i p : Fin n} (h : t.parent i = some p) :
    t.BelowIdentifier i ↔ t.kind p = .identifier ∨ t.BelowIdentifier p := by
  unfold BelowIdentifier
  rw [above_of_parent h, ancestors_eq_cons_above p]
  simp

/-- **The surface of a tree consists of the reachable nodes that are not below an identifier.**

**Proof sketch.** Induction from the root downwards, in both directions. A node other than the root
is on the surface exactly if its parent is and is no identifier. -/
theorem mem_surface_root_iff {i : Fin n} :
    i ∈ t.surface t.root ↔ t.Reachable i ∧ ¬ t.BelowIdentifier i := by
  constructor
  · intro h
    refine ⟨mem_preorder_root_iff.1 ((surface_sublist_preorder _).subset h), ?_⟩
    induction i using upwards_induction (t := t) with
    | top i hi => simp [BelowIdentifier, above_of_no_parent hi]
    | step i p hp ih =>
      have ne : i ≠ t.root := by
        rintro rfl
        rw [parent_root] at hp
        cases hp
      obtain ⟨q, hq, hpar, hkind⟩ := parent_mem_surface h ne
      obtain rfl : p = q := Option.some.inj (hp.symm.trans hpar)
      rw [belowIdentifier_of_parent hp]
      exact fun hor => hor.elim hkind (ih hq)
  · rintro ⟨hreach, hbelow⟩
    induction i using upwards_induction (t := t) with
    | top i hi =>
      have : t.root = i := by
        simpa [Reachable, ancestors_eq_cons_above i, above_of_no_parent hi] using hreach
      exact this ▸ self_mem_surface _
    | step i p hp ih =>
      rw [belowIdentifier_of_parent hp, not_or] at hbelow
      refine child_mem_surface (ih ?_ hbelow.2) (mem_children_iff.2 hp) hbelow.1
      exact Reachable.ancestor hreach (parent_mem_ancestors hp)

/-- The surface is the preorder without the nodes below identifiers. -/
lemma surface_root_eq_filter :
    t.surface t.root = (t.preorder t.root).filter fun i => ¬ t.BelowIdentifier i := by
  have hall : ∀ i ∈ t.surface t.root, decide (¬ t.BelowIdentifier i) = true :=
    fun i hi => decide_eq_true (mem_surface_root_iff.1 hi).2
  have hsub := (surface_sublist_preorder (t := t) t.root).filter fun i => ¬ t.BelowIdentifier i
  rw [List.filter_eq_self.2 hall] at hsub
  refine hsub.eq_of_length_le (List.subperm_of_subset ?_ fun i hi => ?_).length_le
  · exact (nodup_preorder t.root).filter _
  · obtain ⟨hmem, hbelow⟩ := List.mem_filter.1 hi
    exact mem_surface_root_iff.2 ⟨mem_preorder_root_iff.1 hmem, of_decide_eq_true hbelow⟩

/-- The surface lists nodes in the order of their positions. -/
lemma pairwise_position_surface :
    (t.surface t.root).Pairwise fun a b => t.position a < t.position b :=
  pairwise_position (surface_sublist_preorder t.root)

/-- What is above a surface node is on the surface, and no identifier.

**Proof sketch.** Nothing above `i` is an identifier, for `i` is on the surface. What is above `a`
is also above `i`, so `a` is on the surface too. -/
lemma above_mem_surface {a i : Fin n} (hi : i ∈ t.surface t.root) (ha : a ∈ t.above i) :
    a ∈ t.surface t.root ∧ t.kind a ≠ .identifier := by
  obtain ⟨hreach, hbelow⟩ := mem_surface_root_iff.1 hi
  have hkind : ∀ b ∈ t.above i, t.kind b ≠ .identifier := by
    intro b hb hid
    exact hbelow ⟨b, hb, hid⟩
  refine ⟨mem_surface_root_iff.2 ⟨hreach.ancestor (mem_ancestors_of_mem_above ha), ?_⟩, hkind a ha⟩
  rintro ⟨b, hb, hid⟩
  obtain ⟨p, hp, hmem⟩ := mem_above_iff.1 ha
  have hbp := mem_ancestors_trans (mem_ancestors_of_mem_above hb) hmem
  exact hkind b (mem_above_iff.2 ⟨p, hp, hbp⟩) hid

/-- The nodes above a surface node come before it on the surface.

**Proof sketch.** The surface is sorted by position, and what lies above a node has a smaller
one. -/
lemma above_mem_done {done rest : List (Fin n)} {a i : Fin n}
    (hsplit : t.surface t.root = done ++ i :: rest) (ha : a ∈ t.above i) : a ∈ done := by
  have hi : i ∈ t.surface t.root := by
    rw [hsplit]
    simp
  have hlt := position_lt_of_mem_above (mem_surface_root_iff.1 hi).1 ha
  have hmem := (above_mem_surface hi ha).1
  have hsorted := pairwise_position_surface (t := t)
  rw [hsplit] at hmem hsorted
  rcases List.mem_append.1 hmem with hmem | hmem
  · exact hmem
  · have hrest := List.pairwise_cons.1 (List.pairwise_append.1 hsorted).2.1
    rcases List.mem_cons.1 hmem with rfl | hmem
    · omega
    · have := hrest.1 a hmem
      omega

end SyntaxTree

end Predeclare
