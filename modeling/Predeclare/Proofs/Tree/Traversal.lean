import Predeclare.Proofs.Tree.Order

set_option relaxedAutoImplicit false
set_option autoImplicit false

/-!
# The traversal of a tree

A tree is traversed with a stack of pending nodes: the last of them is yielded, and its children
take its place in reverse, so that the leftmost child is yielded next. Pending are thus the siblings
to the right at every level, and what a stack yields are the preorders of its nodes, from the top
down. The traversal ends, visits what lies at or below its first node, and visits each node once.

## Main definitions

* `SyntaxTree.next?` — one step of the traversal.
* `SyntaxTree.Yields` — a stack yields a list of nodes and is then empty.

## Main results

* `SyntaxTree.yields_iff` — what a stack yields.
* `SyntaxTree.traversal_is_preorder` — the traversal, the recursive order and the ancestors agree.
-/

namespace Predeclare

namespace SyntaxTree

variable {n : Nat}

/-! ## Steps -/

/-- One step: the last pending node is yielded, and its children are pushed in reverse. An empty
stack yields nothing. -/
def next? (t : SyntaxTree n) (stack : List (Fin n)) : Option (Fin n × List (Fin n)) :=
  stack.getLast?.map fun i => (i, stack.dropLast ++ (t.children i).reverse)

/-- The stack yields the nodes of the list one by one, and nothing after them. -/
inductive Yields (t : SyntaxTree n) : List (Fin n) → List (Fin n) → Prop
  | done {stack : List (Fin n)} (h : t.next? stack = none) : Yields t stack []
  | step {stack stack' l : List (Fin n)} {i : Fin n} (h : t.next? stack = some (i, stack'))
      (rest : Yields t stack' l) : Yields t stack (i :: l)

variable {t : SyntaxTree n}

/-- The top of the stack is the first of the pending nodes when they are read from the top down. -/
lemma next?_reverse_cons (i : Fin n) (pending : List (Fin n)) :
    t.next? (i :: pending).reverse = some (i, (t.children i ++ pending).reverse) := by
  simp [next?]

/-- A stack yields what the walk from its nodes lists, which are read from the top down. -/
lemma yields_walk (pending : List (Fin n)) : t.Yields pending.reverse (t.walk pending) := by
  fun_induction walk t pending with
  | case1 => exact .done rfl
  | case2 i pending ih => exact .step (next?_reverse_cons i pending) ih

/-- A stack yields one list.

**Proof sketch.** By induction on the first run. A stack that is empty cannot take a step, and a
step is determined by the stack. -/
lemma Yields.unique {stack l l' : List (Fin n)} (h : t.Yields stack l) (h' : t.Yields stack l') :
    l = l' := by
  induction h generalizing l' with
  | done hnone =>
    cases h' with
    | done => rfl
    | step hsome => cases hnone.symm.trans hsome
  | step hsome _ ih =>
    cases h' with
    | done hnone => cases hnone.symm.trans hsome
    | step hsome' rest' =>
      obtain ⟨rfl, rfl⟩ := Prod.mk.inj (Option.some.inj (hsome.symm.trans hsome'))
      exact congrArg _ (ih rest')

/-- **What a stack yields** are the preorders of its nodes, from the top down. -/
theorem yields_iff {stack l : List (Fin n)} :
    t.Yields stack l ↔ l = stack.reverse.flatMap t.preorder := by
  have h := yields_walk (t := t) stack.reverse
  rw [List.reverse_reverse, walk_eq_flatMap_preorder] at h
  exact ⟨fun hl => hl.unique h, fun hl => hl ▸ h⟩

/-! ## The whole traversal -/

/-- **The traversals of a tree agree.** From any node, reachable or not, the traversal with a stack
ends after it has yielded the recursive preorder of the node, which holds each node once: those that
have the node among their ancestors. Hence, whenever a traversal comes to a node that owns a
statement list, it visits everything under a statement of the list before everything under a later
one.

**Proof sketch.** `yields_iff` and `descendants_eq` reduce every part to the recursive preorder. For
the last part the subtrees of two statements of a block stand in this order in the preorder of the
block (`append_preorder_sublist`), and this in the one of `i`. -/
theorem traversal_is_preorder (t : SyntaxTree n) (i : Fin n) :
    (∀ l, t.Yields [i] l ↔ l = t.descendants i) ∧
      t.descendants i = t.preorder i ∧
      (t.descendants i).Nodup ∧
      (∀ m, m ∈ t.descendants i ↔ i ∈ t.ancestors m) ∧
      ∀ block ∈ t.descendants i, ∀ c d, [c, d].Sublist (t.statements block) →
        ∀ x ∈ t.descendants c, ∀ y ∈ t.descendants d, [x, y].Sublist (t.descendants i) := by
  rw [show t.descendants = t.preorder from funext descendants_eq]
  refine ⟨fun l => ?_, rfl, nodup_preorder i, fun m => mem_preorder_iff, ?_⟩
  · rw [yields_iff, List.reverse_singleton, List.flatMap_singleton]
  · intro block hblock c d hcd x hx y hy
    have hbelow : (t.preorder c ++ t.preorder d).Sublist (t.preorder block) :=
      append_preorder_sublist (hcd.trans (statements_sublist_children block))
    have hxy : [x, y].Sublist (t.preorder c ++ t.preorder d) :=
      (List.singleton_sublist.2 hx).append (List.singleton_sublist.2 hy)
    exact (hxy.trans hbelow).trans (preorder_sublist (mem_preorder_iff.1 hblock))

/-- The tree of an empty source file, and the left-over block `{ x; return }`. -/
def leftOverBlock : SyntaxTree 5 where
  file := ⟨0⟩
  nodes := #v[
    ⟨.identifier, some 1, [], some ⟨0⟩, ⟨0, 1⟩⟩,
    ⟨.expressionStatement, some 3, [0], none, ⟨0, 1⟩⟩,
    ⟨.returnStatement, some 3, [], none, ⟨2, 2⟩⟩,
    ⟨.block, none, [1, 2], none, ⟨0, 2⟩⟩,
    ⟨.sourceFile, none, [], none, ⟨3, 3⟩⟩]
  root := 4
  mem_children_iff_parent := by decide
  nodup_node_children := by decide
  child_lt_parent := by decide
  le_root := by decide
  kind_node_root := by decide

/-- In the block, which the root does not lead to, the reference comes before the `return`. -/
theorem traversal_is_preorder_left_over :
    ¬ leftOverBlock.Reachable 3 ∧
      3 ∈ leftOverBlock.descendants 3 ∧ [1, 2].Sublist (leftOverBlock.statements 3) ∧
      0 ∈ leftOverBlock.descendants 1 ∧ 2 ∈ leftOverBlock.descendants 2 ∧
      leftOverBlock.Yields [3] [3, 1, 0, 2] ∧ [0, 2].Sublist (leftOverBlock.descendants 3) := by
  have hblock : 3 ∈ leftOverBlock.descendants 3 := by decide +kernel
  have hlist : [1, 2].Sublist (leftOverBlock.statements 3) := by decide
  have hx : 0 ∈ leftOverBlock.descendants 1 := by decide +kernel
  have hy : 2 ∈ leftOverBlock.descendants 2 := by decide +kernel
  have hall : leftOverBlock.descendants 3 = [3, 1, 0, 2] := by decide +kernel
  obtain ⟨hyields, -, -, -, horder⟩ := traversal_is_preorder leftOverBlock 3
  exact ⟨by decide +kernel, hblock, hlist, hx, hy, (hyields _).2 hall.symm,
    horder 3 hblock 1 2 hlist 0 hx 2 hy⟩

end SyntaxTree

end Predeclare
