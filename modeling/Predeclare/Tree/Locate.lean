import Predeclare.Tree.Basic

set_option relaxedAutoImplicit false
set_option autoImplicit false

/-!
# Walks and searches in a tree

The nodes below a node are listed top down and from left to right in two ways: by recursion on
the tree, and by a walk with an explicit stack whose top is the next node to list. The walk
terminates because each step lists one node of a finite list.

To decide whether a declaration is used too early one has to find the statement it belongs to
and the statement of the same list through which a reference is reached. Both are found among
the ancestors of a node.

## Main definitions

* `SyntaxTree.preorder` — a node, followed by the lists of its children.
* `SyntaxTree.walk` — the nodes that a stack of pending nodes leads to.
* `SyntaxTree.descendants` — the walk that starts with one pending node.
* `SyntaxTree.declarationStatement` — the statement that a declaration belongs to.
* `SyntaxTree.childTowards` — the child of a node that a second node lies under.

## Main results

* `SyntaxTree.walk_eq_flatMap_preorder` — the walk lists the preorders of the pending nodes.
* `SyntaxTree.parent_of_childTowards` — the child towards a node is a child.
-/

namespace Predeclare

namespace SyntaxTree

variable {n : Nat} (t : SyntaxTree n)

/-! ## Preorder -/

/-- A node, followed by the preorders of its children from left to right. -/
def preorder (i : Fin n) : List (Fin n) :=
  i :: (t.children i).attach.flatMap fun ⟨c, _⟩ => preorder c
termination_by i.val
decreasing_by exact lt_of_mem_children ‹_›

theorem preorder_eq (i : Fin n) : t.preorder i = i :: (t.children i).flatMap t.preorder := by
  rw [preorder]
  congr 1
  rw [List.flatMap_subtype (g := t.preorder) (fun _ _ => rfl), List.unattach_attach]

/-- Lists the top of the stack and puts its children in its place, until the stack is empty. -/
def walk : List (Fin n) → List (Fin n)
  | [] => []
  | i :: pending => i :: walk (t.children i ++ pending)
termination_by pending => (pending.flatMap t.preorder).length
decreasing_by
  simp only [List.flatMap_cons, List.flatMap_append, List.length_append]
  rw [preorder_eq t i, List.length_cons]
  omega

/-- Every node at or below a node, top down and from left to right. -/
def descendants (i : Fin n) : List (Fin n) := t.walk [i]

/-- The walk lists the preorders of the pending nodes one after the other. -/
theorem walk_eq_flatMap_preorder (pending : List (Fin n)) :
    t.walk pending = pending.flatMap t.preorder := by
  fun_induction walk t pending with
  | case1 => rfl
  | case2 i pending ih =>
    rw [ih, List.flatMap_append, List.flatMap_cons, preorder_eq t i, List.cons_append]

/-! ## Locating statements -/

/-- Whether a search for a statement ends at a node: parameters belong to their function and not
to a statement, so it ends there too. -/
def endsStatementSearch (i : Fin n) : Bool := t.kind i = .parameter || (t.kind i).isStatement

/-- The innermost statement that contains or is `declaration`. Parameters and what they contain
have none; neither has the name of a function expression, which is visible only inside it. -/
def declarationStatement (declaration : Fin n) : Option (Fin n) :=
  if t.kind declaration = .functionExpression then none
  else
    ((t.ancestors declaration).find? t.endsStatementSearch).filter fun i => t.kind i ≠ .parameter

/-- The ancestor of `i`, or `i` itself, that is a child of `parent`. -/
def childTowards (parent i : Fin n) : Option (Fin n) :=
  (t.ancestors i).find? fun a => t.parent a = some parent

variable {t}

theorem parent_of_childTowards {parent i a : Fin n} (h : t.childTowards parent i = some a) :
    t.parent a = some parent := by
  simpa using List.find?_some h

theorem mem_ancestors_of_childTowards {parent i a : Fin n} (h : t.childTowards parent i = some a) :
    a ∈ t.ancestors i :=
  List.mem_of_find?_eq_some h

end SyntaxTree

end Predeclare
