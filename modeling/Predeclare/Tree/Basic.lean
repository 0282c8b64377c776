import Predeclare.Source

set_option relaxedAutoImplicit false
set_option autoImplicit false

/-!
# Syntax trees

A syntax tree over `n` nodes numbers them by `Fin n` and links every node both to its children
and to its parent. The two kinds of link agree, no list of children repeats a node, a child has a
smaller number than its parent, and the root, a source file, has the largest number of all. Hence
a walk along parents and a walk along children both end. Nodes that were never given to a parent
may be left over; they are not reached from the root.

## Main definitions

* `below?` — a number as a node of a tree over `n` nodes, if it is one.
* `Node`, `SyntaxTree` — a node and the linked store of all of them.
* `SyntaxTree.statements` — the statement list that a node owns.
* `SyntaxTree.ancestors` — a node and everything above it, innermost first.

## Main results

* `SyntaxTree.mem_children_iff` — parent links and child links agree.
* `SyntaxTree.ancestors_eq` — the ancestors of a node in terms of those of its parent.
-/

namespace Predeclare

/-- A number as an element of `Fin n`, if it is below `n`. -/
def below? (n i : Nat) : Option (Fin n) := if h : i < n then some ⟨i, h⟩ else none

theorem below?_eq_some_iff {n i : Nat} {j : Fin n} : below? n i = some j ↔ i = j.val := by
  unfold below?
  split
  · simp [Fin.ext_iff]
  · rename_i h
    constructor
    · intro e
      cases e
    · rintro rfl
      exact absurd j.isLt h

/-- A syntax node whose neighbours are denoted by `ν`. -/
structure Node (ν : Type) where
  kind : SyntaxKind
  parent : Option ν
  children : List ν
  /-- The spelling of an identifier, of a declared name, of a literal or of an operator. -/
  text : Option Name
  span : Span
  deriving DecidableEq, Repr

/-- The nodes of one source file, linked in both directions. -/
structure SyntaxTree (n : Nat) where
  file : FileId
  nodes : Vector (Node (Fin n)) n
  root : Fin n
  mem_children_iff_parent : ∀ p c : Fin n, c ∈ nodes[p].children ↔ nodes[c].parent = some p
  nodup_node_children : ∀ p : Fin n, nodes[p].children.Nodup
  child_lt_parent : ∀ p c : Fin n, c ∈ nodes[p].children → c < p
  le_root : ∀ i : Fin n, i ≤ root
  kind_node_root : nodes[root].kind = .sourceFile

namespace SyntaxTree

variable {n : Nat} (t : SyntaxTree n)

/-- The kind of a node. -/
def kind (i : Fin n) : SyntaxKind := t.nodes[i].kind

/-- The node above a node; the root and left-over nodes have none. -/
def parent (i : Fin n) : Option (Fin n) := t.nodes[i].parent

/-- The nodes below a node, from left to right. -/
def children (i : Fin n) : List (Fin n) := t.nodes[i].children

/-- The text of a node. -/
def text (i : Fin n) : Option Name := t.nodes[i].text

/-- The location of a node. -/
def span (i : Fin n) : FileSpan := ⟨t.file, t.nodes[i].span⟩

variable {t}

theorem mem_children_iff {p c : Fin n} : c ∈ t.children p ↔ t.parent c = some p :=
  t.mem_children_iff_parent p c

theorem nodup_children (p : Fin n) : (t.children p).Nodup := t.nodup_node_children p

theorem lt_of_mem_children {p c : Fin n} (h : c ∈ t.children p) : c < p :=
  t.child_lt_parent p c h

theorem lt_of_parent {p c : Fin n} (h : t.parent c = some p) : c < p :=
  lt_of_mem_children (mem_children_iff.2 h)

theorem kind_root : t.kind t.root = .sourceFile := t.kind_node_root

theorem parent_root : t.parent t.root = none := by
  cases h : t.parent t.root with
  | none => rfl
  | some p => exact absurd (lt_of_parent h) (Fin.not_lt.2 (t.le_root p))

variable (t)

/-- Whether a node owns a statement list. -/
def isBlockLike (i : Fin n) : Bool := (t.kind i).isBlockLike

/-- The statement list of a node. The first child of a case clause is its test and no
statement; a node that is not block-like owns no statements. -/
def statements (i : Fin n) : List (Fin n) :=
  if t.kind i = .caseClause then (t.children i).drop 1
  else if t.isBlockLike i then t.children i
  else []

/-- A node, its parent, and so on up to a node without parent. -/
def ancestors (i : Fin n) : List (Fin n) :=
  i :: match _h : t.parent i with
    | none => []
    | some p => ancestors p
termination_by n - i.val
decreasing_by
  have := lt_of_parent _h
  omega

variable {t}

theorem ancestors_eq (i : Fin n) :
    t.ancestors i = i :: ((t.parent i).map t.ancestors).getD [] := by
  rw [ancestors]
  split <;> rename_i h <;> simp [h]

theorem statements_sublist_children (i : Fin n) :
    (t.statements i).Sublist (t.children i) := by
  unfold statements
  split
  · exact List.drop_sublist 1 _
  · split
    · exact List.Sublist.refl _
    · exact List.nil_sublist _

end SyntaxTree

end Predeclare
