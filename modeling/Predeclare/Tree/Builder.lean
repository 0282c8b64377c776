import Predeclare.Tree.Basic
import Predeclare.Tree.Form

set_option relaxedAutoImplicit false
set_option autoImplicit false

/-!
# Building syntax trees

A tree is built bottom up. Adding a node gives it the next free number, makes it the parent of
the nodes named as its children, and gives it a location: a node without children is placed
behind everything placed so far, as long as its text, and a node with children gets the least
range that covers theirs. A child must not have a parent yet and must not be named twice.

## Main definitions

* `TreeBuilder` — the nodes added so far, the names they use, and the next free offset.
* `TreeBuilder.node`, `TreeBuilder.add`, `TreeBuilder.addAll` — add one node, a form, and a list
  of forms that refer to each other by position.
* `TreeBuilder.finish` — puts a source file above the top-level statements.
* `Source`, `Source.build` — a finished tree with its names, and its construction from forms.

## Main results

* `Linked.attach` — adopting free nodes keeps the links consistent.
-/

namespace Predeclare

/-! ### Links between stored nodes -/

/-- The children of a stored node, none for a number out of range. -/
def storedChildren (nodes : Array (Node Nat)) (p : Nat) : List Nat :=
  (nodes[p]?.map Node.children).getD []

/-- The parent of a stored node, none for a number out of range. -/
def storedParent (nodes : Array (Node Nat)) (c : Nat) : Option Nat :=
  nodes[c]?.bind Node.parent

/-- Parent links and child links agree, no list of children repeats a node, and children come
before their parents. -/
structure Linked (nodes : Array (Node Nat)) : Prop where
  mem_iff : ∀ p c, c ∈ storedChildren nodes p ↔ storedParent nodes c = some p
  nodup : ∀ p, (storedChildren nodes p).Nodup
  lt : ∀ p, ∀ c ∈ storedChildren nodes p, c < p

/-- Makes `p` the parent of the listed nodes. -/
def setParent (nodes : Array (Node Nat)) (p : Nat) (children : List Nat) : Array (Node Nat) :=
  children.foldl (fun ns c => ns.modify c fun nd => { nd with parent := some p }) nodes

theorem size_setParent (nodes : Array (Node Nat)) (p : Nat) (children : List Nat) :
    (setParent nodes p children).size = nodes.size := by
  induction children generalizing nodes with
  | nil => rfl
  | cons c rest ih => exact (ih _).trans (Array.size_modify ..)

theorem getElem?_setParent (nodes : Array (Node Nat)) (p : Nat) (children : List Nat) (i : Nat) :
    (setParent nodes p children)[i]? =
      nodes[i]?.map fun nd => if i ∈ children then { nd with parent := some p } else nd := by
  induction children generalizing nodes with
  | nil => simp [setParent]
  | cons c rest ih =>
    refine (ih _).trans ?_
    rw [Array.getElem?_modify]
    by_cases h : c = i
    · subst h
      cases nodes[c]? <;> simp
    · have h' : i ≠ c := fun e => h e.symm
      cases nodes[i]? <;> simp [h, h']

/-- Stores a node behind all others and makes it the parent of its children. -/
def attach (nodes : Array (Node Nat)) (nd : Node Nat) : Array (Node Nat) :=
  (setParent nodes nodes.size nd.children).push nd

@[simp] theorem size_attach (nodes : Array (Node Nat)) (nd : Node Nat) :
    (attach nodes nd).size = nodes.size + 1 := by
  simp [attach, size_setParent]

theorem getElem?_attach (nodes : Array (Node Nat)) (nd : Node Nat) (i : Nat) :
    (attach nodes nd)[i]? =
      if i = nodes.size then some nd
      else nodes[i]?.map fun old =>
        if i ∈ nd.children then { old with parent := some nodes.size } else old := by
  unfold attach
  rw [Array.getElem?_push, size_setParent, getElem?_setParent]

theorem storedChildren_attach (nodes : Array (Node Nat)) (nd : Node Nat) (i : Nat) :
    storedChildren (attach nodes nd) i =
      if i = nodes.size then nd.children else storedChildren nodes i := by
  unfold storedChildren
  rw [getElem?_attach]
  split
  · rfl
  · cases nodes[i]? with
    | none => rfl
    | some old => by_cases h : i ∈ nd.children <;> simp [h]

theorem storedParent_attach (nodes : Array (Node Nat)) (nd : Node Nat) (i : Nat) :
    storedParent (attach nodes nd) i =
      if i = nodes.size then nd.parent
      else if i < nodes.size ∧ i ∈ nd.children then some nodes.size
      else storedParent nodes i := by
  unfold storedParent
  rw [getElem?_attach]
  split
  · rfl
  · cases h : nodes[i]? with
    | none => simp [Nat.not_lt.2 (Array.getElem?_eq_none_iff.1 h)]
    | some old =>
      have lt : i < nodes.size := (Array.getElem?_eq_some_iff.1 h).1
      by_cases hm : i ∈ nd.children <;> simp [hm, lt]

theorem storedChildren_eq_nil {nodes : Array (Node Nat)} {p : Nat} (h : nodes.size ≤ p) :
    storedChildren nodes p = [] := by
  simp [storedChildren, Array.getElem?_eq_none h]

theorem linked_empty : Linked #[] :=
  ⟨by simp [storedChildren, storedParent], by simp [storedChildren], by simp [storedChildren]⟩

/-- **Adopting free nodes keeps the links consistent.**

**Proof sketch.** The links of the new node are those of its children to it, and these children had
no parent. No old link changes. -/
theorem Linked.attach {nodes : Array (Node Nat)} (linked : Linked nodes) {nd : Node Nat}
    (known : ∀ c ∈ nd.children, c < nodes.size) (nodup : nd.children.Nodup)
    (free : ∀ c ∈ nd.children, storedParent nodes c = none) (top : nd.parent = none) :
    Linked (attach nodes nd) where
  mem_iff p c := by
    rw [storedChildren_attach, storedParent_attach]
    by_cases hp : p = nodes.size
    · subst hp
      by_cases hc : c = nodes.size
      · subst hc
        simp only [if_true, top]
        exact ⟨fun h => absurd (known _ h) (Nat.lt_irrefl _), fun h => by cases h⟩
      · by_cases hm : c ∈ nd.children
        · simp [hc, hm, known c hm]
        · have : ¬ storedParent nodes c = some nodes.size := fun h => by
            have := (linked.mem_iff _ _).2 h
            rw [storedChildren_eq_nil (Nat.le_refl _)] at this
            exact absurd this (by simp)
          simp [hc, hm, this]
    · rw [if_neg hp, linked.mem_iff]
      by_cases hc : c = nodes.size
      · subst hc
        simp [storedParent, top]
      · by_cases hm : c ∈ nd.children
        · simp only [if_neg hc, known c hm, hm, and_self, if_true, free c hm, Option.some.injEq]
          exact ⟨fun h => (by cases h), fun h => absurd h.symm hp⟩
        · simp [hc, hm]
  nodup p := by
    rw [storedChildren_attach]
    split
    · exact nodup
    · exact linked.nodup p
  lt p c := by
    rw [storedChildren_attach]
    split
    · rename_i h
      exact fun hc => h ▸ known c hc
    · exact linked.lt p c

/-! ### Adding nodes -/

/-- A tree under construction. -/
structure TreeBuilder where
  file : FileId
  interner : Interner
  nodes : Array (Node Nat)
  /-- Where the next node without children is placed. -/
  offset : Nat
  linked : Linked nodes

namespace TreeBuilder

/-- Nothing has been added yet. -/
def empty (file : FileId) (interner : Interner) : TreeBuilder :=
  ⟨file, interner, #[], 0, linked_empty⟩

/-- The number of offsets that 32 bits can tell apart. -/
def offsetLimit : Nat := 0x100000000

/-- Where a new node is placed, and where the next node without children will be. -/
def place (b : TreeBuilder) (text : Option String) (children : List Nat) :
    Except Fault (Span × Nat) :=
  match Span.coverAll (children.filterMap fun c => b.nodes[c]?.map Node.span) with
  | some span => .ok (span, b.offset)
  | none =>
    let stop := b.offset + (text.map String.utf8ByteSize).getD 0
    if stop + 1 < offsetLimit then .ok (⟨b.offset, stop⟩, stop + 1) else .error .offsetOverflow

/-- Adds a node over existing nodes and returns its number. -/
def node (b : TreeBuilder) (kind : SyntaxKind) (text : Option String) (children : List Nat) :
    Except Fault (Nat × TreeBuilder) :=
  if known : ∀ c ∈ children, c < b.nodes.size then
    match b.place text children with
    | .error fault => .error fault
    | .ok (span, offset) =>
      if free : children.Nodup ∧ ∀ c ∈ children, storedParent b.nodes c = none then
        let (name, interner) := b.interner.intern? text
        .ok (b.nodes.size,
          { file := b.file
            interner
            nodes := attach b.nodes ⟨kind, none, children, name, span⟩
            offset
            linked := b.linked.attach known free.1 free.2 rfl })
      else .error .attachedTwice
  else .error .unknownNode

/-- Adds the nodes of a form from the inside to the outside and returns the outermost one. -/
def add (b : TreeBuilder) : Form Nat → Except Fault (Nat × TreeBuilder)
  | .node kind text children => b.node kind text children
  | .around kind text before inner after =>
    match b.add inner with
    | .error fault => .error fault
    | .ok (child, b) => b.node kind text (before ++ child :: after)

/-- The node at a place in a list of nodes. -/
def nodeAt (made : List Nat) (place : Nat) : Except Fault Nat :=
  match made[place]? with
  | some i => .ok i
  | none => .error .unknownNode

/-- Adds forms one after the other. A form refers to the outermost nodes of earlier forms by
their place in `made`, the list of those nodes, which is returned. -/
def addAll (b : TreeBuilder) (made : List Nat) :
    List (Form Nat) → Except Fault (List Nat × TreeBuilder)
  | [] => .ok (made, b)
  | form :: rest =>
    match form.mapRefs (nodeAt made) with
    | .error fault => .error fault
    | .ok form =>
      match b.add form with
      | .error fault => .error fault
      | .ok (i, b) => b.addAll (made ++ [i]) rest

/-- What adding a node gives when it succeeds: the node is stored at the end, with the range that it
is placed at. -/
theorem nodes_of_node {b b' : TreeBuilder} {kind : SyntaxKind} {text : Option String}
    {children : List Nat} {i : Nat} (h : b.node kind text children = .ok (i, b')) :
    i = b.nodes.size ∧
      ∃ name span, b.place text children = .ok (span, b'.offset) ∧
        b'.nodes = attach b.nodes ⟨kind, none, children, name, span⟩ := by
  unfold node at h
  split at h
  · split at h
    · cases h
    · rename_i span offset hplace
      split at h
      · obtain ⟨rfl, rfl⟩ := Prod.mk.inj (Except.ok.inj h)
        exact ⟨rfl, _, span, hplace, rfl⟩
      · cases h
  · cases h

end TreeBuilder

/-! ### Finished trees -/

namespace Node

/-- A node whose neighbours are numbered below `n`. -/
def restrict (n : Nat) (nd : Node Nat) : Node (Fin n) :=
  { nd with
    parent := nd.parent.bind (below? n)
    children := nd.children.filterMap (below? n) }

theorem mem_children_restrict {n : Nat} {nd : Node Nat} {c : Fin n} :
    c ∈ (nd.restrict n).children ↔ c.val ∈ nd.children := by
  simp [restrict, List.mem_filterMap, below?_eq_some_iff]

theorem parent_restrict {n : Nat} {nd : Node Nat} {p : Fin n} :
    (nd.restrict n).parent = some p ↔ nd.parent = some p.val := by
  simp [restrict, Option.bind_eq_some_iff, below?_eq_some_iff]

theorem nodup_children_restrict {n : Nat} {nd : Node Nat} (h : nd.children.Nodup) :
    (nd.restrict n).children.Nodup := by
  refine List.Pairwise.filterMap (below? n) (fun a b ne i hi j hj => ?_) h
  rw [below?_eq_some_iff] at hi hj
  exact fun e => ne (hi.trans ((congrArg Fin.val e).trans hj.symm))

end Node

/-- A finished tree together with the names in it. -/
structure Source where
  size : Nat
  tree : SyntaxTree size
  interner : Interner

namespace TreeBuilder

/-- The tree of all nodes added so far, the last of which is the root. -/
def toTree (b : TreeBuilder) (root : Nat) (last : b.nodes.size = root + 1)
    (kind : b.nodes[root]?.map Node.kind = some .sourceFile) : SyntaxTree b.nodes.size where
  file := b.file
  nodes := Vector.ofFn fun i => b.nodes[i].restrict b.nodes.size
  root := ⟨root, by omega⟩
  mem_children_iff_parent p c := by
    simpa [Node.mem_children_restrict, Node.parent_restrict, storedChildren, storedParent]
      using b.linked.mem_iff p.val c.val
  nodup_node_children p := by
    have := b.linked.nodup p.val
    simp only [storedChildren, Array.getElem?_eq_getElem p.isLt, Option.map_some,
      Option.getD_some] at this
    simpa using Node.nodup_children_restrict this
  child_lt_parent p c h := by
    refine b.linked.lt p.val c.val ?_
    simpa [storedChildren, Node.mem_children_restrict] using h
  le_root i := by
    show i.val ≤ root
    have := i.isLt
    omega
  kind_node_root := by
    obtain ⟨nd, found, hk⟩ := Option.map_eq_some_iff.1 kind
    obtain ⟨lt, rfl⟩ := Array.getElem?_eq_some_iff.1 found
    simpa [Node.restrict] using hk

/-- Puts a source file above the top-level statements. -/
def finish (b : TreeBuilder) (statements : List Nat) : Except Fault Source :=
  match added : b.node .sourceFile none statements with
  | .error fault => .error fault
  | .ok (root, b') =>
    have last : b'.nodes.size = root + 1 := by
      obtain ⟨rfl, _, _, _, nodes⟩ := nodes_of_node added
      rw [nodes, size_attach]
    have kind : b'.nodes[root]?.map Node.kind = some .sourceFile := by
      obtain ⟨rfl, _, _, _, nodes⟩ := nodes_of_node added
      rw [nodes, getElem?_attach, if_pos rfl, Option.map_some]
    .ok ⟨b'.nodes.size, b'.toTree root last kind, b'.interner⟩

end TreeBuilder

namespace Source

/-- Builds a tree from forms; the top-level statements, like the references in the forms, are
places in the list of forms. -/
def build (file : FileId) (interner : Interner) (forms : List (Form Nat)) (statements : List Nat) :
    Except Fault Source := do
  let (made, b) ← (TreeBuilder.empty file interner).addAll [] forms
  let statements ← statements.mapM (TreeBuilder.nodeAt made)
  b.finish statements

end Source

end Predeclare
