import Predeclare.Proofs.Binding.Answers

set_option relaxedAutoImplicit false
set_option autoImplicit false

/-!
# Where the binder's walk comes

The walk comes to each node with a scope and with the binding of the nodes before it. A look-up that
starts in a scope which is not there would find nothing and be taken for an undefined name. This
never happens: the scope that the walk comes with is one of the scopes that there are by then. The
symbols that references are bound to are there, too.

Nodes are asked to declare names whatever their kind is, which is a fault if nodes of this kind
declare nothing. Statements, parameters and named functions can declare what they are asked to;
declarators and the elements of patterns are the ones that may not.

## Main definitions

* `WalkReaches` — the walk comes to a node, with a scope and a binding.
* `SyntaxTree.isDeclarator`, `SyntaxTree.isElement` — the places of declarators and of elements.
* `SyntaxTree.Declarable` — declarators and elements of patterns with a text can declare it.

## Main results

* `WalkReaches.covers` — the binding that the walk comes with is made of the nodes before.
* `WalkReaches.scope_lt` — the scope that the walk comes with is there.
* `Binding.Covers.index_lt_of_reference` — the symbols of references are there.
* `SyntaxTree.Declarable.isDeclaration` — no scope asks a node for what it cannot declare.
-/

namespace Predeclare

variable {n : Nat}

/-- **The walk of the binder**, started at the root with `B₀`, comes to a node in a scope and with a
binding. It starts at the root in the global scope. From a node that is no identifier it goes on to
each child in the scope that the node opens, with the binding that the children before it leave. -/
inductive WalkReaches (t : SyntaxTree n) (J : Interner) (E : Enumeration) (B₀ : Binding n) :
    ScopeId → Fin n → Binding n → Prop
  | root : WalkReaches t J E B₀ ScopeTree.globalScope t.root B₀
  | child {scope inner : ScopeId} {i c : Fin n} {B B₁ B₂ : Binding n} {before after : List (Fin n)}
      (reached : WalkReaches t J E B₀ scope i B) (hkind : t.kind i ≠ .identifier)
      (hopen : B.openScope t scope i = .ok (inner, B₁))
      (hchildren : t.children i = before ++ c :: after)
      (hbefore : before.foldlM (fun B d => bindNode t J E inner d B) B₁ = .ok B₂) :
      WalkReaches t J E B₀ inner c B₂

namespace WalkReaches

variable {t : SyntaxTree n} {J : Interner} {E : Enumeration} {globals : List Name}
  {B₀ B : Binding n}
  {scope : ScopeId} {i : Fin n}

/-- **The binding that the walk comes with** is made of the nodes before, and the scope is the one
around the node.

**Proof sketch.** Induction along the walk. The scope of a node is opened when the nodes before it
have been looked at, and a child is reached when the children before it have been. -/
theorem covers (h : WalkReaches t J E B₀ scope i B) (hspelled : t.Spelled J)
    (hglobals : ∀ g ∈ globals, J.Knows g) (hB₀ : B₀.Covers t globals []) :
    scope = t.enclosingScope i ∧ ∃ done rest,
      t.surface t.root = done ++ t.surface i ++ rest ∧ B.Covers t globals done := by
  induction h with
  | root => exact ⟨SyntaxTree.enclosingScope_root.symm, [], [], by simp, hB₀⟩
  | @child scope inner i c B B₁ B₂ before after _ hkind hopen hchildren hbefore ih =>
    -- `i` opens its scope when `done` is done; the children before `c` are walked over in it.
    obtain ⟨rfl, done, rest, hsplit, hB⟩ := ih
    rw [SyntaxTree.surface_of_not_identifier hkind] at hsplit
    have hsplit₁ : t.surface t.root = done ++ i :: ((t.children i).flatMap t.surface ++ rest) := by
      rw [hsplit]
      simp
    obtain ⟨hinner, hB₁⟩ := (hB.openScope hsplit₁ hkind).of_ok hopen
    dsimp only at hinner hB₁
    subst hinner
    have hsplit₂ : t.surface t.root =
        (done ++ [i]) ++ (t.children i).flatMap t.surface ++ rest := by
      rw [hsplit]
      simp
    have hB₂ := (Binding.Covers.foldlM_children hchildren
      (fun d _ => fun hd => hd.bindNode hspelled hglobals d) hB₁ hsplit₂).of_ok hbefore
    have hc : c ∈ t.children i := by
      rw [hchildren]
      simp
    refine ⟨(SyntaxTree.enclosingScope_of_parent (SyntaxTree.mem_children_iff.1 hc)).symm,
      done ++ [i] ++ before.flatMap t.surface, after.flatMap t.surface ++ rest, ?_, hB₂⟩
    rw [hsplit₂, hchildren]
    simp

/-- **The scope that the walk comes with is there.** -/
theorem scope_lt (h : WalkReaches t J E B₀ scope i B) (hspelled : t.Spelled J)
    (hglobals : ∀ g ∈ globals, J.Knows g) (hB₀ : B₀.Covers t globals []) :
    scope.index < B.scopes.scopes.size := by
  obtain ⟨rfl, done, rest, hsplit, hB⟩ := h.covers hspelled hglobals hB₀
  rw [SyntaxTree.surface_eq t i, List.append_assoc, List.cons_append] at hsplit
  exact hB.enclosingScope_lt hsplit

end WalkReaches

/-- The symbols of references are there. -/
lemma Binding.Covers.index_lt_of_reference {t : SyntaxTree n} {globals : List Name} {B : Binding n}
    (h : B.Covers t globals (t.surface t.root)) {r : Fin n} {s : SymbolId}
    (hs : B.symbols.reference? r = some s) : s.index < B.symbols.symbols.size := by
  obtain ⟨_, _, name, _, hname, _⟩ := h.reference?_eq_some_iff.1 hs
  obtain ⟨data, hdata, _⟩ := h.exists_symbol_of_reference hs hname
  exact (Array.getElem?_eq_some_iff.1 hdata).1

/-! ## Nodes that can declare -/

namespace SyntaxTree

section Places

variable (t : SyntaxTree n)

/-- Whether a node stands where the binder looks for declarators: in a list of declarators of a
variable statement that is one of the statements of a node that the root leads to. -/
def isDeclarator (i : Fin n) : Bool :=
  ((t.parent i).bind t.parent).any fun statement =>
    t.kind statement = .variableStatement && (t.parent statement).any fun list =>
      statement ∈ t.statements list && t.Reachable list

/-- Whether a node stands where the binder looks for elements of a binding pattern: in the pattern
that is the first child of a declarator without a name. -/
def isElement (i : Fin n) : Bool :=
  (t.parent i).any fun pattern =>
    (t.kind pattern = .objectBindingPattern || t.kind pattern = .arrayBindingPattern) &&
      (t.parent pattern).any fun declarator =>
        (t.children declarator).head? = some pattern && t.text declarator = none &&
          t.isDeclarator declarator

variable {t} {i : Fin n}

/-- The place of a declarator, seen from above. -/
lemma isDeclarator_iff :
    t.isDeclarator i = true ↔ ∃ list statement declarators, t.Reachable list ∧
      statement ∈ t.statements list ∧ t.kind statement = .variableStatement ∧
      declarators ∈ t.children statement ∧ i ∈ t.children declarators := by
  simp only [isDeclarator, Option.any_eq_true, Option.bind_eq_some_iff, Bool.and_eq_true,
    decide_eq_true_eq, ← mem_children_iff]
  constructor
  · rintro ⟨statement, ⟨declarators, hi, hdeclarators⟩, hkind, list, _, hstatement, hlist⟩
    exact ⟨list, statement, declarators, hlist, hstatement, hkind, hdeclarators, hi⟩
  · rintro ⟨list, statement, declarators, hlist, hstatement, hkind, hdeclarators, hi⟩
    exact ⟨statement, ⟨declarators, hi, hdeclarators⟩, hkind, list,
      (statements_sublist_children list).subset hstatement, hstatement, hlist⟩

/-- The place of an element, seen from above. -/
lemma isElement_iff :
    t.isElement i = true ↔ ∃ declarator pattern, t.isDeclarator declarator = true ∧
      t.text declarator = none ∧ (t.children declarator).head? = some pattern ∧
      (t.kind pattern = .objectBindingPattern ∨ t.kind pattern = .arrayBindingPattern) ∧
      i ∈ t.children pattern := by
  simp only [isElement, Option.any_eq_true, Bool.and_eq_true, Bool.or_eq_true, decide_eq_true_eq,
    ← mem_children_iff]
  constructor
  · rintro ⟨pattern, hi, hkind, declarator, _, ⟨hhead, htext⟩, hdeclarator⟩
    exact ⟨declarator, pattern, hdeclarator, htext, hhead, hkind, hi⟩
  · rintro ⟨declarator, pattern, hdeclarator, htext, hhead, hkind, hi⟩
    exact ⟨pattern, hi, hkind, declarator, List.mem_of_head? hhead, ⟨hhead, htext⟩, hdeclarator⟩

end Places

end SyntaxTree

/-- Declarators and the elements of binding patterns can declare the names that they give. -/
structure SyntaxTree.Declarable (t : SyntaxTree n) : Prop where
  declarator : ∀ i, t.isDeclarator i = true → t.text i ≠ none → (t.kind i).isDeclaration = true
  element : ∀ i, t.isElement i = true → t.text i ≠ none → (t.kind i).isDeclaration = true

instance (t : SyntaxTree n) : Decidable t.Declarable :=
  decidable_of_iff
    ((∀ i, t.isDeclarator i = true → t.text i ≠ none → (t.kind i).isDeclaration = true) ∧
      ∀ i, t.isElement i = true → t.text i ≠ none → (t.kind i).isDeclaration = true)
    ⟨fun h => ⟨h.1, h.2⟩, fun h => ⟨h.declarator, h.element⟩⟩

namespace SyntaxTree.Declarable

variable {t : SyntaxTree n} {i : Fin n} {d : Declaration n}

/-- Patterns are asked only for what they can declare.

**Proof sketch.** What a pattern declares are elements of it with a name. The pattern is the first
child of a declarator without a name, so that its elements are those that can declare. -/
lemma isDeclaration_of_pattern (h : t.Declarable) {declarator pattern : Fin n}
    (his : t.isDeclarator declarator = true) (hno : t.text declarator = none)
    (hhead : (t.children declarator).head? = some pattern)
    (hd : d ∈ t.patternDeclarations pattern) : (t.kind d.node).isDeclaration = true := by
  have helement : d ∈ (t.children pattern).filterMap (t.namedDeclaration .variable) →
      (t.kind pattern = .objectBindingPattern ∨ t.kind pattern = .arrayBindingPattern) →
      (t.kind d.node).isDeclaration = true := by
    intro hmem hpattern
    obtain ⟨element, helement, hd⟩ := List.mem_filterMap.1 hmem
    obtain ⟨hnode, _, htext⟩ := of_namedDeclaration hd
    rw [hnode]
    have hplace : t.isElement element = true := isElement_iff.2
      ⟨declarator, pattern, his, hno, hhead, hpattern, helement⟩
    exact h.element element hplace (by simp [htext])
  simp only [patternDeclarations] at hd
  split at hd
  · rename_i hpattern
    exact helement hd (Or.inl hpattern)
  · rename_i hpattern
    exact helement hd (Or.inr hpattern)
  · exact absurd hd List.not_mem_nil

/-- Declarators are asked only for what they can declare. -/
lemma isDeclaration_of_declarator (h : t.Declarable) {declarator : Fin n}
    (his : t.isDeclarator declarator = true) (hd : d ∈ t.declaratorDeclarations declarator) :
    (t.kind d.node).isDeclaration = true := by
  simp only [declaratorDeclarations] at hd
  split at hd
  · rename_i d' hd'
    rw [List.mem_singleton.1 hd]
    obtain ⟨hnode, _, htext⟩ := of_namedDeclaration hd'
    rw [hnode]
    exact h.declarator declarator his (by simp [htext])
  · rename_i hnone
    have hno : t.text declarator = none := Option.map_eq_none_iff.1 hnone
    split at hd
    · exact absurd hd List.not_mem_nil
    · rename_i pattern rest hchildren
      have hhead : (t.children declarator).head? = some pattern := by rw [hchildren]; rfl
      exact h.isDeclaration_of_pattern his hno hhead hd

/-- Statements are asked only for what they can declare.

**Proof sketch.** One case for each kind of statement. A function, a class or a module is itself the
declaring node; a variable statement asks its declarators. -/
lemma isDeclaration_of_statement (h : t.Declarable) {list statement : Fin n}
    (hlist : t.Reachable list) (hstatement : statement ∈ t.statements list)
    (hd : d ∈ t.statementDeclarations statement) : (t.kind d.node).isDeclaration = true := by
  simp only [statementDeclarations] at hd
  split at hd
  · rename_i hkind
    obtain ⟨declarators, hdeclarators, hd⟩ := List.mem_flatMap.1 hd
    obtain ⟨declarator, hdeclarator, hd⟩ := List.mem_flatMap.1 hd
    have his : t.isDeclarator declarator = true := isDeclarator_iff.2
      ⟨list, statement, declarators, hlist, hstatement, hkind, hdeclarators, hdeclarator⟩
    exact h.isDeclaration_of_declarator his hd
  · rename_i hkind
    rw [(of_namedDeclaration (Option.mem_toList.1 hd)).1, hkind]
    rfl
  · rename_i hkind
    rw [(of_namedDeclaration (Option.mem_toList.1 hd)).1, hkind]
    rfl
  · rename_i hkind
    rw [(of_namedDeclaration (Option.mem_toList.1 hd)).1, hkind]
    rfl
  · exact absurd hd List.not_mem_nil

/-- Statement lists are asked only for what they can declare. -/
lemma isDeclaration_of_list (h : t.Declarable) (hi : t.Reachable i)
    (hd : d ∈ t.listDeclarations i) : (t.kind d.node).isDeclaration = true := by
  obtain ⟨statement, hstatement, hd⟩ := List.mem_flatMap.1 hd
  exact h.isDeclaration_of_statement hi hstatement hd

/-- **No scope asks a node for what it cannot declare.**

**Proof sketch.** One case for each kind of scope. Lists are covered by their statements; a function
asks itself and its parameters. -/
theorem isDeclaration (h : t.Declarable) (hi : t.Reachable i) (hd : d ∈ t.scopeDeclarations i) :
    (t.kind d.node).isDeclaration = true := by
  simp only [scopeDeclarations] at hd
  split at hd
  · exact h.isDeclaration_of_list hi hd
  · exact h.isDeclaration_of_list hi hd
  · exact h.isDeclaration_of_list hi hd
  · obtain ⟨clause, hclause, hd⟩ := List.mem_flatMap.1 hd
    exact h.isDeclaration_of_list (hi.child hclause) hd
  · rcases List.mem_append.1 hd with hd | hd
    · simp only [selfDeclarations] at hd
      split at hd
      · rename_i hkind
        rw [(of_namedDeclaration (Option.mem_toList.1 hd)).1, hkind]
        rfl
      · exact absurd hd List.not_mem_nil
    · obtain ⟨c, hc, hd⟩ := List.mem_filterMap.1 hd
      have hkind : t.kind c = .parameter := of_decide_eq_true (List.mem_filter.1 hc).2
      rw [(of_namedDeclaration hd).1, hkind]
      rfl
  · exact absurd hd List.not_mem_nil
  · exact absurd hd List.not_mem_nil

/-- A unit whose nodes can declare what they are asked to misdeclares nothing. -/
lemma not_misdeclares (h : t.Declarable) (fault : Fault) : ¬ t.Misdeclares fault := by
  rintro ⟨a, ha, d, hd, hkind, _⟩
  rw [h.isDeclaration (SyntaxTree.mem_surface_root_iff.1 ha).1 hd] at hkind
  cases hkind

end SyntaxTree.Declarable

end Predeclare
