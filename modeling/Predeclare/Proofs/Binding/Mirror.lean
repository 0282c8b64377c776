import Predeclare.Proofs.Binding.Reports

set_option relaxedAutoImplicit false
set_option autoImplicit false

/-!
# The scopes of a unit

The scopes that binding leaves behind copy the shape of the tree. Behind the global scope there is
one scope for each node that introduces one, in preorder. Its parent is the scope of the nearest
such node above, and a name is defined in it by the first declaration that the node makes of the
name, wherever the declarations of other scopes stand.

As the binder does not look below an identifier, nodes there get no scope.

## Main definitions

* `SyntaxTree.scopeNodes` — the nodes that get a scope, in preorder.
* `Binding.IsScopeOf` — what the scope of one node looks like.
* `Binding.MirrorsTree` — what all scopes of a unit look like.

## Main results

* `bind_scopes_mirror_tree` — the scopes of every unit mirror its tree.
-/

namespace Predeclare

variable {n : Nat}

namespace SyntaxTree

variable (t : SyntaxTree n)

/-- The nodes that introduce a scope and are not below an identifier, in preorder. -/
def scopeNodes : List (Fin n) := t.boundNodes.filter t.introducesScope

/-- The number of symbols in front of those of the `k`-th node with a scope: the globals, and the
declarations of the scopes before. -/
def symbolsBefore (spellings : List String) (k : Nat) : Nat :=
  distinctGlobals spellings + ((t.scopeNodes.take k).flatMap t.scopeDeclarations).length

end SyntaxTree

namespace Binding

variable (t : SyntaxTree n) (J : Interner) (spellings : List String) (B : Binding n)

/-- What the scope of `a` looks like, where `a` is the `k`-th node with a scope. -/
structure IsScopeOf (k : Nat) (a : Fin n) (scope : Scope (Fin n)) : Prop where
  node : scope.node = some a
  kind : t.scopeKind? a = some scope.kind
  parent :
    match (t.above a).find? t.introducesScope with
    | some b => ∃ j, t.scopeNodes[j]? = some b ∧ scope.parent = some ⟨j + 1⟩
    | none => scope.parent = some ScopeTree.globalScope
  definitions : ∀ name,
    match t.firstDeclaration? a name with
    | some d =>
      ∃ s, scope.definitions.get? name = some ⟨s, t.span d.node⟩ ∧
        B.symbols.symbol? s = some d.symbol ∧
        s.index = t.symbolsBefore spellings k + (t.scopeDeclarations a).findIdx (·.name = name)
    | none => scope.definitions.get? name = none

/-- What the global scope looks like: it defines the globals, by their symbols. -/
structure IsGlobalScope (scope : Scope (Fin n)) : Prop where
  node : scope.node = none
  kind : scope.kind = .global
  parent : scope.parent = none
  definitions : ∀ name,
    scope.definitions.get? name = (B.symbols.global? name).map fun s => ⟨s, t.file, .origin⟩
  globals : ∀ name, (scope.definitions.get? name).isSome ↔
    ∃ spelling ∈ "undefined" :: spellings, J.spelling name = .ok spelling

/-- The scopes are the global one, and one for each node that introduces a scope, in preorder. -/
structure MirrorsTree : Prop where
  size : B.scopes.size = t.scopeNodes.length + 1
  global : ∃ scope, B.scopes.scope? ScopeTree.globalScope = some scope ∧
    B.IsGlobalScope t J spellings scope
  ofNode : ∀ k a, t.scopeNodes[k]? = some a →
    ∃ scope, B.scopes.scope? ⟨k + 1⟩ = some scope ∧ B.IsScopeOf t spellings k a scope

end Binding

variable {t : SyntaxTree n} {I J : Interner} {E : Enumeration} {spellings : List String}
  {globals : List Name}

namespace SyntaxTree

/-- The nodes with a scope are numbered in preorder. -/
lemma scopeNodes_eq : t.scopeNodes = t.scopeOrder := by
  simp only [scopeNodes, scopeOrder, boundNodes, surface_root_eq_filter]

/-- No node has two scopes. -/
lemma nodup_scopeOrder : t.scopeOrder.Nodup := (nodup_surface t.root).filter _

/-- The `k`-th node with a scope is on the surface, and `k` nodes with a scope come before it. -/
lemma of_getElem?_scopeOrder {k : Nat} {a : Fin n} (h : t.scopeOrder[k]? = some a) :
    a ∈ t.surface t.root ∧ t.introducesScope a = true ∧ t.scopeOrder.idxOf a = k := by
  obtain ⟨hk, rfl⟩ := List.getElem?_eq_some_iff.1 h
  obtain ⟨hsurface, hscope⟩ := List.mem_filter.1 (List.getElem_mem hk)
  exact ⟨hsurface, hscope, nodup_scopeOrder.idxOf_getElem k hk⟩

/-- The scope that a node lies in is that of the nearest node above that introduces one. -/
lemma enclosingScope_eq (i : Fin n) :
    t.enclosingScope i =
      (((t.above i).find? t.introducesScope).map t.scopeNumber).getD ScopeTree.globalScope := by
  simp only [enclosingScope]
  rw [← List.head?_filter, ← scopesAround]
  cases t.scopesAround i <;> rfl

/-- The first entry with a name has the place of the first declaration with the name.

**Proof sketch.** By induction on the declarations, for any first number: both sides look at the
head, and either stop there or go on with the next number. -/
lemma find?_zipIdx_eq (first : Nat) (ds : List (Declaration n)) (name : Name) :
    (ds.zipIdx first).find? (·.1.name = name) =
      (ds.find? (·.name = name)).map fun d => (d, first + ds.findIdx (·.name = name)) := by
  induction ds generalizing first with
  | nil => rfl
  | cons d rest ih =>
    rw [List.zipIdx_cons, List.find?_cons, List.find?_cons, List.findIdx_cons]
    by_cases h : d.name = name
    · simp [h]
    · simp only [h, decide_false, cond_false]
      rw [ih]
      congr 1
      funext d'
      rw [Nat.add_right_comm, Nat.add_assoc]

/-- The scope of a node defines each name by the first declaration of the name. -/
lemma get?_scopeDefinitions (globals : List Name) (a : Fin n) (name : Name) :
    (t.scopeDefinitions globals a).get? name =
      (t.firstDeclaration? a name).map fun d =>
        ⟨⟨t.firstSymbol globals a + (t.scopeDeclarations a).findIdx (·.name = name)⟩,
          t.span d.node⟩ := by
  simp only [scopeDefinitions]
  rw [get?_definitionsFrom, find?_zipIdx_eq, Option.map_map]
  rfl

end SyntaxTree

namespace Binding.Covers

variable {B : Binding n}

/-- The scope of a surface node has the parent, the node and the definitions that the tree gives.

**Proof sketch.** The data are those that the tree prescribes for the node. The parent is the first
scope above, which has its own place in the order of scopes, and a definition carries the number
that the declarations of the scopes before leave for it. -/
lemma isScopeOf (h : B.Covers t globals (t.surface t.root))
    (hglobals : GlobalNames J spellings globals) {k : Nat} {a : Fin n}
    (ha : t.scopeOrder[k]? = some a) :
    B.IsScopeOf t spellings k a (t.scopeData globals a) := by
  obtain ⟨hsurface, hscope, hidx⟩ := SyntaxTree.of_getElem?_scopeOrder ha
  have hfirst : t.firstSymbol globals a = t.symbolsBefore spellings k := by
    simp only [SyntaxTree.firstSymbol, SyntaxTree.symbolsBefore]
    rw [hidx, hglobals.length_eq, SyntaxTree.scopeNodes_eq]
  refine ⟨rfl, ?_, ?_, fun name => ?_⟩
  · obtain ⟨kind, hkind⟩ := Option.isSome_iff_exists.1 hscope
    simp [SyntaxTree.scopeData, hkind]
  · simp only [SyntaxTree.scopeData, SyntaxTree.enclosingScope_eq]
    cases houter : (t.above a).find? t.introducesScope with
    | none => rfl
    | some b =>
      have hb : b ∈ t.scopeOrder := List.mem_filter.2
        ⟨(SyntaxTree.above_mem_surface hsurface (List.mem_of_find?_eq_some houter)).1,
          List.find?_some houter⟩
      refine ⟨t.scopeOrder.idxOf b, ?_, rfl⟩
      rw [SyntaxTree.scopeNodes_eq]
      exact List.getElem?_idxOf hb
  · have hget := SyntaxTree.get?_scopeDefinitions (t := t) globals a name
    cases hd : t.firstDeclaration? a name with
    | none =>
      rw [hd] at hget
      exact hget
    | some d =>
      rw [hd] at hget
      obtain ⟨m, hmem, hget'⟩ := SyntaxTree.get?_scopeDefinitions_of_firstDeclaration globals hd
      refine ⟨_, hget', h.symbol?_of_mem_zipIdx hsurface hscope hmem, ?_⟩
      have hdefinition := Option.some.inj (hget'.symm.trans hget)
      rw [← hfirst]
      exact congrArg (fun d : Definition => d.symbol.index) hdefinition

/-- The global scope defines the globals.

**Proof sketch.** Global scope and global table are filled from the same numbered list of
globals. -/
lemma isGlobalScope {done : List (Fin n)} (h : B.Covers t globals done)
    (hglobals : GlobalNames J spellings globals) :
    B.IsGlobalScope t J spellings (t.globalScopeData globals) := by
  refine ⟨rfl, rfl, rfl, fun name => ?_, fun name => ?_⟩
  · simp only [SyntaxTree.globalScopeData, SyntaxTree.globalDefinitions, SymbolTable.global?]
    rw [h.globalTable, OrderedMap.get?_ofFirst_zipIdx SymbolId.mk,
      OrderedMap.get?_ofFirst_zipIdx fun k => (⟨⟨k⟩, t.file, .origin⟩ : Definition),
      Option.map_map]
    rfl
  · have hmem : ((t.globalDefinitions globals).get? name).isSome ↔ name ∈ globals := by
      rw [← SyntaxTree.mem_keys_globalDefinitions (t := t), ← OrderedMap.contains_iff,
        OrderedMap.contains_eq_isSome]
    refine hmem.trans ⟨fun hname => hglobals.spelled name hname, ?_⟩
    rintro ⟨spelling, hspelling, hname⟩
    exact (hglobals.mem_iff hname).2 hspelling

/-- What all scopes look like when the surface of the tree has been looked at.

**Proof sketch.** `scopeNodes_eq` makes the node of scope `k + 1` the `k`-th of the surface that
introduces a scope, which is its `scopeNumber`. `scope?_scopeNumber` gives the scope with this
number and `isScopeOf` says what it looks like. -/
lemma mirrorsTree (h : B.Covers t globals (t.surface t.root))
    (hglobals : GlobalNames J spellings globals) : B.MirrorsTree t J spellings where
  size := by
    rw [SyntaxTree.scopeNodes_eq]
    exact h.size_scopes
  global := ⟨_, h.scope?_globalScope, h.isGlobalScope hglobals⟩
  ofNode := by
    intro k a ha
    rw [SyntaxTree.scopeNodes_eq] at ha
    obtain ⟨hsurface, hscope, hidx⟩ := SyntaxTree.of_getElem?_scopeOrder ha
    have hdata := h.scope?_scopeNumber (List.append_nil _).symm hsurface hscope
    simp only [SyntaxTree.scopeNumber, hidx] at hdata
    exact ⟨_, hdata, h.isScopeOf hglobals ha⟩

end Binding.Covers

/-- **The scopes of a unit mirror its tree**, as far as it is not below an identifier.

**Proof sketch.** `covers_bind` says that binding ends in a table that covers the whole surface or
in a refused declaration, which is ruled out. A table that covers the surface mirrors the tree
(`mirrorsTree`). -/
theorem bind_scopes_mirror_tree (hspelled : t.Spelled I)
    (hdeclares : ∀ kind, bind t I spellings E ≠ .error (.cannotDeclare kind)) :
    ∃ B J, bind t I spellings E = .ok (B, J) ∧ B.MirrorsTree t J spellings := by
  obtain ⟨J, globals, hJ, hglobals, hends⟩ := covers_bind hspelled spellings
  cases hbind : bind t I spellings E with
  | error fault =>
    obtain ⟨a, _, d, _, _, rfl⟩ := hends.of_error hbind
    exact absurd hbind (hdeclares _)
  | ok result =>
    obtain ⟨B, J'⟩ := result
    obtain ⟨rfl, hcovers⟩ := hends.of_ok hbind
    exact ⟨B, J', rfl, hcovers.mirrorsTree hglobals⟩

/-- The forms of `function f(p) { switch (p) { case 1: let a; default: let a; } }`. -/
def Form.switchInFunction : List (Form Nat) :=
  [parameter "p", identifier "p", literal "1", letStatement "a" none, caseClause 2 [3],
    letStatement "a" none, defaultClause [5], switchStatement 1 [4, 6],
    functionDeclaration "f" [0] [7]]

/-- The parameter belongs to the scope of the function and not to that of its body. The clauses
share one scope, which keeps the first of two declarations. -/
theorem bind_scopes_mirror_tree_switch :
    ∃ src, Source.build ⟨0⟩ .empty Form.switchInFunction [8] = .ok src ∧
      src.tree.Spelled src.interner ∧
      (∀ kind, bind src.tree src.interner [] ≠ .error (.cannotDeclare kind)) ∧
      ∃ B J, bind src.tree src.interner [] = .ok (B, J) ∧ B.MirrorsTree src.tree J [] ∧
        src.tree.scopeNodes.map src.tree.kind =
          [.sourceFile, .functionDeclaration, .block, .caseBlock] ∧
        B.scopes.scopes.toList.map (fun scope => (scope.parent, scope.definitions.entries)) =
          [(none, [(⟨4⟩, ⟨⟨0⟩, ⟨0⟩, .origin⟩)]),
            (some ⟨0⟩, [(⟨3⟩, ⟨⟨1⟩, ⟨0⟩, ⟨0, 9⟩⟩)]),
            (some ⟨1⟩, [(⟨0⟩, ⟨⟨2⟩, ⟨0⟩, ⟨0, 1⟩⟩)]),
            (some ⟨2⟩, []),
            (some ⟨3⟩, [(⟨2⟩, ⟨⟨3⟩, ⟨0⟩, ⟨6, 7⟩⟩)])] := by
  have hrun : EndsIn (fun _ => False)
      (fun src => EndsIn (fun _ => False)
        (fun r => src.tree.scopeNodes.map src.tree.kind =
            [.sourceFile, .functionDeclaration, .block, .caseBlock] ∧
          r.1.scopes.scopes.toList.map (fun scope => (scope.parent, scope.definitions.entries)) =
            [(none, [(⟨4⟩, ⟨⟨0⟩, ⟨0⟩, .origin⟩)]),
              (some ⟨0⟩, [(⟨3⟩, ⟨⟨1⟩, ⟨0⟩, ⟨0, 9⟩⟩)]),
              (some ⟨1⟩, [(⟨0⟩, ⟨⟨2⟩, ⟨0⟩, ⟨0, 1⟩⟩)]),
              (some ⟨2⟩, []),
              (some ⟨3⟩, [(⟨2⟩, ⟨⟨3⟩, ⟨0⟩, ⟨6, 7⟩⟩)])])
        (bind src.tree src.interner []))
      (Source.build ⟨0⟩ .empty Form.switchInFunction [8]) := by decide +kernel
  obtain ⟨src, hbuild, hsrc⟩ := hrun.exists_eq_ok
  obtain ⟨⟨B, J⟩, hbind, hnodes, hscopes⟩ := hsrc.exists_eq_ok
  have hspelled := Source.spelled_of_build hbuild
  have hdeclares : ∀ kind, bind src.tree src.interner [] ≠ .error (.cannotDeclare kind) := by
    intro kind h
    rw [hbind] at h
    cases h
  obtain ⟨B', J', hbind', hmirrors⟩ := bind_scopes_mirror_tree hspelled hdeclares
  obtain ⟨rfl, rfl⟩ := Prod.mk.inj (Except.ok.inj (hbind.symm.trans hbind'))
  exact ⟨src, hbuild, hspelled, hdeclares, B, J, hbind, hmirrors, hnodes, hscopes⟩

/-! ## A block below an identifier -/

/-- The forms of a reference with a block below it, in front of the declaration of its name. -/
def Form.blockBelowIdentifier : List (Form Nat) :=
  [block [], node .identifier (some "x") [0], expressionStatement 1, letStatement "x" none]

/-- The block is reachable and introduces a scope, but no scope belongs to it. -/
theorem scopes_fail_below_identifier :
    ∃ src B J, Source.build ⟨0⟩ .empty Form.blockBelowIdentifier [2, 3] = .ok src ∧
      bind src.tree src.interner [] = .ok (B, J) ∧ B.scopes.size = 2 ∧
      ∃ a, src.tree.Reachable a ∧ src.tree.kind a = .block ∧
        ∀ scope ∈ B.scopes.scopes.toList, scope.node ≠ some a := by
  have hrun : EndsIn (fun _ => False)
      (fun src => EndsIn (fun _ => False)
        (fun r => (r.1.scopes.size,
            ((src.tree.preorder src.tree.root).filter fun a =>
              r.1.scopes.scopes.toList.all (·.node ≠ some a)).map src.tree.kind) =
          (2, [.expressionStatement, .identifier, .block, .variableStatement,
            .variableDeclarationList, .variableDeclaration]))
        (bind src.tree src.interner []))
      (Source.build ⟨0⟩ .empty Form.blockBelowIdentifier [2, 3]) := by decide +kernel
  obtain ⟨src, hbuild, hsrc⟩ := hrun.exists_eq_ok
  obtain ⟨⟨B, J⟩, hbind, hvalues⟩ := hsrc.exists_eq_ok
  injection hvalues with hsize hkinds
  have hblock : SyntaxKind.block ∈ ((src.tree.preorder src.tree.root).filter fun a =>
      B.scopes.scopes.toList.all (·.node ≠ some a)).map src.tree.kind := by
    rw [hkinds]
    decide
  obtain ⟨a, ha, hkind⟩ := List.mem_map.1 hblock
  obtain ⟨hreach, hnone⟩ := List.mem_filter.1 ha
  refine ⟨src, B, J, hbuild, hbind, hsize, a, SyntaxTree.mem_preorder_root_iff.1 hreach, hkind,
    fun scope hscope => ?_⟩
  exact of_decide_eq_true (List.all_eq_true.1 hnone scope hscope)

end Predeclare
