import Mathlib.Logic.Function.Basic
import Predeclare.Proofs.Binding.Covers

set_option relaxedAutoImplicit false
set_option autoImplicit false

/-!
# Trees that differ in their names

Two trees over the same nodes may differ in nothing but the names in them, where equal names of the
one are equal names of the other. Their nodes lie above and below each other in the same way,
introduce the same scopes, and declare names at the same places. A name means a declaration in the
one tree if and only if the replaced name means the same declaration in the other.

## Main definitions

* `SyntaxTree.Renames` — a tree with its names replaced.
* `Declaration.rename` — a declaration with its name replaced.

## Main results

* `SyntaxTree.Renames.scopeDeclarations` — the declarations of a scope, with their names replaced.
* `SyntaxTree.Renames.visibleDefinition?` — the symbol that look-up finds is the same.
* `SyntaxTree.Renames.reports_eq_nil_iff` — what is reported in one tree is reported in the other.
-/

namespace Predeclare

variable {n : Nat}

/-- A declaration with its name replaced. -/
def Declaration.rename (g : Name → Name) (d : Declaration n) : Declaration n :=
  { d with name := g d.name }

/-- The tree `t'` is `t` with its names replaced. Nothing is said about locations. -/
structure SyntaxTree.Renames (g : Name → Name) (t t' : SyntaxTree n) : Prop where
  kind : t'.kind = t.kind
  children : t'.children = t.children
  text : ∀ i, t'.text i = (t.text i).map g

/-- A replaced name stands at the same place of the replaced list. -/
lemma find?_zipIdx_map {g : Name → Name} (hg : g.Injective) (names : List Name) (name : Name) :
    (names.map g).zipIdx.find? (·.1 = g name) =
      (names.zipIdx.find? (·.1 = name)).map (Prod.map g id) := by
  have hname : ((fun e : Name × Nat => decide (e.1 = g name)) ∘ Prod.map g id) =
      fun e => decide (e.1 = name) := by
    funext e
    simp [hg.eq_iff]
  rw [List.zipIdx_map, List.find?_map, hname]

namespace SyntaxTree.Renames

variable {g : Name → Name} {t t' : SyntaxTree n}

/-! ## The same nodes -/

/-- Nodes have the same parents. -/
lemma parent (h : Renames g t t') : t'.parent = t.parent := by
  funext c
  refine Option.ext fun p => ?_
  rw [← mem_children_iff, ← mem_children_iff, h.children]

/-- The root is the same. -/
lemma root (_ : Renames g t t') : t'.root = t.root :=
  Fin.le_antisymm (t.le_root _) (t'.le_root _)

/-- Nodes have the same ancestors. -/
lemma ancestors (h : Renames g t t') : t'.ancestors = t.ancestors := by
  funext i
  induction i using upwards_induction (t := t) with
  | top i hi => rw [ancestors_eq, ancestors_eq, h.parent, hi, Option.map_none, Option.map_none]
  | step i p hp ih =>
    rw [ancestors_eq, ancestors_eq, h.parent, hp, Option.map_some, Option.map_some, ih]

/-- The same nodes are above a node. -/
lemma above (h : Renames g t t') : t'.above = t.above := by
  funext i
  unfold SyntaxTree.above
  rw [h.ancestors]

/-- The same nodes lie below a node, in the same order. -/
lemma preorder (h : Renames g t t') : t'.preorder = t.preorder := by
  funext i
  induction i using downwards_induction (t := t) with
  | step i ih =>
    rw [preorder_eq, preorder_eq, h.children]
    exact congrArg (i :: ·) (List.flatMap_congr ih)

/-- The same nodes lie on the surface below a node. -/
lemma surface (h : Renames g t t') : t'.surface = t.surface := by
  funext i
  induction i using downwards_induction (t := t) with
  | step i ih =>
    rw [surface_eq, surface_eq, h.children, h.kind, List.flatMap_congr ih]

/-- The same nodes lie below identifiers. -/
lemma belowIdentifier_iff (h : Renames g t t') {i : Fin n} :
    t'.BelowIdentifier i ↔ t.BelowIdentifier i := by
  unfold BelowIdentifier
  rw [h.above, h.kind]

/-- Nodes own the same statements. -/
lemma statements (h : Renames g t t') : t'.statements = t.statements := by
  funext i
  unfold SyntaxTree.statements isBlockLike
  rw [h.kind, h.children]

/-- Nodes introduce the same kinds of scopes. -/
lemma scopeKind? (h : Renames g t t') : t'.scopeKind? = t.scopeKind? := by
  funext i
  simp only [SyntaxTree.scopeKind?, h.kind]

/-- The same nodes introduce scopes. -/
lemma introducesScope (h : Renames g t t') : t'.introducesScope = t.introducesScope := by
  funext i
  simp only [SyntaxTree.introducesScope, h.scopeKind?]

/-- The same scopes are around a node. -/
lemma scopesAround (h : Renames g t t') : t'.scopesAround = t.scopesAround := by
  funext i
  simp only [SyntaxTree.scopesAround, h.above, h.introducesScope]

/-- The scopes come in the same order. -/
lemma scopeOrder (h : Renames g t t') : t'.scopeOrder = t.scopeOrder := by
  simp only [SyntaxTree.scopeOrder, h.surface, h.root, h.introducesScope]

/-! ## The same declarations -/

/-- A node declares its name, replaced. -/
lemma namedDeclaration (h : Renames g t t') (kind : SymbolKind) (i : Fin n) :
    t'.namedDeclaration kind i = (t.namedDeclaration kind i).map (.rename g) := by
  simp only [SyntaxTree.namedDeclaration, h.text, Option.map_map]
  rfl

/-- A list of nodes declares their names, replaced. -/
lemma filterMap_namedDeclaration (h : Renames g t t') (kind : SymbolKind) (l : List (Fin n)) :
    l.filterMap (t'.namedDeclaration kind) =
      (l.filterMap (t.namedDeclaration kind)).map (.rename g) := by
  rw [List.map_filterMap]
  exact congrArg (List.filterMap · l) (funext (h.namedDeclaration kind))

/-- Patterns declare the same names, replaced. -/
lemma patternDeclarations (h : Renames g t t') (i : Fin n) :
    t'.patternDeclarations i = (t.patternDeclarations i).map (.rename g) := by
  simp only [SyntaxTree.patternDeclarations, h.kind, h.children, h.filterMap_namedDeclaration]
  cases t.kind i <;> rfl

/-- Declarators declare the same names, replaced. -/
lemma declaratorDeclarations (h : Renames g t t') (i : Fin n) :
    t'.declaratorDeclarations i = (t.declaratorDeclarations i).map (.rename g) := by
  simp only [SyntaxTree.declaratorDeclarations, h.namedDeclaration, h.children]
  cases t.namedDeclaration .variable i with
  | some d => rfl
  | none =>
    cases t.children i with
    | nil => rfl
    | cons pattern rest => exact h.patternDeclarations pattern

/-- Statements declare the same names, replaced. -/
lemma statementDeclarations (h : Renames g t t') (i : Fin n) :
    t'.statementDeclarations i = (t.statementDeclarations i).map (.rename g) := by
  have hdeclarators : t'.declaratorDeclarations =
      fun i => (t.declaratorDeclarations i).map (.rename g) := funext h.declaratorDeclarations
  simp only [SyntaxTree.statementDeclarations, h.kind, h.children, h.namedDeclaration,
    hdeclarators, ← List.map_flatMap, Option.toList_map]
  cases t.kind i <;> rfl

/-- Statement lists declare the same names, replaced. -/
lemma listDeclarations (h : Renames g t t') (i : Fin n) :
    t'.listDeclarations i = (t.listDeclarations i).map (.rename g) := by
  simp only [SyntaxTree.listDeclarations, h.statements, List.map_flatMap]
  exact List.flatMap_congr fun s _ => h.statementDeclarations s

/-- **Scopes declare the same names, replaced**, in the same order and at the same nodes.

**Proof sketch.** The kind of a node decides from which parts its declarations come. Each part is
mapped: the name of the node itself, its parameters, and the declarations of statement lists. -/
theorem scopeDeclarations (h : Renames g t t') (i : Fin n) :
    t'.scopeDeclarations i = (t.scopeDeclarations i).map (.rename g) := by
  have hself : t'.selfDeclarations i = (t.selfDeclarations i).map (.rename g) := by
    simp only [selfDeclarations, h.kind, h.namedDeclaration, Option.toList_map]
    split <;> rfl
  have hparameters : t'.parameterDeclarations i =
      (t.parameterDeclarations i).map (.rename g) := by
    simp only [parameterDeclarations, h.kind, h.children, h.filterMap_namedDeclaration]
  have hlists : t'.listDeclarations = fun i => (t.listDeclarations i).map (.rename g) :=
    funext h.listDeclarations
  simp only [SyntaxTree.scopeDeclarations, h.scopeKind?, h.children, hlists, hself, hparameters,
    ← List.map_flatMap, ← List.map_append]
  split <;> rfl

/-- The scopes of a list of nodes declare the same names, replaced. -/
lemma flatMap_scopeDeclarations (h : Renames g t t') (l : List (Fin n)) :
    l.flatMap t'.scopeDeclarations = (l.flatMap t.scopeDeclarations).map (.rename g) := by
  rw [List.map_flatMap]
  exact List.flatMap_congr fun i _ => h.scopeDeclarations i

/-- The first symbol of a scope has the same number. -/
lemma firstSymbol (h : Renames g t t') (globals : List Name) (a : Fin n) :
    t'.firstSymbol (globals.map g) a = t.firstSymbol globals a := by
  simp only [SyntaxTree.firstSymbol, h.scopeOrder, h.flatMap_scopeDeclarations, List.length_map]

/-! ## The same meanings -/

/-- A replaced name has the same symbol in a scope.

**Proof sketch.** Both sides look for the first numbered declaration with the name. The declarations
are replaced ones with the same numbers, and a replaced name equals `g name` only if it was
`name`. -/
lemma get?_scopeDefinitions (h : Renames g t t') (hg : g.Injective) (globals : List Name)
    (a : Fin n) (name : Name) :
    ((t'.scopeDefinitions (globals.map g) a).get? (g name)).map Definition.symbol =
      ((t.scopeDefinitions globals a).get? name).map Definition.symbol := by
  unfold scopeDefinitions
  rw [get?_definitionsFrom, get?_definitionsFrom, h.firstSymbol, h.scopeDeclarations,
    List.zipIdx_map, List.find?_map, Option.map_map, Option.map_map, Option.map_map]
  have hname : ((fun d : Declaration n × Nat => decide (d.1.name = g name)) ∘
      Prod.map (Declaration.rename g) id) = fun d => decide (d.1.name = name) := by
    funext d
    simp [Declaration.rename, hg.eq_iff]
  rw [hname]
  rfl

/-- A replaced name is the same global. -/
lemma get?_globalDefinitions (hg : g.Injective) (globals : List Name) (name : Name) :
    ((t'.globalDefinitions (globals.map g)).get? (g name)).map Definition.symbol =
      ((t.globalDefinitions globals).get? name).map Definition.symbol := by
  unfold globalDefinitions
  rw [OrderedMap.get?_ofFirst_zipIdx fun k => (⟨⟨k⟩, t'.file, .origin⟩ : Definition),
    OrderedMap.get?_ofFirst_zipIdx fun k => (⟨⟨k⟩, t.file, .origin⟩ : Definition),
    find?_zipIdx_map hg, Option.map_map, Option.map_map, Option.map_map]
  rfl

/-- **Look-up of a replaced name finds the same symbol.** -/
theorem visibleDefinition? (h : Renames g t t') (hg : g.Injective) (globals : List Name)
    (i : Fin n) (name : Name) :
    (t'.visibleDefinition? (globals.map g) i (g name)).map Definition.symbol =
      (t.visibleDefinition? globals i name).map Definition.symbol := by
  unfold SyntaxTree.visibleDefinition?
  rw [Option.map_or, Option.map_or, List.map_findSome?, List.map_findSome?, h.scopesAround,
    get?_globalDefinitions hg]
  refine congrArg (Option.or · _) (congrArg (List.findSome? · _) (funext fun a => ?_))
  exact h.get?_scopeDefinitions hg globals a name

/-- A replaced name means something where the name does. -/
lemma visibleDefinition?_eq_none_iff (h : Renames g t t') (hg : g.Injective) {globals : List Name}
    {i : Fin n} {name : Name} :
    t'.visibleDefinition? (globals.map g) i (g name) = none ↔
      t.visibleDefinition? globals i name = none := by
  rw [← Option.map_eq_none_iff (f := Definition.symbol), h.visibleDefinition? hg globals i name,
    Option.map_eq_none_iff]

/-- References are bound to the same symbols. -/
lemma boundReference? (h : Renames g t t') (hg : g.Injective) (globals : List Name) :
    t'.boundReference? (globals.map g) = t.boundReference? globals := by
  funext i
  have hsymbol : ∀ d : Option Definition,
      d.map (fun d => (i, d.symbol)) = (d.map Definition.symbol).map (i, ·) := fun d => by
    rw [Option.map_map]
    rfl
  simp only [SyntaxTree.boundReference?, h.kind, h.text, Option.bind_map, hsymbol]
  refine if_congr Iff.rfl (congrArg _ (funext fun name => ?_)) rfl
  rw [Function.comp_apply, h.visibleDefinition? hg globals i name]

/-- Names are undefined where they were. -/
lemma undefinedReport?_eq_none_iff (h : Renames g t t') (hg : g.Injective) {globals : List Name}
    {i : Fin n} :
    t'.undefinedReport? (globals.map g) i = none ↔ t.undefinedReport? globals i = none := by
  simp only [undefinedReport?, h.kind, h.text, Option.bind_map]
  split
  · cases t.text i with
    | none => rfl
    | some name =>
      simp only [Option.bind_some, Function.comp_apply, h.visibleDefinition?_eq_none_iff hg]
      split <;> simp
  · rfl

/-- **What is reported in one tree is reported in the other**, up to names and locations. -/
theorem reports_eq_nil_iff (h : Renames g t t') (hg : g.Injective) {globals : List Name}
    {i : Fin n} : t'.reports (globals.map g) i = [] ↔ t.reports globals i = [] := by
  have hnames : ((t'.scopeDeclarations i).map Declaration.name) =
      ((t.scopeDeclarations i).map Declaration.name).map g := by
    rw [h.scopeDeclarations, List.map_map, List.map_map]
    rfl
  simp only [SyntaxTree.reports, List.append_eq_nil_iff, redeclarations_eq_nil_iff,
    Option.toList_eq_nil_iff, h.undefinedReport?_eq_none_iff hg, hnames, List.nodup_map_iff hg]
  simp

end SyntaxTree.Renames

end Predeclare
