import Predeclare.Proofs.FirstWins
import Predeclare.Proofs.Tree.Surface
import Predeclare.Scope.Binding

set_option relaxedAutoImplicit false
set_option autoImplicit false

/-!
# Scoping, read off the tree

What a name means at a node is a question about the tree alone: of the nodes around it that
introduce a scope, the innermost one that declares the name decides, by the first of its
declarations of the name; where none does, the name is a global or means nothing. This file states
that rule, and numbers the scopes and the symbols of a unit by their place on the surface of the
tree, so that the bindings of a unit can be compared with the rule.

## Main definitions

* `SyntaxTree.scopesAround` — the nodes around a node that introduce a scope, innermost first.
* `SyntaxTree.lexicalBinding?` — the scope and the declaration that a name means at a node.
* `SyntaxTree.scopeNumber`, `SyntaxTree.firstSymbol` — the numbers of scopes and symbols.
* `SyntaxTree.visibleDefinition?` — the definition that look-up finds at a node.

## Main results

* `SyntaxTree.visibleDefinition?_of_lexicalBinding` — look-up follows the lexical rule.
* `SyntaxTree.mem_scopeDeclarations_of_lexicalBinding` — what a name means is declared around it.
-/

namespace Predeclare

/-- The symbol that a declaration gets. -/
def Declaration.symbol {n : Nat} (d : Declaration n) : Symbol (Fin n) :=
  ⟨d.name, d.kind, some d.node⟩

namespace SyntaxTree

variable {n : Nat} (t : SyntaxTree n)

/-- Whether a node introduces a scope. -/
def introducesScope (i : Fin n) : Bool := (t.scopeKind? i).isSome

/-- The nodes strictly above a node that introduce a scope, innermost first. -/
def scopesAround (i : Fin n) : List (Fin n) := (t.above i).filter t.introducesScope

/-- The first declaration of a name in the scope of a node. -/
def firstDeclaration? (a : Fin n) (name : Name) : Option (Declaration n) :=
  (t.scopeDeclarations a).find? (·.name = name)

/-- **The lexical rule.** What a name means at a node: the innermost scope around the node that
declares the name, and the first declaration of the name in it. -/
def lexicalBinding? (i : Fin n) (name : Name) : Option (Fin n × Declaration n) :=
  (t.scopesAround i).findSome? fun a => (t.firstDeclaration? a name).map fun d => (a, d)

/-! ## Numbers of scopes and symbols -/

/-- The nodes of the surface that introduce a scope, in order. -/
def scopeOrder : List (Fin n) := (t.surface t.root).filter t.introducesScope

/-- The number of the scope of a node; the global scope comes before all others. -/
def scopeNumber (a : Fin n) : ScopeId := ⟨t.scopeOrder.idxOf a + 1⟩

/-- The scope that a node lies in. -/
def enclosingScope (i : Fin n) : ScopeId :=
  match t.scopesAround i with
  | [] => ScopeTree.globalScope
  | a :: _ => t.scopeNumber a

/-- The scope that the children of a node lie in. -/
def scopeBelow (i : Fin n) : ScopeId :=
  if t.introducesScope i then t.scopeNumber i else t.enclosingScope i

/-- The number of the first symbol that the scope of a node declares. Globals come first, then the
declarations of all scopes in order. -/
def firstSymbol (globals : List Name) (a : Fin n) : Nat :=
  globals.length + ((t.scopeOrder.take (t.scopeOrder.idxOf a)).flatMap t.scopeDeclarations).length

/-- The definitions that a list of declarations makes in a new scope, when its first symbol has the
number `first`. -/
def definitionsFrom (first : Nat) (ds : List (Declaration n)) : OrderedMap Name Definition :=
  .ofFirst ((ds.zipIdx first).map fun d => (d.1.name, ⟨⟨d.2⟩, t.span d.1.node⟩))

/-- The definitions in the scope of a node. -/
def scopeDefinitions (globals : List Name) (a : Fin n) : OrderedMap Name Definition :=
  t.definitionsFrom (t.firstSymbol globals a) (t.scopeDeclarations a)

/-- The definitions of the globals. -/
def globalDefinitions (globals : List Name) : OrderedMap Name Definition :=
  .ofFirst (globals.zipIdx.map fun g => (g.1, ⟨⟨g.2⟩, t.file, .origin⟩))

/-- The definition of a name that look-up finds at a node. -/
def visibleDefinition? (globals : List Name) (i : Fin n) (name : Name) : Option Definition :=
  ((t.scopesAround i).findSome? fun a => (t.scopeDefinitions globals a).get? name).or
    ((t.globalDefinitions globals).get? name)

variable {t}

/-- A node declares its text as a name, if it has a text. -/
lemma namedDeclaration_eq_some_iff {kind : SymbolKind} {i : Fin n} {d : Declaration n} :
    t.namedDeclaration kind i = some d ↔ ∃ name, t.text i = some name ∧ ⟨name, kind, i⟩ = d :=
  Option.map_eq_some_iff

/-- What a node declares as its text is a declaration by the node itself. -/
lemma of_namedDeclaration {kind : SymbolKind} {i : Fin n} {d : Declaration n}
    (h : t.namedDeclaration kind i = some d) :
    d.node = i ∧ d.kind = kind ∧ t.text i = some d.name := by
  obtain ⟨name, hname, rfl⟩ := namedDeclaration_eq_some_iff.1 h
  exact ⟨rfl, rfl, hname⟩

/-! ## The scopes around a node -/

/-- No scope is around the root. -/
@[simp] lemma scopesAround_root : t.scopesAround t.root = [] := by
  simp [scopesAround]

/-- The scopes around a node are that of its parent, if it has one, and those around its parent. -/
lemma scopesAround_of_parent {i p : Fin n} (h : t.parent i = some p) :
    t.scopesAround i =
      if t.introducesScope p then p :: t.scopesAround p else t.scopesAround p := by
  unfold scopesAround
  rw [above_of_parent h, ancestors_eq_cons_above p, List.filter_cons]

lemma mem_scopesAround_iff {a i : Fin n} :
    a ∈ t.scopesAround i ↔ a ∈ t.above i ∧ t.introducesScope a = true :=
  List.mem_filter

/-- The scopes around the innermost scope around a node are the others. -/
lemma scopesAround_head {i a : Fin n} {rest : List (Fin n)} (h : t.scopesAround i = a :: rest) :
    t.scopesAround a = rest := by
  induction i using upwards_induction (t := t) with
  | top i hi => simp [scopesAround, above_of_no_parent hi] at h
  | step i p hp ih =>
    rw [scopesAround_of_parent hp] at h
    split at h
    · injection h with ha hrest
      exact ha ▸ hrest
    · exact ih h

/-- No scope but the global one is around the root. -/
@[simp] lemma enclosingScope_root : t.enclosingScope t.root = ScopeTree.globalScope := by
  unfold enclosingScope
  rw [scopesAround_root]

/-- A child lies in the scope below its parent. -/
lemma enclosingScope_of_parent {i p : Fin n} (h : t.parent i = some p) :
    t.enclosingScope i = t.scopeBelow p := by
  unfold scopeBelow
  by_cases hp : t.introducesScope p = true
  · rw [if_pos hp]
    unfold enclosingScope
    rw [scopesAround_of_parent h, if_pos hp]
  · rw [if_neg hp]
    unfold enclosingScope
    rw [scopesAround_of_parent h, if_neg hp]

/-- Nodes that introduce no scope declare nothing. -/
lemma scopeDeclarations_eq_nil {i : Fin n} (h : t.introducesScope i = false) :
    t.scopeDeclarations i = [] := by
  have hnone : t.scopeKind? i = none := by simpa [introducesScope] using h
  unfold scopeDeclarations
  rw [hnone]

/-- Identifiers introduce no scope. -/
lemma introducesScope_of_identifier {i : Fin n} (h : t.kind i = .identifier) :
    t.introducesScope i = false := by
  simp [introducesScope, scopeKind?, h, SyntaxKind.isFunctionLike]

/-- The scopes before that of a node are those of the nodes before it.

**Proof sketch.** The order of scopes is the surface without the nodes that have none, and a node
occurs in it once. -/
lemma take_scopeOrder {done rest : List (Fin n)} {i : Fin n}
    (hsplit : t.surface t.root = done ++ i :: rest) (hi : t.introducesScope i = true) :
    t.scopeOrder.idxOf i = (done.filter t.introducesScope).length ∧
      t.scopeOrder.take (t.scopeOrder.idxOf i) = done.filter t.introducesScope := by
  have horder : t.scopeOrder =
      done.filter t.introducesScope ++ i :: rest.filter t.introducesScope := by
    unfold scopeOrder
    rw [hsplit, List.filter_append, List.filter_cons_of_pos hi]
  have hnot : i ∉ done.filter t.introducesScope := by
    intro hmem
    have hnodup := nodup_surface (t := t) t.root
    rw [hsplit, List.nodup_append] at hnodup
    exact hnodup.2.2 i (List.mem_filter.1 hmem).1 i List.mem_cons_self rfl
  have hidx : t.scopeOrder.idxOf i = (done.filter t.introducesScope).length := by
    rw [horder, List.idxOf_append_of_notMem hnot, List.idxOf_cons_self, Nat.add_zero]
  refine ⟨hidx, ?_⟩
  rw [hidx, horder, List.take_left]

/-- Only the nodes that introduce a scope contribute declarations. -/
lemma flatMap_scopeDeclarations_filter (l : List (Fin n)) :
    (l.filter t.introducesScope).flatMap t.scopeDeclarations =
      l.flatMap t.scopeDeclarations := by
  induction l with
  | nil => rfl
  | cons i rest ih =>
    rw [List.flatMap_cons, List.filter_cons]
    by_cases h : t.introducesScope i = true
    · rw [if_pos h, List.flatMap_cons, ih]
    · rw [if_neg h, ih, scopeDeclarations_eq_nil (by simpa using h), List.nil_append]

/-! ## Look-up and the lexical rule -/

/-- Look-up in the scope of a node finds the first declaration of the name. -/
lemma get?_definitionsFrom (first : Nat) (ds : List (Declaration n)) (name : Name) :
    (t.definitionsFrom first ds).get? name =
      ((ds.zipIdx first).find? (·.1.name = name)).map fun d => ⟨⟨d.2⟩, t.span d.1.node⟩ := by
  unfold definitionsFrom
  rw [OrderedMap.get?_ofFirst, List.find?_map, Option.map_map]
  rfl

/-- One more declaration is defined last, unless its name is defined already. -/
lemma definitionsFrom_concat (first : Nat) (ds : List (Declaration n)) (d : Declaration n) :
    t.definitionsFrom first (ds ++ [d]) =
      (t.definitionsFrom first ds).insertNew
        (d.name, ⟨⟨first + ds.length⟩, t.span d.node⟩) := by
  unfold definitionsFrom
  rw [List.zipIdx_append, List.map_append]
  exact OrderedMap.ofFirst_concat _ _

/-- The first entry with a name is at the place of the first declaration with it. -/
lemma find?_zipIdx (first : Nat) (ds : List (Declaration n)) (name : Name) :
    ((ds.zipIdx first).find? (·.1.name = name)).map Prod.fst = ds.find? (·.name = name) := by
  induction ds generalizing first with
  | nil => rfl
  | cons d rest ih =>
    rw [List.zipIdx_cons, List.find?_cons, List.find?_cons]
    by_cases h : d.name = name
    · simp [h]
    · simp only [h, decide_false]
      exact ih (first + 1)

/-- The names defined by the globals are the globals. -/
lemma mem_keys_globalDefinitions {globals : List Name} {name : Name} :
    name ∈ (t.globalDefinitions globals).keys ↔ name ∈ globals :=
  OrderedMap.mem_keys_ofFirst_zipIdx fun k => (⟨⟨k⟩, t.file, .origin⟩ : Definition)

/-- A name without a declaration in the scope of a node has no definition there. -/
lemma get?_scopeDefinitions_eq_none_iff {globals : List Name} {a : Fin n} {name : Name} :
    (t.scopeDefinitions globals a).get? name = none ↔ t.firstDeclaration? a name = none := by
  unfold scopeDefinitions firstDeclaration?
  rw [get?_definitionsFrom, Option.map_eq_none_iff,
    ← find?_zipIdx (t.firstSymbol globals a), Option.map_eq_none_iff]

/-- The definition of a name in the scope of a node has the symbol of the first declaration of the
name.

**Proof sketch.** The definitions of a scope are its declarations numbered from `firstSymbol` on.
Looking up finds the first numbered declaration of the name, and `find?_zipIdx` says that this is
the first declaration with its number. -/
lemma get?_scopeDefinitions_of_firstDeclaration (globals : List Name) {a : Fin n} {name : Name}
    {d : Declaration n} (h : t.firstDeclaration? a name = some d) :
    ∃ k, (d, t.firstSymbol globals a + k) ∈
        (t.scopeDeclarations a).zipIdx (t.firstSymbol globals a) ∧
      (t.scopeDefinitions globals a).get? name =
        some ⟨⟨t.firstSymbol globals a + k⟩, t.span d.node⟩ := by
  unfold firstDeclaration? at h
  rw [← find?_zipIdx (t.firstSymbol globals a)] at h
  obtain ⟨⟨d', m⟩, hfind, rfl⟩ := Option.map_eq_some_iff.1 h
  have hmem := List.mem_of_find?_eq_some hfind
  obtain ⟨k, rfl⟩ := Nat.exists_eq_add_of_le (List.le_snd_of_mem_zipIdx hmem)
  refine ⟨k, hmem, ?_⟩
  unfold scopeDefinitions
  rw [get?_definitionsFrom, hfind]
  rfl

/-- What a name means at a node is declared in a scope around the node, under that name. -/
lemma mem_scopeDeclarations_of_lexicalBinding {i a : Fin n} {name : Name} {d : Declaration n}
    (h : t.lexicalBinding? i name = some (a, d)) :
    a ∈ t.scopesAround i ∧ t.firstDeclaration? a name = some d ∧
      d ∈ t.scopeDeclarations a ∧ d.name = name := by
  unfold lexicalBinding? at h
  obtain ⟨b, hb, hmap⟩ := List.exists_of_findSome?_eq_some h
  obtain ⟨d', hd, heq⟩ := Option.map_eq_some_iff.1 hmap
  injection heq with hab hdd
  subst hab hdd
  exact ⟨hb, hd, List.mem_of_find?_eq_some hd, by simpa using List.find?_some hd⟩

/-- Scopes inside the one that the lexical rule selects do not declare the name.

**Proof sketch.** The scopes around a node are listed from the inside to the outside, which is by
increasing number, and the rule selects the first of them that declares the name. -/
lemma name_ne_of_lt_lexicalBinding {i a b : Fin n} {name : Name} {d : Declaration n}
    (h : t.lexicalBinding? i name = some (a, d)) (hb : b ∈ t.scopesAround i) (hlt : b < a) :
    ∀ d' ∈ t.scopeDeclarations b, d'.name ≠ name := by
  unfold lexicalBinding? at h
  obtain ⟨inner, c, outer, hsplit, hc, hinner⟩ := List.findSome?_eq_some_iff.1 h
  obtain ⟨_, _, heq⟩ := Option.map_eq_some_iff.1 hc
  injection heq with hca _
  subst hca
  have hsorted : (t.scopesAround i).Pairwise (· < ·) := (pairwise_lt_above i).filter _
  rw [hsplit] at hsorted hb
  have hb : b ∈ inner := by
    rcases List.mem_append.1 hb with hb | hb
    · exact hb
    · have houter := (List.pairwise_cons.1 (List.pairwise_append.1 hsorted).2.1).1
      rcases List.mem_cons.1 hb with rfl | hb
      · exact absurd hlt (Fin.lt_irrefl _)
      · have := houter b hb
        omega
  have hnone : t.firstDeclaration? b name = none := by simpa using hinner b hb
  unfold firstDeclaration? at hnone
  simpa using hnone

/-- A name without a meaning is declared by no scope around the node. -/
lemma name_ne_of_no_lexicalBinding {i b : Fin n} {name : Name}
    (h : t.lexicalBinding? i name = none) (hb : b ∈ t.scopesAround i) :
    ∀ d ∈ t.scopeDeclarations b, d.name ≠ name := by
  have hnone : t.firstDeclaration? b name = none := by
    simpa using List.findSome?_eq_none_iff.1 h b hb
  unfold firstDeclaration? at hnone
  simpa using hnone

/-- A name that the lexical rule gives no meaning is looked up among the globals.

**Proof sketch.** Both rules go through the same scopes outwards; where the lexical rule finds no
declaration, the scope has no definition either. -/
lemma visibleDefinition?_of_no_lexicalBinding {globals : List Name} {i : Fin n} {name : Name}
    (h : t.lexicalBinding? i name = none) :
    t.visibleDefinition? globals i name = (t.globalDefinitions globals).get? name := by
  unfold visibleDefinition?
  have hnone : (t.scopesAround i).findSome?
      (fun a => (t.scopeDefinitions globals a).get? name) = none := by
    rw [List.findSome?_eq_none_iff]
    intro a ha
    rw [get?_scopeDefinitions_eq_none_iff]
    have := List.findSome?_eq_none_iff.1 h a ha
    simpa using this
  rw [hnone, Option.none_or]

/-- **Look-up follows the lexical rule**: it finds the definition in the scope that the rule
selects.

**Proof sketch.** Induction over the scopes around the node, innermost first. A scope defines a
name exactly when it declares it, so both searches stop at the same scope. -/
theorem visibleDefinition?_of_lexicalBinding {globals : List Name} {i a : Fin n} {name : Name}
    {d : Declaration n} (h : t.lexicalBinding? i name = some (a, d)) :
    t.visibleDefinition? globals i name = (t.scopeDefinitions globals a).get? name := by
  unfold lexicalBinding? at h
  unfold visibleDefinition?
  generalize t.scopesAround i = around at h ⊢
  induction around with
  | nil => cases h
  | cons b rest ih =>
    rw [List.findSome?_cons] at h ⊢
    cases hb : t.firstDeclaration? b name with
    | none =>
      rw [hb] at h
      rw [get?_scopeDefinitions_eq_none_iff.2 hb]
      exact ih h
    | some d' =>
      rw [hb] at h
      obtain ⟨rfl, rfl⟩ : b = a ∧ d' = d := by simpa using h
      obtain ⟨k, _, hget⟩ := get?_scopeDefinitions_of_firstDeclaration globals hb
      rw [hget]
      rfl

end SyntaxTree

end Predeclare
