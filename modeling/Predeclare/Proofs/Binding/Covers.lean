import Predeclare.Proofs.Binding.OpenScope
import Predeclare.Proofs.Scope.Enumeration

set_option relaxedAutoImplicit false
set_option autoImplicit false

/-!
# Bindings of a part of the tree

While a unit is being bound, the nodes looked at so far are a beginning of the surface of its tree.
The binding at that point is a function of these nodes: every list in it is put together from what
each node contributes, in order. Look-up in such a binding follows the lexical rule at every node
whose surroundings have been looked at.

## Main definitions

* `SyntaxTree.boundReference?`, `SyntaxTree.reports`, `SyntaxTree.scopeData` — what one node
  contributes.
* `Binding.Covers` — the binding is made of what the nodes `done` contribute.

## Main results

* `Binding.Covers.chain_eq` — the chain of scopes at a node is the scopes around it.
* `Binding.Covers.lookup_eq` — look-up at a node finds the definition visible at it.
* `Binding.Covers.resolve_eq` — a name without a definition is reported, with no fault.
-/

namespace Predeclare

/-- A report without its suggestions. -/
def ResolutionError.bare : ResolutionError → ResolutionError
  | undefinedName name useSite _ => undefinedName name useSite []
  | duplicateDefinition name first second => duplicateDefinition name first second

/-- The symbols of the globals. The first of them stands for the undefined value. -/
def globalSymbols {ν : Type} : List Name → List (Symbol ν)
  | [] => []
  | name :: rest => ⟨name, .undefined, none⟩ :: rest.map fun g => ⟨g, .global, none⟩

namespace SyntaxTree

variable {n : Nat} (t : SyntaxTree n) (globals : List Name)

/-- The binding of a node that is an identifier whose name means something. -/
def boundReference? (i : Fin n) : Option (Fin n × SymbolId) :=
  if t.kind i = .identifier then
    (t.text i).bind fun name => (t.visibleDefinition? globals i name).map fun d => (i, d.symbol)
  else none

/-- The report about a node that is an identifier whose name means nothing. -/
def undefinedReport? (i : Fin n) : Option ResolutionError :=
  if t.kind i = .identifier then
    (t.text i).bind fun name =>
      if t.visibleDefinition? globals i name = none then some (.undefinedName name (t.span i) [])
      else none
  else none

/-- What is reported at a node: the repeated declarations of its scope, or an undefined name. -/
def reports (i : Fin n) : List ResolutionError :=
  t.redeclarations [] (t.scopeDeclarations i) ++ (t.undefinedReport? globals i).toList

/-- The global scope. -/
def globalScopeData : Scope (Fin n) := ⟨none, .global, none, t.globalDefinitions globals⟩

/-- A declaration goes by the text of its node, and does not stand for the undefined value. -/
structure Proper (d : Declaration n) : Prop where
  text : t.text d.node = some d.name
  kind : d.kind ≠ .undefined

/-- The scope of a node. -/
def scopeData (a : Fin n) : Scope (Fin n) :=
  ⟨some (t.enclosingScope a), (t.scopeKind? a).getD .global, some a, t.scopeDefinitions globals a⟩

variable {t}

/-- A node that declares a name is a proper declaration of it, unless it stands for the undefined
value. -/
lemma proper_of_namedDeclaration {kind : SymbolKind} {i : Fin n} {d : Declaration n}
    (h : t.namedDeclaration kind i = some d) (hkind : kind ≠ .undefined) : t.Proper d := by
  obtain ⟨name, hname, rfl⟩ := namedDeclaration_eq_some_iff.1 h
  exact ⟨hname, hkind⟩

/-- Patterns make proper declarations. -/
lemma proper_of_mem_patternDeclarations {i : Fin n} {d : Declaration n}
    (h : d ∈ t.patternDeclarations i) : t.Proper d := by
  simp only [patternDeclarations] at h
  split at h
  · obtain ⟨c, _, hc⟩ := List.mem_filterMap.1 h
    exact proper_of_namedDeclaration hc (by decide)
  · obtain ⟨c, _, hc⟩ := List.mem_filterMap.1 h
    exact proper_of_namedDeclaration hc (by decide)
  · exact absurd h List.not_mem_nil

/-- Declarators make proper declarations. -/
lemma proper_of_mem_declaratorDeclarations {i : Fin n} {d : Declaration n}
    (h : d ∈ t.declaratorDeclarations i) : t.Proper d := by
  simp only [declaratorDeclarations] at h
  split at h
  · rename_i d' hd'
    rw [List.mem_singleton.1 h]
    exact proper_of_namedDeclaration hd' (by decide)
  · split at h
    · exact absurd h List.not_mem_nil
    · exact proper_of_mem_patternDeclarations h

/-- Statements make proper declarations. -/
lemma proper_of_mem_statementDeclarations {i : Fin n} {d : Declaration n}
    (h : d ∈ t.statementDeclarations i) : t.Proper d := by
  simp only [statementDeclarations] at h
  split at h
  · obtain ⟨ds, _, hds⟩ := List.mem_flatMap.1 h
    obtain ⟨c, _, hc⟩ := List.mem_flatMap.1 hds
    exact proper_of_mem_declaratorDeclarations hc
  · exact proper_of_namedDeclaration (Option.mem_toList.1 h) (by decide)
  · exact proper_of_namedDeclaration (Option.mem_toList.1 h) (by decide)
  · exact proper_of_namedDeclaration (Option.mem_toList.1 h) (by decide)
  · exact absurd h List.not_mem_nil

/-- Statement lists make proper declarations. -/
lemma proper_of_mem_listDeclarations {i : Fin n} {d : Declaration n}
    (h : d ∈ t.listDeclarations i) : t.Proper d := by
  obtain ⟨s, _, hs⟩ := List.mem_flatMap.1 h
  exact proper_of_mem_statementDeclarations hs

/-- Scopes make proper declarations.

**Proof sketch.** One case for each kind of scope; each of them gathers declarations of named
nodes. -/
lemma proper_of_mem_scopeDeclarations {a : Fin n} {d : Declaration n}
    (h : d ∈ t.scopeDeclarations a) : t.Proper d := by
  simp only [scopeDeclarations] at h
  split at h
  · exact proper_of_mem_listDeclarations h
  · exact proper_of_mem_listDeclarations h
  · exact proper_of_mem_listDeclarations h
  · obtain ⟨c, _, hc⟩ := List.mem_flatMap.1 h
    exact proper_of_mem_listDeclarations hc
  · rcases List.mem_append.1 h with h | h
    · simp only [selfDeclarations] at h
      split at h
      · exact proper_of_namedDeclaration (Option.mem_toList.1 h) (by decide)
      · exact absurd h List.not_mem_nil
    · obtain ⟨c, _, hc⟩ := List.mem_filterMap.1 h
      exact proper_of_namedDeclaration hc (by decide)
  · exact absurd h List.not_mem_nil
  · exact absurd h List.not_mem_nil

end SyntaxTree

/-! ## What a binding is made of -/

/-- The binding is made of the globals and of what the nodes `done` contribute. -/
structure Binding.Covers {n : Nat} (t : SyntaxTree n) (globals : List Name) (done : List (Fin n))
    (B : Binding n) : Prop where
  symbols : B.symbols.symbols.toList =
    globalSymbols globals ++ (done.flatMap t.scopeDeclarations).map Declaration.symbol
  references : B.symbols.references.entries = done.filterMap (t.boundReference? globals)
  globalTable : B.symbols.globals = .ofFirst (globals.zipIdx.map fun g => (g.1, ⟨g.2⟩))
  scopes : B.scopes.scopes.toList =
    t.globalScopeData globals :: (done.filter t.introducesScope).map (t.scopeData globals)
  errors : B.errors.map ResolutionError.bare = done.flatMap (t.reports globals)
  declarations : ∀ a ∈ done, ∀ d ∈ t.scopeDeclarations a, (t.kind d.node).isDeclaration = true

namespace Binding.Covers

variable {n : Nat} {t : SyntaxTree n} {globals : List Name} {done rest : List (Fin n)}
  {i : Fin n} {B : Binding n}

/-- The global scope comes first. -/
lemma scope?_globalScope (h : Covers t globals done B) :
    B.scopes.scope? ScopeTree.globalScope = some (t.globalScopeData globals) := by
  rw [ScopeTree.scope?_eq_some_iff, h.scopes]
  rfl

/-- The scope of a node that has been looked at has its number.

**Proof sketch.** The scopes are those of the nodes of `done` that introduce one, in order, behind
the global scope. The place of `a` among them is its place among all such nodes of the tree, since
`done` is where the surface begins. -/
lemma scope?_scopeNumber (h : Covers t globals done B) (hsplit : t.surface t.root = done ++ rest)
    {a : Fin n} (ha : a ∈ done) (hscope : t.introducesScope a = true) :
    B.scopes.scope? (t.scopeNumber a) = some (t.scopeData globals a) := by
  have hmem : a ∈ done.filter t.introducesScope := List.mem_filter.2 ⟨ha, hscope⟩
  have hidx : t.scopeOrder.idxOf a = (done.filter t.introducesScope).idxOf a := by
    simp only [SyntaxTree.scopeOrder]
    rw [hsplit, List.filter_append, List.idxOf_append_of_mem hmem]
  rw [ScopeTree.scope?_eq_some_iff, h.scopes]
  simp only [SyntaxTree.scopeNumber]
  rw [hidx, List.getElem?_cons_succ, List.getElem?_map,
    List.getElem?_eq_getElem (List.idxOf_lt_length_of_mem hmem), List.getElem_idxOf]
  rfl

/-- **The chain of scopes at a node** is the scopes around it, then the global one.

**Proof sketch.** Induction on the scopes around the node. The innermost one has been made, its data
name the scope around it as parent, and the scopes around it are the rest of the list. -/
theorem chain_eq (h : Covers t globals done B) (hsplit : t.surface t.root = done ++ rest)
    {i : Fin n} (hi : ∀ a ∈ t.scopesAround i, a ∈ done) :
    B.scopes.chain (t.enclosingScope i) =
      (t.scopesAround i).map t.scopeNumber ++ [ScopeTree.globalScope] := by
  generalize haround : t.scopesAround i = around at hi
  induction around generalizing i with
  | nil =>
    simp only [SyntaxTree.enclosingScope]
    rw [haround, ScopeTree.chain_eq h.scope?_globalScope]
    rfl
  | cons a outer ih =>
    have ha : a ∈ done := hi a List.mem_cons_self
    have hscope : t.introducesScope a = true := by
      have : a ∈ t.scopesAround i := by
        rw [haround]
        exact List.mem_cons_self
      exact (SyntaxTree.mem_scopesAround_iff.1 this).2
    have hrest := ih (SyntaxTree.scopesAround_head haround)
      fun b hb => hi b (List.mem_cons_of_mem a hb)
    have hnumber : t.enclosingScope i = t.scopeNumber a := by
      simp only [SyntaxTree.enclosingScope]
      rw [haround]
    rw [hnumber, ScopeTree.chain_eq (h.scope?_scopeNumber hsplit ha hscope), List.map_cons,
      List.cons_append, ← hrest]
    rfl

/-- Look-up in the global scope finds the definitions of the globals. -/
lemma lookup_globalScope (h : Covers t globals done B) (name : Name) :
    B.scopes.lookup ScopeTree.globalScope name = (t.globalDefinitions globals).get? name := by
  simp only [ScopeTree.lookup, ScopeTree.definitions]
  rw [ScopeTree.chain_eq h.scope?_globalScope]
  simp [SyntaxTree.globalScopeData, h.scope?_globalScope]

/-- **Look-up at a node finds the definition visible at it**, once the scopes around the node are
there.

**Proof sketch.** Look-up goes along the chain, which `chain_eq` lists. The definitions in each of
its scopes are those that the tree prescribes. -/
theorem lookup_eq (h : Covers t globals done B) (hsplit : t.surface t.root = done ++ rest)
    {i : Fin n} (hi : ∀ a ∈ t.scopesAround i, a ∈ done) (name : Name) :
    B.scopes.lookup (t.enclosingScope i) name = t.visibleDefinition? globals i name := by
  have hinner : (t.scopesAround i).map (B.scopes.definitions ∘ t.scopeNumber) =
      (t.scopesAround i).map (t.scopeDefinitions globals) := by
    refine List.map_congr_left fun a ha => ?_
    rw [Function.comp_apply]
    simp only [ScopeTree.definitions]
    rw [h.scope?_scopeNumber hsplit (hi a ha) (SyntaxTree.mem_scopesAround_iff.1 ha).2]
    rfl
  have hglobal : B.scopes.definitions ScopeTree.globalScope = t.globalDefinitions globals := by
    simp only [ScopeTree.definitions]
    rw [h.scope?_globalScope]
    rfl
  have hchain : (B.scopes.chain (t.enclosingScope i)).map B.scopes.definitions =
      (t.scopesAround i).map (t.scopeDefinitions globals) ++ [t.globalDefinitions globals] := by
    rw [h.chain_eq hsplit hi, List.map_append, List.map_map, hinner, List.map_singleton, hglobal]
  calc B.scopes.lookup (t.enclosingScope i) name
      = ((B.scopes.chain (t.enclosingScope i)).map B.scopes.definitions).findSome?
          (OrderedMap.get? · name) := by
        rw [List.findSome?_map]
        rfl
    _ = t.visibleDefinition? globals i name := by
        rw [hchain, List.findSome?_append, List.findSome?_map, List.findSome?_singleton]
        rfl

/-- The names in all scopes are known, if the texts of the tree and the globals are.

**Proof sketch.** A scope is the global one, whose names are the globals, or that of a node, whose
names are texts of declaring nodes. -/
lemma scopes_knownTo (h : Covers t globals done B) {J : Interner} (hspelled : t.Spelled J)
    (hglobals : ∀ g ∈ globals, J.Knows g) : B.scopes.KnownTo J := by
  intro s k hk
  simp only [ScopeTree.definitions] at hk
  cases hs : B.scopes.scope? s with
  | none =>
    rw [hs] at hk
    exact absurd hk List.not_mem_nil
  | some scope =>
    rw [hs] at hk
    rw [ScopeTree.scope?_eq_some_iff, h.scopes] at hs
    rcases List.mem_cons.1 (List.mem_of_getElem? hs) with rfl | hmem
    · exact hglobals k (SyntaxTree.mem_keys_globalDefinitions.1 hk)
    · obtain ⟨a, _, rfl⟩ := List.mem_map.1 hmem
      obtain ⟨e, he, rfl⟩ := List.mem_map.1 (OrderedMap.mem_keys_ofFirst.1 hk)
      obtain ⟨d, hd, rfl⟩ := List.mem_map.1 he
      exact hspelled d.1.node d.1.name
        (SyntaxTree.proper_of_mem_scopeDeclarations (List.fst_mem_of_mem_zipIdx hd)).text

/-- **Resolving a name at a node** finds the visible definition or reports the name, with no
fault.

**Proof sketch.** `lookup_eq` gives what the scope tree finds. If it finds nothing the error lists
suggestions, and `exists_resolve_eq_error` says that these have spellings, since every name in scope
is known. -/
theorem resolve_eq (h : Covers t globals done B) (hsplit : t.surface t.root = done ++ rest)
    {J : Interner} (hspelled : t.Spelled J) (hglobals : ∀ g ∈ globals, J.Knows g)
    {i : Fin n} (hi : ∀ a ∈ t.scopesAround i, a ∈ done) {name : Name} (hname : J.Knows name)
    (site : FileSpan) (E : Enumeration) :
    match t.visibleDefinition? globals i name with
    | some d => B.scopes.resolve J (t.enclosingScope i) name site E = .ok (.ok d)
    | none => ∃ ks, B.scopes.resolve J (t.enclosingScope i) name site E =
        .ok (.error (.undefinedName name site ks)) := by
  have hlookup := h.lookup_eq hsplit hi name
  cases hd : t.visibleDefinition? globals i name with
  | some d =>
    rw [hd] at hlookup
    show B.scopes.resolve J (t.enclosingScope i) name site E = _
    simp only [ScopeTree.resolve]
    rw [hlookup]
  | none =>
    rw [hd] at hlookup
    exact ScopeTree.exists_resolve_eq_error E site hlookup hname
      (h.scopes_knownTo hspelled hglobals)

/-! ## Counting -/

/-- There is one scope for each node that introduces one, and the global scope. -/
lemma size_scopes (h : Covers t globals done B) :
    B.scopes.scopes.size = (done.filter t.introducesScope).length + 1 := by
  rw [← Array.length_toList, h.scopes, List.length_cons, List.length_map]

/-- There is one symbol for each global and one for each declaration. -/
lemma size_symbols (h : Covers t globals done B) :
    B.symbols.symbols.size = globals.length + (done.flatMap t.scopeDeclarations).length := by
  rw [← Array.length_toList, h.symbols, List.length_append, List.length_map]
  congr 1
  cases globals with
  | nil => rfl
  | cons g gs => simp [globalSymbols]

/-- Only nodes that have been looked at are recorded as references.

**Proof sketch.** `Covers.references` says that the entries are the references of `done` that are
bound, each with its own node as the key. -/
lemma mem_done_of_mem_keys (h : Covers t globals done B) {r : Fin n}
    (hr : r ∈ B.symbols.references.keys) : r ∈ done := by
  obtain ⟨e, he, rfl⟩ := List.mem_map.1 hr
  rw [h.references] at he
  obtain ⟨j, hj, hbound⟩ := List.mem_filterMap.1 he
  simp only [SyntaxTree.boundReference?] at hbound
  split at hbound
  · obtain ⟨name, _, hmap⟩ := Option.bind_eq_some_iff.1 hbound
    obtain ⟨d, _, rfl⟩ := Option.map_eq_some_iff.1 hmap
    exact hj
  · cases hbound

/-- The scope that the next node lies in is there.

**Proof sketch.** The scope is the global one, or that of the innermost node around `i` which
introduces one. Such a node lies above `i`, hence has been looked at, and its scope is there by
`scope?_scopeNumber`. -/
lemma enclosingScope_lt (h : Covers t globals done B)
    (hsplit : t.surface t.root = done ++ i :: rest) :
    (t.enclosingScope i).index < B.scopes.scopes.size := by
  simp only [SyntaxTree.enclosingScope]
  split
  · rw [h.size_scopes]
    exact Nat.zero_lt_succ _
  · rename_i a outer haround
    have ha : a ∈ t.scopesAround i := by
      rw [haround]
      exact List.mem_cons_self
    obtain ⟨habove, hscope⟩ := SyntaxTree.mem_scopesAround_iff.1 ha
    have hdata := h.scope?_scopeNumber hsplit (SyntaxTree.above_mem_done hsplit habove) hscope
    exact (Array.getElem?_eq_some_iff.1 hdata).1

end Binding.Covers

end Predeclare
