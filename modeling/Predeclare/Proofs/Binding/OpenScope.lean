import Predeclare.Proofs.Binding.Scoping
import Predeclare.Proofs.Outcome

set_option relaxedAutoImplicit false
set_option autoImplicit false

/-!
# Opening a scope

Opening the scope of a node adds one scope behind all others and one symbol for each declaration,
also for one that repeats a name. The scope keeps the first definition of a name, and each
declaration that comes later is reported. Nothing else changes. The only fault on the way is a node
that is asked to declare a symbol although its kind declares none.

## Main definitions

* `SyntaxTree.redeclarations` — the reports about a list of declarations.
* `SyntaxTree.Misdeclares` — a fault that names the kind of some node that cannot declare.
* `Binding.Opened` — what a binding looks like after a scope has been opened.

## Main results

* `Binding.opened_openScope` — opening a scope has exactly these effects.
-/

namespace Predeclare

namespace SyntaxTree

variable {n : Nat} (t : SyntaxTree n)

/-- One report for each declaration whose name was declared before, in order. -/
def redeclarations : (earlier ds : List (Declaration n)) → List ResolutionError
  | _, [] => []
  | earlier, d :: rest =>
    (match earlier.find? (·.name = d.name) with
      | some first => [.duplicateDefinition d.name (t.span first.node) (t.span d.node)]
      | none => []) ++ redeclarations (earlier ++ [d]) rest

/-- The fault names the kind of a node that the unit declares a name by, although nodes of this kind
declare nothing. -/
def Misdeclares (fault : Fault) : Prop :=
  ∃ a ∈ t.surface t.root, ∃ d ∈ t.scopeDeclarations a,
    (t.kind d.node).isDeclaration = false ∧ fault = .cannotDeclare (t.kind d.node)

variable {t}

/-- The reports after one more declaration. -/
lemma redeclarations_concat (earlier ds : List (Declaration n)) (d : Declaration n) :
    t.redeclarations earlier (ds ++ [d]) =
      t.redeclarations earlier ds ++
        (match (earlier ++ ds).find? (·.name = d.name) with
          | some first => [.duplicateDefinition d.name (t.span first.node) (t.span d.node)]
          | none => []) := by
  induction ds generalizing earlier with
  | nil => simp [redeclarations]
  | cons e rest ih =>
    rw [List.cons_append, redeclarations, redeclarations, ih, List.append_assoc]
    simp

/-- Nothing is reported exactly when no name is declared twice.

**Proof sketch.** Induction on the declarations, each of which joins the earlier ones for those that
follow. -/
lemma redeclarations_eq_nil_iff {earlier ds : List (Declaration n)} :
    t.redeclarations earlier ds = [] ↔
      (∀ d ∈ ds, ∀ e ∈ earlier, e.name ≠ d.name) ∧ (ds.map Declaration.name).Nodup := by
  induction ds generalizing earlier with
  | nil => simp [redeclarations]
  | cons d rest ih =>
    rw [redeclarations, List.append_eq_nil_iff, ih, List.map_cons, List.nodup_cons]
    cases h : earlier.find? (·.name = d.name) with
    | some first =>
      have hmem := List.mem_of_find?_eq_some h
      have hname : first.name = d.name := by simpa using List.find?_some h
      simp only [List.cons_ne_nil, false_and, false_iff, not_and]
      intro hall
      exact absurd hname (hall d List.mem_cons_self first hmem)
    | none =>
      have hfresh : ∀ e ∈ earlier, e.name ≠ d.name := by simpa using h
      simp only [true_and, List.mem_cons, List.mem_append, List.not_mem_nil, or_false,
        List.mem_map, not_exists, not_and, forall_eq_or_imp]
      constructor
      · rintro ⟨hall, hnodup⟩
        refine ⟨⟨hfresh, fun d' hd' e he => hall d' hd' e (Or.inl he)⟩, ?_, hnodup⟩
        intro d' hd' heq
        exact hall d' hd' d (Or.inr rfl) heq.symm
      · rintro ⟨⟨_, hall⟩, hnot, hnodup⟩
        refine ⟨fun d' hd' e he => ?_, hnodup⟩
        rcases he with he | rfl
        · exact hall d' hd' e he
        · exact fun heq => hnot d' hd' heq.symm

end SyntaxTree

namespace ScopeTree

variable {ν : Type} {T : ScopeTree ν}

/-- A scope is known when its number is below the number of scopes. -/
lemma scope?_eq_some_iff {s : ScopeId} {scope : Scope ν} :
    T.scope? s = some scope ↔ T.scopes.toList[s.index]? = some scope := by
  simp only [scope?]
  rw [Array.getElem?_toList]

/-- A new scope comes behind all others. -/
lemma createChild_spec {parent : ScopeId} (h : parent.index < T.scopes.size) (kind : ScopeKind)
    (node : ν) :
    ∃ T', T.createChild parent kind node = .ok (⟨T.scopes.size⟩, T') ∧
      T'.scopes.toList = T.scopes.toList ++ [⟨some parent, kind, some node, .empty⟩] := by
  simp only [createChild]
  rw [dif_pos h]
  exact ⟨_, rfl, Array.toList_push⟩

end ScopeTree

namespace Binding

variable {n : Nat} {t : SyntaxTree n} {B : Binding n}

/-- Defining a name in a known scope adds the definition or the report of a duplicate, and changes
nothing else.

**Proof sketch.** The scope defines the name already and is left alone, or the definition is
inserted. -/
lemma define_spec {s : ScopeId} {scope : Scope (Fin n)} (h : B.scopes.scope? s = some scope)
    (name : Name) (symbol : SymbolId) (span : FileSpan) :
    ∃ B', B.define s name symbol span = .ok B' ∧ B'.symbols = B.symbols ∧
      B'.scopes.scopes.toList = B.scopes.scopes.toList.set s.index
        { scope with definitions := scope.definitions.insertNew (name, ⟨symbol, span⟩) } ∧
      B'.errors = B.errors ++
        (match scope.definitions.get? name with
          | some first => [.duplicateDefinition name first.span span]
          | none => []) := by
  obtain ⟨known, rfl⟩ := Array.getElem?_eq_some_iff.1 h
  unfold define ScopeTree.define
  rw [dif_pos known]
  cases hget : B.scopes.scopes[s.index].definitions.get? name with
  | some first =>
    refine ⟨{ B with errors := B.errors ++ [.duplicateDefinition name first.span span] }, ?_, rfl,
      ?_, rfl⟩
    · simp [hget]
    · have hsame := congrArg Array.toList (Array.set_getElem_self known)
      rw [Array.toList_set] at hsame
      rw [OrderedMap.insertNew_of_get?_eq_some hget]
      exact hsame.symm
  | none =>
    rw [OrderedMap.insertNew_of_get?_eq_none hget]
    simp only [hget]
    exact ⟨_, rfl, rfl, Array.toList_set _ _ _ known, (List.append_nil _).symm⟩

/-- What a binding looks like after the scope `scope` has been opened in `B₀` and the declarations
`ds` have been made in it. -/
structure Opened (t : SyntaxTree n) (B₀ : Binding n) (scope : Scope (Fin n))
    (ds : List (Declaration n)) (B : Binding n) : Prop where
  symbols : B.symbols.symbols.toList = B₀.symbols.symbols.toList ++ ds.map Declaration.symbol
  references : B.symbols.references = B₀.symbols.references
  globals : B.symbols.globals = B₀.symbols.globals
  scopes : B.scopes.scopes.toList = B₀.scopes.scopes.toList ++
    [{ scope with definitions := t.definitionsFrom B₀.symbols.symbols.size ds }]
  errors : B.errors = B₀.errors ++ t.redeclarations [] ds
  declarations : ∀ d ∈ ds, (t.kind d.node).isDeclaration = true

/-- The report about one more declaration is the one that defining its name gives. -/
lemma redeclaration_eq (first : Nat) (ds : List (Declaration n)) (d : Declaration n) :
    (match (t.definitionsFrom first ds).get? d.name with
      | some old => [ResolutionError.duplicateDefinition d.name old.span (t.span d.node)]
      | none => []) =
      match ds.find? (·.name = d.name) with
      | some old => [.duplicateDefinition d.name (t.span old.node) (t.span d.node)]
      | none => [] := by
  rw [SyntaxTree.get?_definitionsFrom, ← SyntaxTree.find?_zipIdx first]
  cases (ds.zipIdx first).find? (·.1.name = d.name) <;> rfl

/-- One more declaration in the scope that was opened last.

**Proof sketch.** The symbol of the declaration comes last in the table, so its number is the one
that the definitions of the scope continue with. `define_spec` then says what the scope and the
reports get. -/
lemma Opened.declare {B₀ : Binding n} {scope : Scope (Fin n)} {ds : List (Declaration n)}
    {d : Declaration n} (h : Opened t B₀ scope ds B)
    (hd : (t.kind d.node).isDeclaration = true) :
    ∃ B', B.declare t ⟨B₀.scopes.scopes.size⟩ d = .ok B' ∧ Opened t B₀ scope (ds ++ [d]) B' := by
  have hlast : B.scopes.scope? ⟨B₀.scopes.scopes.size⟩ =
      some { scope with definitions := t.definitionsFrom B₀.symbols.symbols.size ds } := by
    rw [ScopeTree.scope?_eq_some_iff, h.scopes, ← Array.length_toList]
    simp
  have hnumber : B.symbols.symbols.size = B₀.symbols.symbols.size + ds.length := by
    have := congrArg List.length h.symbols
    simpa using this
  obtain ⟨B', hdefine, hsymbols, hscopes, herrors⟩ :=
    define_spec (B := { B with symbols := (B.symbols.declare d.name d.kind d.node).2 }) hlast
      d.name (B.symbols.declare d.name d.kind d.node).1 (t.span d.node)
  refine ⟨B', ?_, ?_⟩
  · simp only [Binding.declare]
    rw [if_pos hd]
    exact hdefine
  · refine ⟨?_, ?_, ?_, ?_, ?_, ?_⟩
    · rw [hsymbols]
      simp [SymbolTable.declare, h.symbols, Declaration.symbol]
    · rw [hsymbols]
      exact h.references
    · rw [hsymbols]
      exact h.globals
    · rw [hscopes, h.scopes, SyntaxTree.definitionsFrom_concat, ← Array.length_toList]
      simp [SymbolTable.declare, hnumber]
    · rw [herrors, h.errors, redeclaration_eq, SyntaxTree.redeclarations_concat,
        List.append_assoc, List.nil_append]
    · intro e he
      rcases List.mem_append.1 he with he | he
      · exact h.declarations e he
      · rw [List.mem_singleton.1 he]
        exact hd

/-- **Opening a scope** of a surface node inside a known scope adds the scope, its definitions and
its symbols, and reports what is declared again.

**Proof sketch.** Creating the scope, and then a loop over the declarations, with `Opened.declare`
for each round. The loop ends early at a node that cannot declare. -/
theorem opened_openScope {outer : ScopeId} {i : Fin n} {kind : ScopeKind}
    (houter : outer.index < B.scopes.scopes.size) (hkind : t.scopeKind? i = some kind)
    (hi : i ∈ t.surface t.root) :
    EndsIn t.Misdeclares
      (fun r => r.1 = ⟨B.scopes.scopes.size⟩ ∧
        Opened t B ⟨some outer, kind, some i, .empty⟩ (t.scopeDeclarations i) r.2)
      (B.openScope t outer i) := by
  obtain ⟨T, hcreate, hT⟩ := ScopeTree.createChild_spec houter kind i
  simp only [openScope]
  simp only [hkind, hcreate]
  have hloop : EndsIn t.Misdeclares
      (Opened t B ⟨some outer, kind, some i, .empty⟩ (t.scopeDeclarations i))
      ((t.scopeDeclarations i).foldlM (declare t ⟨B.scopes.scopes.size⟩)
        { B with scopes := T }) := by
    refine EndsIn.foldlM (I := fun ds B' => Opened t B ⟨some outer, kind, some i, .empty⟩ ds B')
      (fun done d rest B' hsplit hB' => ?_) ?_
    · have hmem : d ∈ t.scopeDeclarations i := by
        rw [hsplit]
        simp
      cases hd : (t.kind d.node).isDeclaration with
      | true =>
        obtain ⟨B'', hok, hB''⟩ := hB'.declare hd
        rw [hok]
        exact hB''
      | false =>
        simp only [declare]
        rw [if_neg (by simp [hd])]
        exact ⟨i, hi, d, hmem, hd, rfl⟩
    · exact ⟨by simp, rfl, rfl, hT, by simp [SyntaxTree.redeclarations], by simp⟩
  exact hloop.bind fun B' hB' => ⟨rfl, hB'⟩

end Binding

end Predeclare
