import Predeclare.Proofs.Binding.Globals

set_option relaxedAutoImplicit false
set_option autoImplicit false

/-!
# The walk of the binder

The walk looks at the surface of the tree in order. Looking at one more node takes the binding of
the nodes before it to the binding of these nodes and the new one: a node that introduces a scope
opens it, an identifier is looked up among scopes that are all there, and any other node changes
nothing. By induction down the tree the walk below a node adds what the surface of the node
contributes, and binding a unit gives what its whole surface contributes.

## Main definitions

* `bindGlobals` — what binding a unit starts with.

## Main results

* `Binding.Covers.openScope`, `Binding.Covers.bindReference` — one more node.
* `Binding.Covers.bindNode` — everything at and below a node.
* `covers_bindGlobals`, `covers_bind` — the globals and a whole unit.
-/

namespace Predeclare

/-- Reports of repeated declarations carry no suggestions. -/
lemma SyntaxTree.bare_redeclarations {n : Nat} {t : SyntaxTree n}
    (earlier ds : List (Declaration n)) :
    (t.redeclarations earlier ds).map ResolutionError.bare = t.redeclarations earlier ds := by
  induction ds generalizing earlier with
  | nil => rfl
  | cons d rest ih =>
    rw [redeclarations, List.map_append, ih]
    cases earlier.find? (·.name = d.name) <;> rfl

namespace Binding.Covers

variable {n : Nat} {t : SyntaxTree n} {J : Interner} {E : Enumeration} {globals : List Name}
  {done rest : List (Fin n)} {i : Fin n} {B : Binding n}

/-! ## One more node -/

/-- A node without a scope adds no symbol and no scope: all that it may add is its own binding or
the report that it has none.

**Proof sketch.** Each part of the invariant is a concatenation over the visited nodes, and only the
references and the reports get an entry. -/
lemma concat_of_no_scope (h : Covers t globals done B) (hno : t.introducesScope i = false)
    {B' : Binding n} (hsymbols : B'.symbols.symbols = B.symbols.symbols)
    (htable : B'.symbols.globals = B.symbols.globals) (hscopes : B'.scopes = B.scopes)
    (hreferences : B'.symbols.references.entries =
      B.symbols.references.entries ++ (t.boundReference? globals i).toList)
    (herrors : B'.errors.map ResolutionError.bare =
      B.errors.map ResolutionError.bare ++ (t.undefinedReport? globals i).toList) :
    Covers t globals (done ++ [i]) B' := by
  have hnil := SyntaxTree.scopeDeclarations_eq_nil hno
  have hreports : t.reports globals i = (t.undefinedReport? globals i).toList := by
    simp only [SyntaxTree.reports]
    rw [hnil]
    rfl
  exact {
    symbols := by simp [hsymbols, h.symbols, hnil]
    references := by
      rw [hreferences, h.references, List.filterMap_append]
      cases hi : t.boundReference? globals i with
      | none => simp [hi]
      | some e => simp [hi]
    globalTable := htable.trans h.globalTable
    scopes := by simp [hscopes, h.scopes, hno]
    errors := by simp [herrors, h.errors, hreports]
    declarations := by
      intro a ha d hd
      rcases List.mem_append.1 ha with ha | ha
      · exact h.declarations a ha d hd
      · rw [List.mem_singleton.1 ha, hnil] at hd
        exact absurd hd List.not_mem_nil }

/-- **A node that is no identifier** opens its scope, if it introduces one; the nodes below it lie
in the scope that is returned.

**Proof sketch.** A node without a scope adds nothing. Otherwise `opened_openScope` says what is
added, and the scope gets the number that the tree prescribes because one scope has been made for
each scope before it, and one symbol for each declaration before its own. -/
theorem openScope (h : Covers t globals done B) (hsplit : t.surface t.root = done ++ i :: rest)
    (hkind : t.kind i ≠ .identifier) :
    EndsIn t.Misdeclares (fun r => r.1 = t.scopeBelow i ∧ Covers t globals (done ++ [i]) r.2)
      (B.openScope t (t.enclosingScope i) i) := by
  have hbound : t.boundReference? globals i = none := if_neg hkind
  have hundefined : t.undefinedReport? globals i = none := if_neg hkind
  cases hscope : t.scopeKind? i with
  | none =>
    have hno : t.introducesScope i = false := by simp [SyntaxTree.introducesScope, hscope]
    simp only [Binding.openScope]
    rw [hscope]
    refine ⟨by simp [SyntaxTree.scopeBelow, hno], ?_⟩
    apply h.concat_of_no_scope hno rfl rfl rfl
    · simp [hbound]
    · simp [hundefined]
  | some kind =>
    have hyes : t.introducesScope i = true := by simp [SyntaxTree.introducesScope, hscope]
    have hreports : t.reports globals i = t.redeclarations [] (t.scopeDeclarations i) := by
      simp only [SyntaxTree.reports]
      rw [hundefined]
      exact List.append_nil _
    have hsurface : i ∈ t.surface t.root := by
      rw [hsplit]
      simp
    obtain ⟨hidx, htake⟩ := SyntaxTree.take_scopeOrder hsplit hyes
    -- so far there is a symbol for each global and for each declaration of `done`
    have hfirst : t.firstSymbol globals i = B.symbols.symbols.size := by
      simp only [SyntaxTree.firstSymbol]
      rw [htake, SyntaxTree.flatMap_scopeDeclarations_filter, h.size_symbols]
    apply (opened_openScope (h.enclosingScope_lt hsplit) hscope hsurface).mono
    rintro ⟨inner, B'⟩ ⟨hinner, hopened⟩
    refine ⟨?_, ?_⟩
    · calc inner = ⟨B.scopes.scopes.size⟩ := hinner
        _ = t.scopeNumber i := by rw [h.size_scopes, ← hidx, SyntaxTree.scopeNumber]
        _ = t.scopeBelow i := by rw [SyntaxTree.scopeBelow, if_pos hyes]
    · exact {
        symbols := by
          show B'.symbols.symbols.toList = _
          rw [hopened.symbols, h.symbols]
          simp
        references := by
          show B'.symbols.references.entries = _
          rw [hopened.references, h.references]
          simp [hbound]
        globalTable := hopened.globals.trans h.globalTable
        scopes := by
          show B'.scopes.scopes.toList = _
          rw [hopened.scopes, h.scopes]
          simp [hyes, SyntaxTree.scopeData, hscope, SyntaxTree.scopeDefinitions, hfirst]
        errors := by
          show B'.errors.map _ = _
          rw [hopened.errors, List.map_append, h.errors, SyntaxTree.bare_redeclarations]
          simp [hreports]
        declarations := by
          intro a ha d hd
          rcases List.mem_append.1 ha with ha | ha
          · exact h.declarations a ha d hd
          · rw [List.mem_singleton.1 ha] at hd
            exact hopened.declarations d hd }

/-- **An identifier** is bound to the definition visible at it, or reported.

**Proof sketch.** An identifier without a name adds nothing. One with a name is looked up: by
`lookup_eq` the answer is the definition visible at it, which is recorded, and if there is none a
report is made. It has not been recorded before, since the walk meets each node once. -/
theorem bindReference (h : Covers t globals done B)
    (hsplit : t.surface t.root = done ++ i :: rest) (hkind : t.kind i = .identifier)
    (hspelled : t.Spelled J) (hglobals : ∀ g ∈ globals, J.Knows g) :
    ∃ B', B.bindReference t J E (t.enclosingScope i) i = .ok B' ∧
      Covers t globals (done ++ [i]) B' := by
  have hno := SyntaxTree.introducesScope_of_identifier hkind
  simp only [Binding.bindReference]
  cases htext : t.text i with
  | none =>
    have hbound : t.boundReference? globals i = none := by
      simp [SyntaxTree.boundReference?, htext]
    have hundefined : t.undefinedReport? globals i = none := by
      simp [SyntaxTree.undefinedReport?, htext]
    refine ⟨B, rfl, ?_⟩
    apply h.concat_of_no_scope hno rfl rfl rfl
    · simp [hbound]
    · simp [hundefined]
  | some name =>
    have hresolve := h.resolve_eq hsplit hspelled hglobals
      (fun a ha => SyntaxTree.above_mem_done hsplit (SyntaxTree.mem_scopesAround_iff.1 ha).1)
      (hspelled i name htext) (t.span i) E
    cases hvisible : t.visibleDefinition? globals i name with
    | some d =>
      rw [hvisible] at hresolve
      have hbound : t.boundReference? globals i = some (i, d.symbol) := by
        simp [SyntaxTree.boundReference?, hkind, htext, hvisible]
      have hundefined : t.undefinedReport? globals i = none := by
        simp [SyntaxTree.undefinedReport?, htext, hvisible]
      -- only nodes of `done` have been recorded, and the surface has each node once
      have hnew : i ∉ B.symbols.references.keys := by
        intro hmem
        have hnodup := SyntaxTree.nodup_surface (t := t) t.root
        rw [hsplit, List.nodup_append] at hnodup
        exact hnodup.2.2 i (h.mem_done_of_mem_keys hmem) i List.mem_cons_self rfl
      refine ⟨{ B with symbols := B.symbols.recordReference i d.symbol }, ?_, ?_⟩
      · simp only [hresolve]
      · refine h.concat_of_no_scope hno rfl rfl rfl ?_ ?_
        · simp [SymbolTable.recordReference, OrderedMap.entries_insert_of_notMem hnew, hbound]
        · simp [hundefined]
    | none =>
      rw [hvisible] at hresolve
      obtain ⟨ks, hks⟩ := hresolve
      have hbound : t.boundReference? globals i = none := by
        simp [SyntaxTree.boundReference?, htext, hvisible]
      have hundefined :
          t.undefinedReport? globals i = some (.undefinedName name (t.span i) []) := by
        simp [SyntaxTree.undefinedReport?, hkind, htext, hvisible]
      refine ⟨{ B with errors := B.errors ++ [.undefinedName name (t.span i) ks] }, ?_, ?_⟩
      · simp only [hks]
      · refine h.concat_of_no_scope hno rfl rfl rfl ?_ ?_
        · simp [hbound]
        · simp [hundefined, ResolutionError.bare]

/-! ## The whole walk -/

/-- The loop over the first children of a node adds their surfaces one after the other, if binding a
child adds the surface of the child.

**Proof sketch.** The loop keeps "covered are `done` and the surfaces of the first children". The
child in hand has the scope below `i` around it and the surfaces of its earlier siblings before it,
so `hchild` applies. -/
lemma foldlM_children {cs more : List (Fin n)} (hcs : t.children i = cs ++ more)
    (hchild : ∀ c ∈ t.children i, ∀ {done rest : List (Fin n)} {B : Binding n},
      Covers t globals done B → t.surface t.root = done ++ t.surface c ++ rest →
      EndsIn t.Misdeclares (Covers t globals (done ++ t.surface c))
        (Predeclare.bindNode t J E (t.enclosingScope c) c B))
    (h : Covers t globals done B)
    (hsplit : t.surface t.root = done ++ (t.children i).flatMap t.surface ++ rest) :
    EndsIn t.Misdeclares (Covers t globals (done ++ cs.flatMap t.surface))
      (cs.foldlM (fun B c => Predeclare.bindNode t J E (t.scopeBelow i) c B) B) := by
  refine EndsIn.foldlM (I := fun first B => Covers t globals (done ++ first.flatMap t.surface) B)
    (fun first c others B' hfirst hB' => ?_) (by simpa using h)
  have hc : c ∈ t.children i := by
    rw [hcs, hfirst]
    simp
  rw [← SyntaxTree.enclosingScope_of_parent (SyntaxTree.mem_children_iff.1 hc)]
  have hsplit' : t.surface t.root = (done ++ first.flatMap t.surface) ++ t.surface c ++
      ((others ++ more).flatMap t.surface ++ rest) := by
    rw [hsplit, hcs, hfirst]
    simp
  simpa using hchild c hc hB' hsplit'

/-- **The walk below a node** adds what the surface of the node contributes.

**Proof sketch.** Induction down the tree. At an identifier the surface is one node. At any other
node the scope is opened first, and then a loop over the children adds their surfaces one after the
other; all children lie in the scope that was opened. -/
theorem bindNode (hspelled : t.Spelled J) (hglobals : ∀ g ∈ globals, J.Knows g) (i : Fin n)
    (h : Covers t globals done B) (hsplit : t.surface t.root = done ++ t.surface i ++ rest) :
    EndsIn t.Misdeclares (Covers t globals (done ++ t.surface i))
      (Predeclare.bindNode t J E (t.enclosingScope i) i B) := by
  induction i using SyntaxTree.downwards_induction (t := t) generalizing done rest B with
  | step i ih =>
    rw [bindNode_eq]
    by_cases hkind : t.kind i = .identifier
    · rw [if_pos hkind]
      rw [SyntaxTree.surface_of_identifier hkind] at hsplit ⊢
      rw [List.append_assoc] at hsplit
      obtain ⟨B', hB', hcovers⟩ := h.bindReference hsplit hkind hspelled hglobals
      rw [hB']
      exact hcovers
    · rw [if_neg hkind]
      rw [SyntaxTree.surface_of_not_identifier hkind] at hsplit ⊢
      have hopen : t.surface t.root =
          done ++ i :: ((t.children i).flatMap t.surface ++ rest) := by
        rw [hsplit]
        simp
      apply (h.openScope hopen hkind).bind
      rintro ⟨inner, B₁⟩ ⟨rfl, hB₁⟩
      have hloop := foldlM_children (List.append_nil _).symm (fun c hc => ih c hc) hB₁
        (by simpa using hopen)
      simpa using hloop

end Binding.Covers

/-! ## A whole unit -/

section Unit

variable {n : Nat} {t : SyntaxTree n} {I : Interner} {E : Enumeration}

/-- What binding a unit starts with: the globals are made known before any node is looked at. -/
def bindGlobals (t : SyntaxTree n) (I : Interner) (spellings : List String) :
    Except Fault (Binding n × Interner) := do
  let (undefinedName, I) := I.intern "undefined"
  let (names, I) := I.internAll spellings
  let B ← (undefinedName :: names).foldlM (Binding.declareGlobal t.file) (.new undefinedName)
  return (B, I)

/-- Binding a unit is the walk from the root that starts with the globals. -/
lemma bind_eq (t : SyntaxTree n) (I : Interner) (spellings : List String) :
    bind t I spellings E = bindGlobals t I spellings >>= fun (B, J) =>
      bindNode t J E ScopeTree.globalScope t.root B >>= fun B => .ok (B, J) := by
  simp only [bind, bindGlobals]
  cases ((I.intern "undefined").1 :: ((I.intern "undefined").2.internAll spellings).1).foldlM
    (Binding.declareGlobal (n := n) t.file) (.new (I.intern "undefined").1) <;> rfl

/-- **The globals of a unit** are made known without a fault. -/
theorem covers_bindGlobals (t : SyntaxTree n) (I : Interner) (spellings : List String) :
    ∃ B J globals, bindGlobals t I spellings = .ok (B, J) ∧ J.Extends I ∧
      GlobalNames J spellings globals ∧ B.Covers t globals [] := by
  have hnames := I.map_spelling_internAll ("undefined" :: spellings)
  obtain ⟨hextends, _, _⟩ := I.internAll_spec ("undefined" :: spellings)
  obtain ⟨globals, B, hB, hdeclared⟩ := Binding.declaresGlobals_foldlM (t := t)
    (I.intern "undefined").1 ((I.intern "undefined").2.internAll spellings).1
  refine ⟨B, _, globals, ?_, hextends, hdeclared.globalNames hnames, hdeclared.covers⟩
  simp only [bindGlobals, hB, ok_bind, pure_eq_ok]
  rfl

/-- **Binding a unit** gives what the surface of its tree contributes. The only faults are nodes
that cannot declare what they should. -/
theorem covers_bind (hspelled : t.Spelled I) (spellings : List String) :
    ∃ J globals, J.Extends I ∧ GlobalNames J spellings globals ∧
      EndsIn t.Misdeclares (fun r => r.2 = J ∧ r.1.Covers t globals (t.surface t.root))
        (bind t I spellings E) := by
  obtain ⟨B, J, globals, hB, hJ, hglobals, hcovers⟩ := covers_bindGlobals t I spellings
  refine ⟨J, globals, hJ, hglobals, ?_⟩
  have hsplit : t.surface t.root = [] ++ t.surface t.root ++ [] := by simp
  have hwalk := hcovers.bindNode (E := E) (hspelled.extends hJ) hglobals.knows t.root hsplit
  rw [SyntaxTree.enclosingScope_root, List.nil_append] at hwalk
  rw [bind_eq, hB, ok_bind]
  exact hwalk.bind fun B' hB' => ⟨rfl, hB'⟩

end Unit

end Predeclare
