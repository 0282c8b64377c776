import Predeclare.Proofs.Lowering.Placement
import Predeclare.Proofs.Target.Resolution

set_option relaxedAutoImplicit false
set_option autoImplicit false

/-!
# The target keeps the meaning of names

In the source a scope declares all its names before anything in it is looked up; in the target a
name is known only behind its declaration. The hoist plan makes up for the difference: a name that
is announced for its first early reference is known from there on, so also at every later one. In a
tree of the usual shape each reference denotes in the target what it is bound to in the source, with
one exception. The clauses of a switch share one scope, but each has a statement list of its own. A
reference outside the list of the clause that declares its name asks for no announcement, and does
not denote that declaration.

## Main definitions

* `OutsideClause` — a reference to a declaration in a clause lies outside the list of the clause.

## Main results

* `Compiled.exists_declaration` — whatever a step declares is declared in the source.
* `Compiled.listDeclares_self` — the list of a declaration declares it at every reference in it.
* `target_resolution` — what each reference denotes in the target.
-/

namespace Predeclare

/-- The symbol is declared by a statement of a switch clause, and the reference lies outside the
statement list of this clause. -/
def OutsideClause {n : Nat} (t : SyntaxTree n) (symbols : SymbolTable (Fin n)) (r : Fin n)
    (s : SymbolId) : Prop :=
  ∃ v D c, symbols.valueDeclaration s = some v ∧ t.declarationStatement v = some D ∧
    t.parent D = some c ∧ t.IsClause c ∧ ∀ i ∈ t.ancestors r, i ∉ t.statements c

variable {n : Nat} {t : SyntaxTree n} {I J : Interner} {E : Enumeration} {options : CompilerOptions}
  {globals : List Name} {B : Binding n} {out : UnitOutput n}

/-- A check of an undecided symbol by a reference outside the clause that declares it finds no
sibling and changes nothing. -/
lemma OutsideClause.checkHoist_eq {r : Fin n} {s : SymbolId} (h : OutsideClause t B.symbols r s)
    {state : HoistState n} (hstate : state.isHoisted s = none) :
    state.checkHoist t B.symbols.model r s = (.noSibling, state) := by
  obtain ⟨v, D, c, hv, hD, hparent, hclause, houtside⟩ := h
  have hstatement : (B.symbols.model.valueDeclaration s).bind t.declarationStatement = some D :=
    Option.bind_eq_some_iff.2 ⟨v, hv, hD⟩
  exact HoistState.checkHoist_of_outside hstate hstatement hparent hclause.isBlockLike houtside

namespace Compiled

/-! ## Declarations of a unit without errors -/

/-- A scope declares each name once. -/
lemma declaration_unique (h : Compiled t J globals B out) {a : Fin n} (ha : a ∈ t.surface t.root)
    {d d' : Declaration n} (hd : d ∈ t.scopeDeclarations a) (hd' : d' ∈ t.scopeDeclarations a)
    (hname : d.name = d'.name) : d = d' := by
  have hreports : t.reports globals a = [] := by
    have hnil : (t.surface t.root).flatMap (t.reports globals) = [] := by
      rw [← h.covers.errors, h.no_errors, List.map_nil]
    exact List.flatMap_eq_nil_iff.1 hnil a ha
  have hnodup := (SyntaxTree.redeclarations_eq_nil_iff.1 (List.append_eq_nil_iff.1 hreports).1).2
  exact List.inj_on_of_nodup_map hnodup hd hd' hname

/-- A symbol with a declaring statement is declared by that statement.

**Proof sketch.** A symbol with a declaration comes from a scope (`symbol?_cases`). What a function
itself declares has no declaring statement; any other declaration is made by a statement of a list,
and `declarationStatement_eq` says that this is `D`. -/
lemma mem_statementDeclarations (h : Compiled t J globals B out) (hshape : t.Shaped)
    {s : SymbolId} {data : Symbol (Fin n)} {v D : Fin n} (hs : B.symbols.symbol? s = some data)
    (hv : data.declaration = some v) (hD : t.declarationStatement v = some D) :
    ∃ d ∈ t.statementDeclarations D, d.name = data.name ∧ d.node = v := by
  rcases h.covers.symbol?_cases hs with ⟨g, _, rfl⟩ | ⟨a, ha, d, hd, rfl⟩
  · cases hv
  · obtain rfl := Option.some.inj hv
    have hreach := (SyntaxTree.mem_surface_root_iff.1 ha).1
    rcases SyntaxTree.mem_scopeDeclarations_cases hd with ⟨_, hfunction⟩ |
      ⟨p, D', hp, hD', hmem⟩
    · rw [SyntaxTree.declarationStatement_of_function hfunction] at hD
      cases hD
    · have heq := hshape.declarationStatement_eq (hp.reachable hreach) hD' hmem
      obtain rfl : D' = D := Option.some.inj (heq.symm.trans hD)
      exact ⟨d, hmem, rfl, rfl⟩

/-! ## What a step declares -/

/-- **Whatever a step declares** is declared in the source, by the function or by a statement of the
list.

**Proof sketch.** The ways in which a step declares: by the function, by an earlier statement, by
the function declaration that the step comes out of, or by an announcement. An announced name
belongs to the first early reference of its symbol, and this is early in the list of the declaring
statement. -/
theorem exists_declaration (h : Compiled t J globals B out) (hshape : t.Shaped) {p i v : Fin n}
    {name : Name} (hdeclares : StepDeclares t B.symbols out.hoists p i name v) :
    FunctionDeclares t p name v ∨ i ∈ t.statements p ∧ ∃ S ∈ t.statements p,
      ∃ d ∈ t.statementDeclarations S, d.name = name ∧ d.node = v := by
  rcases hdeclares with hfunction | ⟨hi, ⟨S, hS, _, hd⟩ | ⟨hkind, htext, rfl⟩ |
    ⟨S, hS, _, r, hr, htext, hbind⟩⟩
  · exact Or.inl hfunction
  · exact Or.inr ⟨hi, S, hS, hd⟩
  · refine Or.inr ⟨hi, v, hi, ⟨name, .function, v⟩, ?_, rfl, rfl⟩
    simp only [SyntaxTree.statementDeclarations, SyntaxTree.namedDeclaration]
    rw [hkind, htext]
    exact List.mem_singleton.2 rfl
  · -- a name is announced in the list of the statement that declares it
    obtain ⟨s', hs', hvalue⟩ := Option.bind_eq_some_iff.1 hbind
    obtain ⟨s, hearly, _⟩ := h.mem_hoistsFor_iff.1 hr
    obtain ⟨hs, v', D, block, hv', hD, hblock, _, hmemD, _, hparent, _⟩ := hearly
    obtain rfl : s = s' := Option.some.inj (hs.symm.trans hs')
    obtain rfl : v' = v := Option.some.inj (hv'.symm.trans hvalue)
    obtain rfl : block = p :=
      Option.some.inj (hparent.symm.trans (SyntaxTree.parent_of_mem_statements hS))
    obtain ⟨data, hdata, hname⟩ := h.covers.exists_symbol_of_reference hs' htext
    have hdeclaration : data.declaration = some v' :=
      (SymbolTable.valueDeclaration_of_symbol? hdata).symm.trans hvalue
    obtain ⟨d, hd, hdname, hnode⟩ := h.mem_statementDeclarations hshape hdata hdeclaration hD
    exact Or.inr ⟨hi, D, hmemD, d, hd, hdname.trans hname, hnode⟩

/-- What a step declares is declared by the scope that its node belongs to. -/
lemma exists_scope_of_step (h : Compiled t J globals B out) (hshape : t.Shaped) {p i v : Fin n}
    {name : Name} (hp : t.Reachable p)
    (hdeclares : StepDeclares t B.symbols out.hoists p i name v) :
    ∃ b, t.OwnsList b p ∧ ∃ d ∈ t.scopeDeclarations b, d.name = name ∧ d.node = v := by
  rcases h.exists_declaration hshape hdeclares with ⟨hfunction, hd⟩ | ⟨hi, S, hS, d, hd, hname⟩
  · obtain ⟨hscope, hdeclarations⟩ := SyntaxTree.scopeDeclarations_of_function hfunction
    exact ⟨p, ⟨hscope, Or.inl rfl⟩, hdeclarations ▸ hd⟩
  · obtain ⟨b, hb⟩ := hshape.exists_ownsList hp hi
    exact ⟨b, hb, d, SyntaxTree.mem_scopeDeclarations_of_ownsList hb hS hd, hname⟩

/-- The scope of a step outward from a node lies around the node. -/
lemma exists_scopeAround_of_step (h : Compiled t J globals B out) (hshape : t.Shaped)
    {r p i v : Fin n} {name : Name} (hr : t.Reachable r) (hi : i ∈ t.ancestors r)
    (hp : t.parent i = some p) (hdeclares : StepDeclares t B.symbols out.hoists p i name v) :
    ∃ b ∈ t.scopesAround r, t.OwnsList b p ∧
      ∃ d ∈ t.scopeDeclarations b, d.name = name ∧ d.node = v := by
  have habove := SyntaxTree.parent_mem_above hi hp
  have hpr : p ∈ t.ancestors r := SyntaxTree.mem_ancestors_of_mem_above habove
  obtain ⟨b, hb, hd⟩ := h.exists_scope_of_step hshape (hr.ancestor hpr) hdeclares
  refine ⟨b, SyntaxTree.mem_scopesAround_iff.2 ⟨?_, hb.1⟩, hb, hd⟩
  rcases hb.2 with rfl | ⟨hparent, _⟩
  · exact habove
  · exact SyntaxTree.parent_mem_above hpr hparent

/-! ## References inside the list of their declaration -/

/-- An early reference is preceded by one that is announced in the same list, in front of it.

**Proof sketch.** The first early reference of the symbol is announced, in the list of `S` since
both are early in the list of the declaring statement. It is no later in preorder, so its statement
does not come behind `S`. The two references have the name of the symbol. -/
lemma exists_announced (h : Compiled t J globals B out) {r S p : Fin n} {s : SymbolId} {name : Name}
    (hearly : Early t B.symbols.model r s S) (htext : t.text r = some name)
    (hS : S ∈ t.statements p) :
    ∃ S₀ ∈ t.statements p, (t.Before p S₀ S ∨ S₀ = S) ∧ ∃ r₀ ∈ out.hoists.hoistsFor S₀,
      t.text r₀ = some name ∧ B.symbols.reference? r₀ = some s := by
  obtain ⟨r₀, S₀, hfirst⟩ := hearly.exists_firstEarly
  have hS₀ := hearly.mem_statements hfirst.1 hS
  refine ⟨S₀, hS₀, ?_, r₀, h.mem_hoistsFor_iff.2 ⟨s, hfirst⟩, ?_, hfirst.1.1⟩
  · rcases Nat.lt_trichotomy ((t.statements p).idxOf S₀) ((t.statements p).idxOf S) with
      hlt | heq | hgt
    · exact Or.inl hlt
    · exact Or.inr ((List.idxOf_inj hS₀).1 heq)
    · -- everything below a later statement comes later in preorder
      have hbefore : t.Before p S S₀ := hgt
      have hreach := (SyntaxTree.mem_identifiers_iff.1
        (h.covers.mem_identifiers_of_early hearly)).1
      have hp : p ∈ t.ancestors r :=
        SyntaxTree.mem_ancestors_of_mem_statements hS hearly.mem_ancestors
      have hlt := SyntaxTree.position_lt_of_siblings (hreach.ancestor hp)
        (hbefore.sublist hS₀) hearly.mem_ancestors hfirst.1.mem_ancestors
      have hle := hfirst.2 r S hearly
      omega
  · obtain ⟨_, _, name₀, _, htext₀, _⟩ := h.covers.reference?_eq_some_iff.1 hfirst.1.1
    obtain ⟨data, hdata, hname⟩ := h.covers.exists_symbol_of_reference hearly.1 htext
    obtain ⟨data₀, hdata₀, hname₀⟩ := h.covers.exists_symbol_of_reference hfirst.1.1 htext₀
    obtain rfl : data = data₀ := Option.some.inj (hdata.symm.trans hdata₀)
    rw [htext₀, ← hname₀, hname]

/-- **The list of a declaration declares it** at every reference in it: behind the declaring
statement anyway, inside a function declaration by its own name, and everywhere else because it was
announced.

**Proof sketch.** By the order of the declaring statement and the statement that contains the
reference. If the declaration comes first, it declares the name. If both are one function
declaration, the function declares its own name. Otherwise the reference is early, and by
`exists_announced` the name is announced no later. -/
theorem listDeclares_self (h : Compiled t J globals B out) (hshape : t.Shaped) {r p i D : Fin n}
    {s : SymbolId} {d : Declaration n} (hp : t.Reachable p) (hi : i ∈ t.statements p)
    (hir : i ∈ t.ancestors r) (hD : D ∈ t.statements p) (hd : d ∈ t.statementDeclarations D)
    (hs : B.symbols.reference? r = some s) (htext : t.text r = some d.name)
    (hvalue : B.symbols.valueDeclaration s = some d.node) :
    ListDeclares t B.symbols out.hoists p i d.name d.node := by
  refine ⟨hi, ?_⟩
  have hearly : t.Before p i D ∨ i = D ∧ t.kind D ≠ .functionDeclaration →
      ListDeclares t B.symbols out.hoists p i d.name d.node := by
    intro horder
    have hr : Early t B.symbols.model r s i :=
      ⟨hs, d.node, D, p, hvalue, hshape.declarationStatement_eq hp hD hd,
        SyntaxTree.parent_of_mem_statements hD, SyntaxTree.isBlockLike_of_mem_statements hD, hD,
        hir, SyntaxTree.parent_of_mem_statements hi, hi, hshape.isStatement p hp i hi, horder⟩
    obtain ⟨S₀, hS₀, hbefore, r₀, hr₀, htext₀, hs₀⟩ := h.exists_announced hr htext hi
    refine ⟨hi, Or.inr (Or.inr ⟨S₀, hS₀, hbefore, r₀, hr₀, htext₀, ?_⟩)⟩
    rw [hs₀]
    exact hvalue
  rcases Nat.lt_trichotomy ((t.statements p).idxOf D) ((t.statements p).idxOf i) with
    hlt | heq | hgt
  · exact Or.inl ⟨D, hD, hlt, d, hd, rfl, rfl⟩
  · obtain rfl : D = i := (List.idxOf_inj hD).1 heq
    by_cases hkind : t.kind D = .functionDeclaration
    · have hself : ⟨d.name, .function, D⟩ = d ∧ t.text D = some d.name := by
        simp only [SyntaxTree.statementDeclarations, SyntaxTree.namedDeclaration] at hd
        rw [hkind] at hd
        obtain ⟨name, hname, rfl⟩ := Option.map_eq_some_iff.1 (Option.mem_toList.1 hd)
        exact ⟨rfl, hname⟩
      exact Or.inr (Or.inl ⟨hkind, hself.2, (congrArg Declaration.node hself.1).symm⟩)
    · exact (hearly (Or.inr ⟨rfl, hkind⟩)).2
  · exact (hearly (Or.inl hgt)).2

/-! ## What references denote -/

/-- Inside the scope that declares a name nothing else declares it: the steps up to the list or the
function that makes the declaration can be skipped.

**Proof sketch.** A step that declares the name belongs to a scope around the reference that
declares it. Below `i` such a scope lies inside the one that the lexical rule selects, which is the
innermost one. -/
lemma resolves_iff_of_inner (h : Compiled t J globals B out) (hshape : t.Shaped)
    {r a p i : Fin n} {name : Name} {d : Declaration n} {o : Option (Fin n)} (hr : t.Reachable r)
    (hlex : t.lexicalBinding? r name = some (a, d)) (hi : i ∈ t.ancestors r)
    (hp : t.parent i = some p) (howns : t.OwnsList a p) (hkind : t.kind p ≠ .caseBlock) :
    TargetResolves t B.symbols out.hoists name r o ↔
      TargetResolves t B.symbols out.hoists name i o := by
  refine targetResolves_iff_of_silent hi fun j hj q hq hiq v hdeclares => ?_
  obtain ⟨b, hb, hbq, d', hd', hname, _⟩ :=
    h.exists_scopeAround_of_step hshape hr hj hq hdeclares
  have hip := SyntaxTree.lt_of_parent hp
  have hpa : p ≤ a := SyntaxTree.le_of_mem_ancestors howns.mem_ancestors
  -- the scope of the step lies at or below `i`, so inside that of the declaration
  have hbi : b ≤ i := by
    rcases hbq.2 with rfl | ⟨hparent, hcase⟩
    · exact SyntaxTree.le_of_mem_ancestors hiq
    · rcases SyntaxTree.mem_ancestors_iff.1 hiq with rfl | ⟨b', hb', hmem⟩
      · obtain rfl : b = p := Option.some.inj (hparent.symm.trans hp)
        exact absurd hcase hkind
      · obtain rfl : b = b' := Option.some.inj (hparent.symm.trans hb')
        exact SyntaxTree.le_of_mem_ancestors hmem
  exact SyntaxTree.name_ne_of_lt_lexicalBinding hlex hb (by omega) d' hd' hname

/-- A name that is a global denotes no declaration in the target either. -/
lemma resolves_iff_of_global (h : Compiled t J globals B out) (hshape : t.Shaped) {r : Fin n}
    {name : Name} {o : Option (Fin n)} (hr : t.Reachable r)
    (hlex : t.lexicalBinding? r name = none) :
    TargetResolves t B.symbols out.hoists name r o ↔ o = none := by
  rw [targetResolves_iff_of_silent hr fun j hj q hq _ v hdeclares => ?_, targetResolves_root_iff]
  obtain ⟨b, hb, _, d', hd', hname, _⟩ := h.exists_scopeAround_of_step hshape hr hj hq hdeclares
  exact SyntaxTree.name_ne_of_no_lexicalBinding hlex hb d' hd' hname

/-- A reference outside the clause that declares its name does not denote the declaration: of all
statement lists only that of the clause could declare it.

**Proof sketch.** A step that declares something declares it by a function, whose declarations have
no statement, or by a statement of its list. The statement is then the declaring one, so the list is
that of the clause, and the reference lies inside it. -/
lemma not_resolves_of_outsideClause (h : Compiled t J globals B out) (hshape : t.Shaped) {r : Fin n}
    {name : Name} {s : SymbolId} (hr : t.Reachable r) (houtside : OutsideClause t B.symbols r s) :
    ¬ TargetResolves t B.symbols out.hoists name r (B.symbols.valueDeclaration s) := by
  obtain ⟨v, D, c, hv, hD, hparent, _, houtside⟩ := houtside
  rw [hv]
  intro hresolves
  obtain ⟨i, hi, p, hp, hdeclares⟩ := hresolves.exists_step
  rcases h.exists_declaration hshape hdeclares with ⟨_, d, hd, _, rfl⟩ |
    ⟨hmem, S, hS, d, hd, _, rfl⟩
  · rw [SyntaxTree.declarationStatement_of_function hd] at hD
    cases hD
  · have hpr : p ∈ t.ancestors r :=
      SyntaxTree.mem_ancestors_trans (SyntaxTree.parent_mem_ancestors hp) hi
    have heq := hshape.declarationStatement_eq (hr.ancestor hpr) hS hd
    obtain rfl : S = D := Option.some.inj (heq.symm.trans hD)
    obtain rfl : c = p :=
      Option.some.inj (hparent.symm.trans (SyntaxTree.parent_of_mem_statements hS))
    exact houtside i hi hmem

/-- On the step into the scope that declares a name, exactly its declaration is declared.

**Proof sketch.** Whatever the step declares is declared by the scope in the source, where the name
has one declaration, since a unit with an output has no duplicates. -/
lemma stepDeclares_iff (h : Compiled t J globals B out) {a p i v : Fin n} {d : Declaration n}
    (hshape : t.Shaped) (ha : a ∈ t.surface t.root) (howns : t.OwnsList a p)
    (hd : d ∈ t.scopeDeclarations a)
    (hself : StepDeclares t B.symbols out.hoists p i d.name d.node) :
    StepDeclares t B.symbols out.hoists p i d.name v ↔ v = d.node := by
  constructor
  · intro hdeclares
    rcases h.exists_declaration hshape hdeclares with ⟨hfunction, d', hd', hname, rfl⟩ |
      ⟨hi, S, hS, d', hd', hname, rfl⟩
    · have hpa : p = a := by
        rcases howns.2 with hpa | ⟨hparent, hkind⟩
        · exact hpa
        · have hclause := hshape.clauses a (SyntaxTree.mem_surface_root_iff.1 ha).1 hkind p
            (SyntaxTree.mem_children_iff.2 hparent)
          rcases hclause with hkind | hkind <;> rw [hkind] at hfunction <;> cases hfunction
      have hmem : d' ∈ t.scopeDeclarations a := by
        rw [(SyntaxTree.scopeDeclarations_of_function (hpa ▸ hfunction)).2]
        exact hpa ▸ hd'
      rw [h.declaration_unique ha hmem hd hname]
    · have hmem := SyntaxTree.mem_scopeDeclarations_of_ownsList howns hS hd'
      rw [h.declaration_unique ha hmem hd hname]
  · rintro rfl
    exact hself

/-- A reference to a declaration around it denotes this declaration, unless it is outside the clause
that makes it.

**Proof sketch.** Let `a` be the scope that declares the name. If `a` is a function, the step into
it declares the name. Otherwise a statement of a list that belongs to `a` does; the reference lies
in this list, in a clause because it is not outside, and the list declares the name at the
reference. The steps further inside belong to scopes that do not declare the name. -/
lemma resolves_iff_of_lexicalBinding (h : Compiled t J globals B out) (hshape : t.Shaped)
    {r a : Fin n} {s : SymbolId} {name : Name} {d : Declaration n} {o : Option (Fin n)}
    (hr : r ∈ t.surface t.root) (htext : t.text r = some name)
    (hlex : t.lexicalBinding? r name = some (a, d)) (hs : B.symbols.reference? r = some s)
    (hvalue : B.symbols.valueDeclaration s = some d.node)
    (hinside : ¬ OutsideClause t B.symbols r s) :
    TargetResolves t B.symbols out.hoists name r o ↔ o = some d.node := by
  have hreach := (SyntaxTree.mem_surface_root_iff.1 hr).1
  obtain ⟨haround, _, hd, rfl⟩ := SyntaxTree.mem_scopeDeclarations_of_lexicalBinding hlex
  obtain ⟨habove, hscope⟩ := SyntaxTree.mem_scopesAround_iff.1 haround
  have ha := (SyntaxTree.above_mem_surface hr habove).1
  have hareach := (SyntaxTree.mem_surface_root_iff.1 ha).1
  obtain ⟨i, hi, hparent⟩ := SyntaxTree.exists_child_of_mem_above habove
  rcases SyntaxTree.mem_scopeDeclarations_cases hd with ⟨hfunction, hmem⟩ |
    ⟨p, D, howns, hD, hdD⟩
  · -- `a` is a function that declares the name itself, on the step that leads into it
    have hself : StepDeclares t B.symbols out.hoists a i d.name d.node :=
      Or.inl ⟨hfunction, d, hmem, rfl, rfl⟩
    have howns : t.OwnsList a a := ⟨hscope, Or.inl rfl⟩
    have hkind : t.kind a ≠ .caseBlock := by
      intro hkind
      rw [hkind] at hfunction
      cases hfunction
    rw [h.resolves_iff_of_inner hshape hreach hlex hi hparent howns hkind]
    exact targetResolves_iff_of_declares hparent fun v =>
      h.stepDeclares_iff hshape ha howns hd hself
  · -- a statement of the list `p` declares the name, so the step into `p` is the one that counts
    obtain ⟨j, hj, hjp⟩ : ∃ j ∈ t.ancestors r, j ∈ t.statements p := by
      rcases hshape.exists_mem_statements_or hreach habove howns hD with hmem | ⟨hclause, hnone⟩
      · exact hmem
      · exact absurd ⟨d.node, D, p, hvalue,
          hshape.declarationStatement_eq (howns.reachable hareach) hD hdD,
          SyntaxTree.parent_of_mem_statements hD, hclause, hnone⟩ hinside
    have hparent' := SyntaxTree.parent_of_mem_statements hjp
    have hself : StepDeclares t B.symbols out.hoists p j d.name d.node :=
      Or.inr (h.listDeclares_self hshape (howns.reachable hareach) hjp hj hD hdD hs htext hvalue)
    rw [h.resolves_iff_of_inner hshape hreach hlex hj hparent' howns
      (SyntaxTree.kind_of_mem_statements hD).2]
    exact targetResolves_iff_of_declares hparent' fun v =>
      h.stepDeclares_iff hshape ha howns hd hself

end Compiled

/-- **The target keeps the meaning of names.** Each reference of a compiled unit that is lowered to
a plain identifier denotes in the target exactly what it is bound to, a declaration or a global,
unless it lies outside the statement list of the switch clause that declares its name. In that case
a check of the reference finds no sibling and changes nothing, as long as the symbol is undecided,
and the reference does not denote that declaration.

**Proof sketch.** The name of the reference is declared by a scope around it or is a global, and in
either case the steps outward that could declare something else are ruled out. Outside of the clause
no list can make the declaration, and a check compares the reference with the list of the clause, in
which it has no statement. -/
theorem target_resolution (hspelled : t.Spelled I) (hshape : t.Shaped)
    (h : compile t I options E = .ok (.ok out, J)) :
    ∃ B, bind t I defaultGlobals E = .ok (B, J) ∧
      ∀ r x, out.expression? r = some (.identifier x) →
        ∃ name s, t.text r = some name ∧ J.spelling name = .ok x ∧
          B.symbols.reference? r = some s ∧
          (¬ OutsideClause t B.symbols r s → ∀ o,
            TargetResolves t B.symbols out.hoists name r o ↔
              o = B.symbols.valueDeclaration s) ∧
          (OutsideClause t B.symbols r s →
            (∀ state : HoistState n, state.isHoisted s = none →
              state.checkHoist t B.symbols.model r s = (.noSibling, state)) ∧
            ¬ TargetResolves t B.symbols out.hoists name r (B.symbols.valueDeclaration s)) := by
  obtain ⟨B, globals, hbind, hcompiled⟩ := compiled_of_compile hspelled h
  refine ⟨B, hbind, fun r x hx => ?_⟩
  obtain ⟨name, htext, hspelling⟩ := hcompiled.lowered r _ hx x rfl
  have hr : r ∈ t.identifiers := by
    rw [← hcompiled.keys]
    exact List.mem_map_of_mem (f := Prod.fst) (OrderedMap.get?_eq_some_iff.1 hx)
  obtain ⟨hreach, hkind⟩ := SyntaxTree.mem_identifiers_iff.1 hr
  obtain ⟨s, hs⟩ := (hcompiled.covers.exists_reference?_iff hcompiled.no_errors hcompiled.spelled
    hreach hkind).2 (hcompiled.no_failure r hr)
  refine ⟨name, s, htext, hspelling, hs, fun hinside o => ?_, fun houtside =>
    ⟨fun _ => houtside.checkHoist_eq,
      hcompiled.not_resolves_of_outsideClause hshape hreach houtside⟩⟩
  obtain ⟨hsurface, _, name', definition, htext', hvisible, rfl⟩ :=
    hcompiled.covers.reference?_eq_some_iff.1 hs
  obtain rfl : name = name' := Option.some.inj (htext.symm.trans htext')
  cases hlex : t.lexicalBinding? r name with
  | some binding =>
    obtain ⟨a, d⟩ := binding
    obtain ⟨s', hvisible', _, hsymbol⟩ :=
      hcompiled.covers.exists_symbol_of_lexicalBinding hsurface hlex
    obtain rfl := Option.some.inj (hvisible.symm.trans hvisible')
    have hvalue : B.symbols.valueDeclaration s' = some d.node :=
      SymbolTable.valueDeclaration_of_symbol? hsymbol
    rw [hvalue]
    exact hcompiled.resolves_iff_of_lexicalBinding hshape hsurface htext hlex hs hvalue hinside
  | none =>
    have hglobal : name ∈ globals := by
      by_contra hname
      rw [Binding.Covers.visibleDefinition?_eq_none hlex hname] at hvisible
      cases hvisible
    obtain ⟨s', kind, hvisible', _, hsymbol⟩ :=
      hcompiled.covers.exists_symbol_of_global hlex hglobal
    obtain rfl := Option.some.inj (hvisible.symm.trans hvisible')
    have hvalue : B.symbols.valueDeclaration s' = none :=
      SymbolTable.valueDeclaration_of_symbol? hsymbol
    rw [hvalue]
    exact hcompiled.resolves_iff_of_global hshape hreach hlex

/-- The tree of `x; x; let x;` has the shape of real programs. -/
lemma shaped_twoEarlyReferences : SyntaxTree.twoEarlyReferences.Shaped where
  isStatement := by decide +kernel
  clauses := by decide +kernel
  caseBlock := by decide +kernel
  declarators := by decide +kernel
  elements := by decide +kernel

/-- The second reference of `x; x; let x;` denotes the declaration behind it. -/
theorem target_resolution_of_second :
    SyntaxTree.twoEarlyReferences.Spelled .onlyX ∧ SyntaxTree.twoEarlyReferences.Shaped ∧
    ∃ out B J, compile .twoEarlyReferences .onlyX .default = .ok (.ok out, J) ∧
      bind .twoEarlyReferences .onlyX defaultGlobals = .ok (B, J) ∧
      TargetResolves .twoEarlyReferences B.symbols out.hoists ⟨0⟩ 2 (some 4) := by
  refine ⟨spelled_twoEarlyReferences, shaped_twoEarlyReferences, ?_⟩
  obtain ⟨out, J, hcompile, _, hexpression⟩ := exists_compile_twoEarlyReferences
  obtain ⟨B, hbind, hresolves⟩ :=
    target_resolution spelled_twoEarlyReferences shaped_twoEarlyReferences hcompile
  obtain ⟨name, s, htext, _, hs, hinside, _⟩ := hresolves 2 "x" hexpression
  have hbound : EndsIn (fun _ => False)
      (fun r => (r.1.symbols.reference? 2).bind r.1.symbols.valueDeclaration = some 4)
      (bind .twoEarlyReferences .onlyX defaultGlobals) := by decide +kernel
  have hvalue := hbound.of_ok hbind
  rw [hs, Option.bind_some] at hvalue
  refine ⟨out, B, J, hcompile, hbind, ?_⟩
  obtain rfl : ⟨0⟩ = name := Option.some.inj htext
  refine (hinside ?_ (some 4)).2 hvalue.symm
  rintro ⟨v, D, c, _, _, hc, hclause, _⟩
  have hno : ∀ i, ¬ SyntaxTree.twoEarlyReferences.IsClause i := by decide
  exact hno c hclause

/-! ## A reference outside the clause -/

/-- The tree of `switch (print) { case 1: y; default: let y; }`. -/
def SyntaxTree.acrossClauses : SyntaxTree 12 where
  file := ⟨0⟩
  nodes := #v[
    ⟨.identifier, some 10, [], some ⟨0⟩, ⟨0, 5⟩⟩,
    ⟨.literal, some 4, [], some ⟨1⟩, ⟨6, 7⟩⟩,
    ⟨.identifier, some 3, [], some ⟨2⟩, ⟨8, 9⟩⟩,
    ⟨.expressionStatement, some 4, [2], none, ⟨8, 9⟩⟩,
    ⟨.caseClause, some 9, [1, 3], none, ⟨6, 9⟩⟩,
    ⟨.variableDeclaration, some 6, [], some ⟨2⟩, ⟨10, 11⟩⟩,
    ⟨.variableDeclarationList, some 7, [5], none, ⟨10, 11⟩⟩,
    ⟨.variableStatement, some 8, [6], none, ⟨10, 11⟩⟩,
    ⟨.defaultClause, some 9, [7], none, ⟨10, 11⟩⟩,
    ⟨.caseBlock, some 10, [4, 8], none, ⟨6, 11⟩⟩,
    ⟨.switchStatement, some 11, [0, 9], none, ⟨0, 11⟩⟩,
    ⟨.sourceFile, none, [10], none, ⟨0, 11⟩⟩]
  root := 11
  mem_children_iff_parent := by decide
  nodup_node_children := by decide
  child_lt_parent := by decide
  le_root := by decide
  kind_node_root := by decide

/-- The texts of `SyntaxTree.acrossClauses`. -/
def Interner.ofAcrossClauses : Interner := ⟨["print", "1", "y"], by decide⟩

/-- The tree has the shape of real programs. -/
lemma shaped_acrossClauses : SyntaxTree.acrossClauses.Shaped where
  isStatement := by decide +kernel
  clauses := by decide +kernel
  caseBlock := by decide +kernel
  declarators := by decide +kernel
  elements := by decide +kernel

/-- The reference to `y` in the first clause is bound to the declaration in the second one and
lowered to `y`, and yet `y` does not denote this declaration there. -/
theorem target_resolution_fails_across_clauses :
    SyntaxTree.acrossClauses.Shaped ∧ ∃ out B J s,
      compile .acrossClauses .ofAcrossClauses .default = .ok (.ok out, J) ∧
      bind .acrossClauses .ofAcrossClauses defaultGlobals = .ok (B, J) ∧
      out.expression? 2 = some (.identifier "y") ∧ B.symbols.reference? 2 = some s ∧
      B.symbols.valueDeclaration s = some 5 ∧
      ¬ TargetResolves .acrossClauses B.symbols out.hoists ⟨2⟩ 2 (some 5) := by
  refine ⟨shaped_acrossClauses, ?_⟩
  have hspelled : SyntaxTree.acrossClauses.Spelled .ofAcrossClauses :=
    SyntaxTree.spelled_of_index_lt (by decide)
  have hrun : EndsIn (fun _ => False)
      (fun r => EndsIn (fun _ => False)
        (fun out => out.expression? 2 = some (.identifier "y")) r.1)
      (compile .acrossClauses .ofAcrossClauses .default) := by decide +kernel
  have hbound : EndsIn (fun _ => False)
      (fun r => (r.1.symbols.reference? 2).bind r.1.symbols.valueDeclaration = some 5)
      (bind .acrossClauses .ofAcrossClauses defaultGlobals) := by decide +kernel
  obtain ⟨⟨outcome, J⟩, hcompile, houtcome⟩ := hrun.exists_eq_ok
  obtain ⟨out, rfl, hexpression⟩ := houtcome.exists_eq_ok
  obtain ⟨B, globals, hbind, hcompiled⟩ := compiled_of_compile hspelled hcompile
  obtain ⟨s, hs, hvalue⟩ := Option.bind_eq_some_iff.1 (hbound.of_ok hbind)
  refine ⟨out, B, J, s, hcompile, hbind, hexpression, hs, hvalue, ?_⟩
  rw [← hvalue]
  apply hcompiled.not_resolves_of_outsideClause shaped_acrossClauses (by decide +kernel)
  exact ⟨5, 7, 8, hvalue, by decide +kernel, rfl, Or.inr rfl, by decide +kernel⟩

end Predeclare
