import Predeclare.Proofs.Binding.Answers
import Predeclare.Proofs.Binding.Shape
import Predeclare.Proofs.Lowering.CheckLog
import Predeclare.Unit

set_option relaxedAutoImplicit false
set_option autoImplicit false

/-!
# What a check comes to

The binder goes through the tree downward and declares the names of a statement list in the scope
that the list belongs to. A check goes upward: from the declaration of a symbol to a statement, from
there to the list, and from the reference to a statement of the same list. In a tree of the usual
shape both find the same list. A check therefore finds no declaring statement exactly if no
statement declares the symbol, always finds the list of the statement, and finds no statement of the
list above the reference exactly if the list is that of a clause and the reference lies outside it.

## Main definitions

* `SymbolTable.OfNoStatement`, `SymbolTable.DeclaredBy` — whether a statement declares a symbol.
* `Binding.DeclaredThrough` — the statement, the list and the scope that a symbol was declared in.

## Main results

* `Binding.Covers.placement_cases` — where a reference stands, by what declares its symbol.
* `checkHoist_outcome` — the outcomes of a check.
-/

namespace Predeclare

variable {n : Nat}

/-- No statement declares the symbol: it is a global or the undefined value, a parameter, or the
name of a function expression. -/
def SymbolTable.OfNoStatement (symbols : SymbolTable (Fin n)) (t : SyntaxTree n) (s : SymbolId) :
    Prop :=
  ∃ data, symbols.symbol? s = some data ∧
    (data.kind = .global ∨ data.kind = .undefined ∨ data.kind = .parameter ∨
      ∃ v, data.declaration = some v ∧ t.kind v = .functionExpression)

/-- The statement `D` declares the symbol. -/
def SymbolTable.DeclaredBy (symbols : SymbolTable (Fin n)) (t : SyntaxTree n) (s : SymbolId)
    (D : Fin n) : Prop :=
  ∃ d ∈ t.statementDeclarations D, symbols.symbol? s = some d.symbol

/-- A statement of the clause `c` declares the symbol. -/
def SymbolTable.DeclaredInClause (symbols : SymbolTable (Fin n)) (t : SyntaxTree n) (s : SymbolId)
    (c : Fin n) : Prop :=
  t.IsClause c ∧ ∃ D ∈ t.statements c, symbols.DeclaredBy t s D

/-- **What the binder did to declare a symbol**: it found the declaration in the statement `D` of
the list of `p`, and defined the name in the scope of `a`, to which the list belongs. -/
structure Binding.DeclaredThrough (t : SyntaxTree n) (B : Binding n) (s : SymbolId)
    (a p D : Fin n) : Prop where
  owns : t.OwnsList a p
  mem : D ∈ t.statements p
  defines : ∃ d ∈ t.statementDeclarations D, B.symbols.symbol? s = some d.symbol ∧
    ∃ scope ∈ B.scopes.scopes.toList, scope.node = some a ∧
      scope.definitions.get? d.name = some ⟨s, t.span d.node⟩

variable {t : SyntaxTree n} {I J : Interner} {E : Enumeration} {spellings : List String}
  {globals : List Name}
  {B : Binding n}

/-! ## What declares a symbol -/

/-- The search for the statement of a symbol finds the one that declares it.

**Proof sketch.** The symbol is that of a declaration which a scope of the unit makes, so the
declaring node can be reached, and with it the list of `D`. In a tree of the usual shape the search
then finds `D`. -/
lemma Binding.Covers.declarationStatement_of_declaredBy (h : B.Covers t globals (t.surface t.root))
    (hshape : t.Shaped) {s : SymbolId} {p D : Fin n} (hD : D ∈ t.statements p)
    (hs : B.symbols.DeclaredBy t s D) :
    (B.symbols.valueDeclaration s).bind t.declarationStatement = some D := by
  obtain ⟨d, hd, hsymbol⟩ := hs
  have hvalue : B.symbols.valueDeclaration s = some d.node :=
    SymbolTable.valueDeclaration_of_symbol? hsymbol
  rw [hvalue]
  rcases h.symbol?_cases hsymbol with ⟨g, _, heq⟩ | ⟨a, ha, d', hd', heq⟩
  · cases congrArg Symbol.declaration heq
  · -- the statement lies above a node that a scope of the unit declares, so it is reachable
    have hnode : d.node = d'.node := Option.some.inj (congrArg Symbol.declaration heq)
    have hreach : t.Reachable d.node := by
      rw [hnode]
      exact SyntaxTree.mem_ancestors_trans (SyntaxTree.mem_surface_root_iff.1 ha).1
        (SyntaxTree.mem_ancestors_of_mem_scopeDeclarations hd')
    have hp := SyntaxTree.mem_ancestors_of_mem_statements hD
      (SyntaxTree.of_mem_statementDeclarations hd).1
    exact hshape.declarationStatement_eq (hreach.ancestor hp) hD hd

/-- A symbol that a statement declares is not one that no statement declares.

**Proof sketch.** What a statement declares is no global and no parameter, and the search from a
function expression does not find a statement. -/
lemma Binding.Covers.not_ofNoStatement (h : B.Covers t globals (t.surface t.root))
    (hshape : t.Shaped) {s : SymbolId} {p D : Fin n} (hD : D ∈ t.statements p)
    (hs : B.symbols.DeclaredBy t s D) : ¬ B.symbols.OfNoStatement t s := by
  have hstatement := h.declarationStatement_of_declaredBy hshape hD hs
  obtain ⟨d, hd, hsymbol⟩ := hs
  rintro ⟨data, hdata, hkind⟩
  obtain rfl := Option.some.inj (hsymbol.symm.trans hdata)
  obtain ⟨_, _, hglobal, hundefined, hparameter⟩ := SyntaxTree.of_mem_statementDeclarations hd
  rcases hkind with hkind | hkind | hkind | ⟨v, hv, hkind⟩
  · exact hglobal hkind
  · exact hundefined hkind
  · exact hparameter hkind
  · have hvalue : B.symbols.valueDeclaration s = some v :=
      (SymbolTable.valueDeclaration_of_symbol? hsymbol).trans hv
    rw [hvalue] at hstatement
    exact (SyntaxTree.find?_of_declarationStatement hstatement).1 hkind

/-- No statement declares a symbol without a declaration: it is that of a global, and one of the
globals is the undefined value. -/
lemma Binding.Covers.ofNoStatement_of_no_declaration (h : B.Covers t globals (t.surface t.root))
    {s : SymbolId} {data : Symbol (Fin n)} (hs : B.symbols.symbol? s = some data)
    (hnone : data.declaration = none) : B.symbols.OfNoStatement t s := by
  refine ⟨data, hs, ?_⟩
  rcases h.symbol?_cases hs with ⟨g, _, rfl⟩ | ⟨_, _, _, _, rfl⟩
  · by_cases hzero : s.index = 0
    · exact Or.inr (Or.inl (if_pos hzero))
    · exact Or.inl (if_neg hzero)
  · cases hnone

/-- No statement declares the own name and the parameters of a function. -/
lemma SymbolTable.ofNoStatement_of_function {symbols : SymbolTable (Fin n)} {s : SymbolId}
    {a : Fin n} {d : Declaration n} (hs : symbols.symbol? s = some d.symbol)
    (hd : d ∈ t.selfDeclarations a ++ t.parameterDeclarations a) :
    symbols.OfNoStatement t s := by
  refine ⟨d.symbol, hs, ?_⟩
  rcases (SyntaxTree.of_mem_functionDeclarations hd).2 with hkind | ⟨_, hkind⟩
  · exact Or.inr (Or.inr (Or.inr ⟨d.node, rfl, hkind⟩))
  · exact Or.inr (Or.inr (Or.inl hkind))

/-- A name that a scope defines by a statement of one of its lists is declared through it. -/
lemma Binding.Covers.declaredThrough (h : B.Covers t globals (t.surface t.root)) {a p D : Fin n}
    {s : SymbolId} {d : Declaration n} (ha : a ∈ t.surface t.root)
    (hscope : t.introducesScope a = true) (howns : t.OwnsList a p) (hD : D ∈ t.statements p)
    (hd : d ∈ t.statementDeclarations D) (hs : B.symbols.symbol? s = some d.symbol)
    (hget : (t.scopeDefinitions globals a).get? d.name = some ⟨s, t.span d.node⟩) :
    B.DeclaredThrough t s a p D := by
  have hdefines : t.scopeData globals a ∈ B.scopes.scopes.toList := by
    rw [h.scopes]
    exact List.mem_cons_of_mem _ (List.mem_map_of_mem (List.mem_filter.2 ⟨ha, hscope⟩))
  exact ⟨howns, hD, d, hd, hs, _, hdefines, rfl, hget⟩

/-! ## Where a reference stands -/

section Placement

variable {model : SemanticModel (Fin n)} {r p D S : Fin n} {s : SymbolId}

/-- Without a declaring statement there is nothing to compare with. -/
lemma placement_of_no_statement
    (h : (model.valueDeclaration s).bind t.declarationStatement = none) :
    placement t model r s = .noDeclarationStatement := by
  simp only [placement]
  rw [h]

/-- A reference that lies in a statement of the list is compared by this statement. -/
lemma placement_of_mem (h : (model.valueDeclaration s).bind t.declarationStatement = some D)
    (hD : D ∈ t.statements p) (hS : S ∈ t.statements p) (hr : S ∈ t.ancestors r)
    (hkind : (t.kind S).isStatement = true) :
    placement t model r s = placementInList t p D S := by
  have hblock := SyntaxTree.isBlockLike_of_mem_statements hD
  have htowards := SyntaxTree.childTowards_eq_some_iff.2
    ⟨hr, SyntaxTree.parent_of_mem_statements hS⟩
  simp only [placement]
  rw [h]
  simp only [SyntaxTree.parent_of_mem_statements hD, Option.filter_some, hblock, if_true, htowards,
    hkind]

/-- A reference that lies in no statement of the list has none to be compared by.

**Proof sketch.** If the block has a child towards `r` that is a statement, this child is an
ancestor of `r`, hence not in the list, and `placementInList_of_not_mem` finds no sibling. -/
lemma placement_of_not_mem (h : (model.valueDeclaration s).bind t.declarationStatement = some D)
    (hparent : t.parent D = some p) (hblock : t.isBlockLike p = true)
    (hr : ∀ i ∈ t.ancestors r, i ∉ t.statements p) : placement t model r s = .noSibling := by
  simp only [placement]
  rw [h]
  simp only [hparent, Option.filter_some, hblock, if_true]
  split
  · rfl
  · rename_i S hS
    -- a child of the block that is a statement need not be in its list: a test may be one
    have hancestor :=
      SyntaxTree.mem_ancestors_of_childTowards (Option.filter_eq_some_iff.1 hS).1
    exact placementInList_of_not_mem fun hmem => hr S hancestor hmem.2

/-- An undecided symbol is checked by where the reference stands. -/
lemma HoistState.fst_checkHoist {state : HoistState n} (h : state.isHoisted s = none) :
    (state.checkHoist t model r s).1 = placement t model r s := by
  have hs : s ∉ state.decided.keys := OrderedMap.get?_eq_none_iff.1 h
  rcases checkHoist_cases t model state r s with ⟨hdecided, _⟩ | ⟨_, S, hplacement, heq⟩ |
    ⟨_, _, heq⟩
  · exact absurd hdecided hs
  · rw [heq, hplacement]
  · rw [heq]

/-- A check of an undecided symbol that is declared in a list outside of which the reference lies
finds no sibling and changes nothing. -/
lemma HoistState.checkHoist_of_outside {state : HoistState n} (hstate : state.isHoisted s = none)
    (h : (model.valueDeclaration s).bind t.declarationStatement = some D)
    (hparent : t.parent D = some p) (hblock : t.isBlockLike p = true)
    (hr : ∀ i ∈ t.ancestors r, i ∉ t.statements p) :
    state.checkHoist t model r s = (.noSibling, state) := by
  have hplacement : placement t model r s = .noSibling := placement_of_not_mem h hparent hblock hr
  have hundecided : state.decided.contains s = false := by
    rw [HoistState.isHoisted] at hstate
    rw [OrderedMap.contains_eq_isSome, hstate]
    rfl
  rw [checkHoist_of_undecided hundecided, hplacement]

end Placement

/-- **Where a reference stands**, by what declares its symbol.

**Proof sketch.** A name that no scope around the reference declares is a global and has no
declaration. A scope declares a name for a function, and then the search for a statement fails, or
by a statement of a list. In that case the search finds this statement, and the reference lies in a
statement of the list too, unless the list is that of a clause. -/
theorem Binding.Covers.placement_cases (h : B.Covers t globals (t.surface t.root))
    (hshape : t.Shaped) {r : Fin n} {s : SymbolId} (hs : B.symbols.reference? r = some s) :
    (B.symbols.OfNoStatement t s ∧
        placement t B.symbols.model r s = .noDeclarationStatement) ∨
      ∃ a p D, B.DeclaredThrough t s a p D ∧
        (B.symbols.valueDeclaration s).bind t.declarationStatement = some D ∧
        ((∃ S ∈ t.statements p, S ∈ t.ancestors r ∧
            placement t B.symbols.model r s = placementInList t p D S) ∨
          t.IsClause p ∧ (∀ i ∈ t.ancestors r, i ∉ t.statements p) ∧
            placement t B.symbols.model r s = .noSibling) := by
  obtain ⟨hr, name, _, ⟨_, kind, hsymbol⟩ | ⟨a, d, hlex, hsymbol, hget⟩⟩ := h.reference?_cases hs
  · have hvalue := SymbolTable.valueDeclaration_of_symbol? hsymbol
    refine Or.inl ⟨h.ofNoStatement_of_no_declaration hsymbol rfl, placement_of_no_statement ?_⟩
    show (B.symbols.valueDeclaration s).bind _ = none
    rw [hvalue]
    rfl
  · have hvalue : B.symbols.valueDeclaration s = some d.node :=
      SymbolTable.valueDeclaration_of_symbol? hsymbol
    obtain ⟨haround, _, hd, rfl⟩ := SyntaxTree.mem_scopeDeclarations_of_lexicalBinding hlex
    obtain ⟨habove, hscope⟩ := SyntaxTree.mem_scopesAround_iff.1 haround
    have ha := (SyntaxTree.above_mem_surface hr habove).1
    rcases SyntaxTree.mem_scopeDeclarations_cases hd with ⟨_, hfunction⟩ |
      ⟨p, D, howns, hD, hmem⟩
    · refine Or.inl ⟨SymbolTable.ofNoStatement_of_function hsymbol hfunction,
        placement_of_no_statement ?_⟩
      show (B.symbols.valueDeclaration s).bind _ = none
      rw [hvalue]
      exact SyntaxTree.declarationStatement_of_function hfunction
    · have hp := howns.reachable (SyntaxTree.mem_surface_root_iff.1 ha).1
      have hstatement : (B.symbols.valueDeclaration s).bind t.declarationStatement = some D := by
        rw [hvalue]
        exact hshape.declarationStatement_eq hp hD hmem
      refine Or.inr ⟨a, p, D, h.declaredThrough ha hscope howns hD hmem hsymbol hget, hstatement,
        ?_⟩
      have hreach := (SyntaxTree.mem_surface_root_iff.1 hr).1
      rcases hshape.exists_mem_statements_or hreach habove howns hD with
        ⟨S, hSr, hS⟩ | ⟨hclause, hnone⟩
      · exact Or.inl ⟨S, hS, hSr,
          placement_of_mem hstatement hD hS hSr (hshape.isStatement p hp S hS)⟩
      · exact Or.inr ⟨hclause, hnone, placement_of_not_mem hstatement
          (SyntaxTree.parent_of_mem_statements hD) hclause.isBlockLike hnone⟩

/-- **The outcomes of a check** of a symbol that has not been announced, in a tree of the usual
shape. There is no declaring statement exactly if no statement declares the symbol. The declaring
statement always stands in a block. The reference has no statement in this block exactly if a
statement of a clause declares the symbol and the reference lies outside the list of the clause. In
all other cases the declaring statement is the one that the binder found the declaration in, a
statement of the same list leads to the reference, and the order of the two decides; the list
belongs to the scope in which the binder defined the name.

**Proof sketch.** The cases of `Binding.Covers.placement_cases`: there is no declaring statement; a
statement of its list leads to the reference; or the list is that of a clause and the reference lies
outside. Each gives one outcome or, in the second case, the three that depend on the order. What
remains is that the cases exclude each other, because the declaring statement is unique. -/
theorem checkHoist_outcome (hspelled : t.Spelled I) (hshape : t.Shaped)
    (hbind : bind t I spellings E = .ok (B, J)) {r : Fin n} {s : SymbolId}
    (hs : B.symbols.reference? r = some s) {state : HoistState n}
    (hstate : state.isHoisted s = none) {outcome : HoistOutcome n}
    (houtcome : (state.checkHoist t B.symbols.model r s).1 = outcome) :
    (outcome = .noDeclarationStatement ↔ B.symbols.OfNoStatement t s) ∧
      outcome ≠ .notBlockScoped ∧
      (outcome = .noSibling ↔ ∃ c, B.symbols.DeclaredInClause t s c ∧
        ∀ i ∈ t.ancestors r, i ∉ t.statements c) ∧
      (outcome ≠ .noDeclarationStatement → outcome ≠ .noSibling →
        ∃ a p D S, B.DeclaredThrough t s a p D ∧
          (B.symbols.valueDeclaration s).bind t.declarationStatement = some D ∧
          S ∈ t.statements p ∧ S ∈ t.ancestors r ∧
          outcome =
            if t.Before p D S then .declaredBefore
            else if D = S ∧ t.kind D = .functionDeclaration then .selfReference
            else .hoisted S) := by
  obtain ⟨J', globals, _, _, hends⟩ := covers_bind hspelled spellings
  obtain ⟨_, hcovers⟩ := hends.of_ok hbind
  rw [HoistState.fst_checkHoist hstate] at houtcome
  subst houtcome
  rcases hcovers.placement_cases hshape hs with ⟨hno, hplacement⟩ |
    ⟨a, p, D, hdeclared, hD, hcases⟩
  · rw [hplacement]
    refine ⟨iff_of_true rfl hno, by simp, ?_, by simp⟩
    refine iff_of_false (by simp) ?_
    rintro ⟨c, ⟨_, D, hD, hby⟩, _⟩
    exact hcovers.not_ofNoStatement hshape hD hby hno
  · have hby : B.symbols.DeclaredBy t s D := by
      obtain ⟨d, hd, hsymbol, _⟩ := hdeclared.defines
      exact ⟨d, hd, hsymbol⟩
    have hsome := hcovers.not_ofNoStatement hshape hdeclared.mem hby
    rcases hcases with ⟨S, hS, hSr, hplacement⟩ | ⟨hclause, hnone, hplacement⟩
    · rw [hplacement, placementInList_of_mem hdeclared.mem hS]
      refine ⟨iff_of_false ?_ hsome, ?_, iff_of_false ?_ ?_, fun _ _ =>
        ⟨a, p, D, S, hdeclared, hD, hS, hSr, rfl⟩⟩
      · split_ifs <;> simp
      · split_ifs <;> simp
      · split_ifs <;> simp
      · rintro ⟨c, ⟨_, D', hD', hby'⟩, hout⟩
        -- the declaring statement is unique, so its list is that of the clause
        have hD'' := hcovers.declarationStatement_of_declaredBy hshape hD' hby'
        obtain rfl := Option.some.inj (hD.symm.trans hD'')
        obtain rfl := Option.some.inj ((SyntaxTree.parent_of_mem_statements hD').symm.trans
          (SyntaxTree.parent_of_mem_statements hdeclared.mem))
        exact hout S hSr hS
    · rw [hplacement]
      refine ⟨iff_of_false (by simp) hsome, by simp, iff_of_true rfl ?_, by simp⟩
      exact ⟨p, ⟨hclause, D, hdeclared.mem, hby⟩, hnone⟩

/-! ## References in a clause -/

/-- The tree of `switch (print) { case 1: w(z, y); let w; let z; default: let y; }`. -/
def SyntaxTree.callInClause : SyntaxTree 21 where
  file := ⟨0⟩
  nodes := #v[
    ⟨.identifier, some 19, [], some ⟨0⟩, ⟨0, 5⟩⟩,
    ⟨.literal, some 13, [], some ⟨1⟩, ⟨6, 7⟩⟩,
    ⟨.identifier, some 5, [], some ⟨2⟩, ⟨8, 9⟩⟩,
    ⟨.identifier, some 5, [], some ⟨3⟩, ⟨10, 11⟩⟩,
    ⟨.identifier, some 5, [], some ⟨4⟩, ⟨12, 13⟩⟩,
    ⟨.callExpression, some 6, [2, 3, 4], none, ⟨8, 13⟩⟩,
    ⟨.expressionStatement, some 13, [5], none, ⟨8, 13⟩⟩,
    ⟨.variableDeclaration, some 8, [], some ⟨2⟩, ⟨14, 15⟩⟩,
    ⟨.variableDeclarationList, some 9, [7], none, ⟨14, 15⟩⟩,
    ⟨.variableStatement, some 13, [8], none, ⟨14, 15⟩⟩,
    ⟨.variableDeclaration, some 11, [], some ⟨3⟩, ⟨16, 17⟩⟩,
    ⟨.variableDeclarationList, some 12, [10], none, ⟨16, 17⟩⟩,
    ⟨.variableStatement, some 13, [11], none, ⟨16, 17⟩⟩,
    ⟨.caseClause, some 18, [1, 6, 9, 12], none, ⟨6, 17⟩⟩,
    ⟨.variableDeclaration, some 15, [], some ⟨4⟩, ⟨18, 19⟩⟩,
    ⟨.variableDeclarationList, some 16, [14], none, ⟨18, 19⟩⟩,
    ⟨.variableStatement, some 17, [15], none, ⟨18, 19⟩⟩,
    ⟨.defaultClause, some 18, [16], none, ⟨18, 19⟩⟩,
    ⟨.caseBlock, some 19, [13, 17], none, ⟨6, 19⟩⟩,
    ⟨.switchStatement, some 20, [0, 18], none, ⟨0, 19⟩⟩,
    ⟨.sourceFile, none, [19], none, ⟨0, 19⟩⟩]
  root := 20
  mem_children_iff_parent := by decide +kernel
  nodup_node_children := by decide
  child_lt_parent := by decide
  le_root := by decide
  kind_node_root := by decide

/-- The texts of `SyntaxTree.callInClause`. -/
def Interner.ofCallInClause : Interner := ⟨["print", "1", "w", "z", "y"], by decide⟩

/-- The names of the tree have spellings. -/
lemma spelled_callInClause : SyntaxTree.callInClause.Spelled .ofCallInClause :=
  SyntaxTree.spelled_of_index_lt (by decide)

/-- The tree has the shape of real programs. -/
lemma shaped_callInClause : SyntaxTree.callInClause.Shaped where
  isStatement := by decide +kernel
  clauses := by decide +kernel
  caseBlock := by decide +kernel
  declarators := by decide +kernel
  elements := by decide +kernel

/-- The references `w` and `y` are bound to the declarations behind them, and the first one asks to
announce its declaration. -/
lemma bind_callInClause :
    EndsIn (fun _ => False)
      (fun r => ((r.1.symbols.reference? 2).bind r.1.symbols.symbol?,
          (r.1.symbols.reference? 4).bind r.1.symbols.symbol?,
          (r.1.symbols.reference? 2).map (placement .callInClause r.1.symbols.model 2)) =
        (some ⟨⟨2⟩, .variable, some 7⟩, some ⟨⟨4⟩, .variable, some 14⟩, some (.hoisted 6)))
      (bind .callInClause .ofCallInClause defaultGlobals) := by decide +kernel

/-- The references `w` and `z` are announced at their statement, and nothing else is announced. -/
lemma exists_compile_callInClause :
    ∃ out J, compile .callInClause .ofCallInClause .default = .ok (.ok out, J) ∧
      out.hoists.entries = [(6, [2, 3])] ∧
      out.renderHoists .callInClause J = .ok "expression_statement 8..13: w, z\n" := by
  have hrun : EndsIn (fun _ => False)
      (fun r => EndsIn (fun _ => False)
        (fun out => out.hoists.entries = [(6, [2, 3])] ∧
          EndsIn (fun _ => False) (fun text => text = "expression_statement 8..13: w, z\n")
            (out.renderHoists .callInClause r.2))
        r.1)
      (compile .callInClause .ofCallInClause .default) := by decide +kernel
  obtain ⟨⟨outcome, J⟩, hcompile, houtcome⟩ := hrun.exists_eq_ok
  obtain ⟨out, rfl, hentries, hrendered⟩ := houtcome.exists_eq_ok
  obtain ⟨_, hrender, rfl⟩ := hrendered.exists_eq_ok
  exact ⟨out, J, hcompile, hentries, hrender⟩

/-- A check of `y` finds no sibling, since `y` is declared in the other clause; a check of `w` asks
to announce the declaration in the list of its clause. -/
theorem checkHoist_outcome_in_clause :
    SyntaxTree.callInClause.Spelled .ofCallInClause ∧ SyntaxTree.callInClause.Shaped ∧
    ∃ B J, bind .callInClause .ofCallInClause defaultGlobals = .ok (B, J) ∧
      (∀ s, (HoistState.empty : HoistState 21).isHoisted s = none) ∧
      (∃ s, B.symbols.reference? 4 = some s ∧
        (HoistState.empty.checkHoist .callInClause B.symbols.model 4 s).1 = .noSibling) ∧
      ∃ s, B.symbols.reference? 2 = some s ∧
        (HoistState.empty.checkHoist .callInClause B.symbols.model 2 s).1 = .hoisted 6 ∧
        ∃ a p D S, B.DeclaredThrough .callInClause s a p D ∧
          S ∈ SyntaxTree.callInClause.statements p ∧ S ∈ SyntaxTree.callInClause.ancestors 2 := by
  obtain ⟨⟨B, J⟩, hbind, hreferences⟩ := bind_callInClause.exists_eq_ok
  injection hreferences with _ hreferences
  injection hreferences with hy hw
  have hempty : ∀ s, (HoistState.empty : HoistState 21).isHoisted s = none := by
    intro s
    rfl
  refine ⟨spelled_callInClause, shaped_callInClause, B, J, hbind, hempty, ?_, ?_⟩
  · obtain ⟨s, hs, hsymbol⟩ := Option.bind_eq_some_iff.1 hy
    obtain ⟨_, _, hsibling, _⟩ :=
      checkHoist_outcome spelled_callInClause shaped_callInClause hbind hs (hempty s) rfl
    refine ⟨s, hs, hsibling.2 ⟨17, ⟨Or.inr rfl, 16, by decide, ?_⟩, by decide +kernel⟩⟩
    exact ⟨⟨⟨4⟩, .variable, 14⟩, by decide +kernel, hsymbol⟩
  · obtain ⟨s, hs, hplacement⟩ := Option.map_eq_some_iff.1 hw
    have houtcome := (HoistState.fst_checkHoist (hempty s)).trans hplacement
    obtain ⟨_, _, _, hrest⟩ :=
      checkHoist_outcome spelled_callInClause shaped_callInClause hbind hs (hempty s) houtcome
    obtain ⟨a, p, D, S, hdeclared, _, hS, hancestor, _⟩ := hrest (by simp) (by simp)
    exact ⟨s, hs, houtcome, a, p, D, S, hdeclared, hS, hancestor⟩

end Predeclare
