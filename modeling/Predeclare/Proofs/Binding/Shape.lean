import Predeclare.Proofs.Binding.Scoping
import Predeclare.Tree.Locate

set_option relaxedAutoImplicit false
set_option autoImplicit false

/-!
# The shape of real programs

A tree may put any node anywhere. In the trees of real programs statement lists hold statements,
switches hold clauses, variable statements hold lists of declarators, and patterns hold elements. In
such a tree the search for the statement of a declaration finds the statement that declares, and
every statement list belongs to one scope, which declares what the list declares.

## Main definitions

* `SyntaxTree.Shaped` — the shape of a tree.
* `SyntaxTree.OwnsList` — the scope that a statement list belongs to.

## Main results

* `SyntaxTree.Shaped.declarationStatement_eq` — the statement of a declaration is the one that
  makes it.
* `SyntaxTree.Shaped.exists_ownsList` — every statement list belongs to a scope.
* `SyntaxTree.mem_scopeDeclarations_of_ownsList` — this scope declares what the list declares.
* `SyntaxTree.mem_scopeDeclarations_cases` — how a scope can declare a name.
* `SyntaxTree.mem_above_of_declarationStatement` — the statement of a declaration lies in its scope.
-/

namespace Predeclare

namespace SyntaxTree

variable {n : Nat} (t : SyntaxTree n)

/-- The clauses of a switch. -/
def IsClause (i : Fin n) : Prop := t.kind i = .caseClause ∨ t.kind i = .defaultClause

instance (i : Fin n) : Decidable (t.IsClause i) :=
  inferInstanceAs (Decidable (t.kind i = .caseClause ∨ t.kind i = .defaultClause))

/-- The statement list of `p` belongs to the scope of `a`: it is the list of `a` itself, or that of
a clause of the case block `a`. -/
def OwnsList (a p : Fin n) : Prop :=
  t.introducesScope a = true ∧ (p = a ∨ t.parent p = some a ∧ t.kind a = .caseBlock)

/-- **The shape of real programs.** Nodes that the root does not lead to may have any shape. -/
structure Shaped : Prop where
  /-- Statement lists hold statements. -/
  isStatement : ∀ p, t.Reachable p → ∀ i ∈ t.statements p, (t.kind i).isStatement = true
  /-- Case blocks hold clauses. -/
  clauses : ∀ p, t.Reachable p → t.kind p = .caseBlock → ∀ c ∈ t.children p, t.IsClause c
  /-- Clauses stand in case blocks. -/
  caseBlock : ∀ p, t.Reachable p → ∀ c ∈ t.children p, t.IsClause c → t.kind p = .caseBlock
  /-- Variable statements hold lists of declarators. -/
  declarators : ∀ i, t.Reachable i → t.kind i = .variableStatement →
    ∀ l ∈ t.children i, t.kind l = .variableDeclarationList ∧
      ∀ v ∈ t.children l, t.kind v = .variableDeclaration
  /-- Patterns hold elements. -/
  elements : ∀ i, t.Reachable i →
    t.kind i = .objectBindingPattern ∨ t.kind i = .arrayBindingPattern →
    ∀ e ∈ t.children i, t.kind e = .bindingElement

variable {t}

/-- Statements are children of the node that owns their list. -/
lemma parent_of_mem_statements {p i : Fin n} (h : i ∈ t.statements p) : t.parent i = some p :=
  mem_children_iff.1 ((statements_sublist_children p).subset h)

/-- The owner of a list of statements lies above all that lies in one of them. -/
lemma mem_ancestors_of_mem_statements {p S i : Fin n} (hS : S ∈ t.statements p)
    (hi : S ∈ t.ancestors i) : p ∈ t.ancestors i :=
  mem_ancestors_trans (parent_mem_ancestors (parent_of_mem_statements hS)) hi

/-- Nodes with statements are block-like. -/
lemma isBlockLike_of_mem_statements {p i : Fin n} (h : i ∈ t.statements p) :
    t.isBlockLike p = true := by
  simp only [statements] at h
  split at h
  · rename_i hkind
    simp [isBlockLike, hkind, SyntaxKind.isBlockLike]
  · split at h
    · assumption
    · exact absurd h List.not_mem_nil

/-! ## The statement of a declaration -/

/-- A search for a statement goes on at the parent. -/
lemma find?_ancestors_of_parent {i p : Fin n} (h : t.parent i = some p)
    (hi : t.endsStatementSearch i = false) :
    (t.ancestors i).find? t.endsStatementSearch = (t.ancestors p).find? t.endsStatementSearch := by
  rw [ancestors_eq_cons_above, List.find?_cons, hi, above_of_parent h]

/-- A search for a statement ends at a statement. -/
lemma find?_ancestors_of_isStatement {i : Fin n} (h : (t.kind i).isStatement = true) :
    (t.ancestors i).find? t.endsStatementSearch = some i := by
  have hi : t.endsStatementSearch i = true := by simp [endsStatementSearch, h]
  rw [ancestors_eq_cons_above, List.find?_cons, hi]

/-- A search for a statement does not go past the nodes at which it may end.

**Proof sketch.** Induction from the root downwards: the search ends at the node itself, or it goes
on from the parent. -/
lemma mem_ancestors_of_find {v D S : Fin n}
    (hfind : (t.ancestors v).find? t.endsStatementSearch = some D) (hS : S ∈ t.ancestors v)
    (hend : t.endsStatementSearch S = true) : S ∈ t.ancestors D := by
  induction v using upwards_induction (t := t) with
  | top v hv =>
    rw [ancestors_eq_cons_above, above_of_no_parent hv, List.mem_singleton] at hS
    subst hS
    rw [ancestors_eq_cons_above, List.find?_cons, hend] at hfind
    obtain rfl := Option.some.inj hfind
    exact self_mem_ancestors S
  | step v p hp ih =>
    by_cases hv : t.endsStatementSearch v = true
    · rw [ancestors_eq_cons_above, List.find?_cons, hv] at hfind
      obtain rfl := Option.some.inj hfind
      exact hS
    · rw [find?_ancestors_of_parent hp (by simpa using hv)] at hfind
      rcases mem_ancestors_iff.1 hS with rfl | ⟨q, hq, hmem⟩
      · exact absurd hend hv
      · obtain rfl : p = q := Option.some.inj (hp.symm.trans hq)
        exact ih hfind hmem

/-- The statement of a declaration is found by the search. -/
lemma find?_of_declarationStatement {v D : Fin n} (h : t.declarationStatement v = some D) :
    t.kind v ≠ .functionExpression ∧
      (t.ancestors v).find? t.endsStatementSearch = some D := by
  simp only [declarationStatement] at h
  split at h
  · cases h
  · rename_i hkind
    exact ⟨hkind, (Option.filter_eq_some_iff.1 h).1⟩

/-- What a pattern declares are variables that lie in it.

**Proof sketch.** Elements of a pattern, of either kind, are children of it that have a name; a node
of another kind declares nothing as a pattern. -/
lemma of_mem_patternDeclarations {q : Fin n} {d : Declaration n}
    (hd : d ∈ t.patternDeclarations q) : q ∈ t.ancestors d.node ∧ d.kind = .variable := by
  have helement : d ∈ (t.children q).filterMap (t.namedDeclaration .variable) →
      q ∈ t.ancestors d.node ∧ d.kind = .variable := by
    intro hd
    obtain ⟨c, hc, hd⟩ := List.mem_filterMap.1 hd
    obtain ⟨rfl, hkind, _⟩ := of_namedDeclaration hd
    exact ⟨parent_mem_ancestors (mem_children_iff.1 hc), hkind⟩
  simp only [patternDeclarations] at hd
  split at hd
  · exact helement hd
  · exact helement hd
  · exact absurd hd List.not_mem_nil

/-- What a declarator declares are variables that lie in it.

**Proof sketch.** The declarator declares its own name, or the pattern that is its first child
declares its elements. -/
lemma of_mem_declaratorDeclarations {v : Fin n} {d : Declaration n}
    (hd : d ∈ t.declaratorDeclarations v) : v ∈ t.ancestors d.node ∧ d.kind = .variable := by
  simp only [declaratorDeclarations] at hd
  split at hd
  · rename_i d' hd'
    obtain rfl := List.mem_singleton.1 hd
    obtain ⟨rfl, hkind, _⟩ := of_namedDeclaration hd'
    exact ⟨self_mem_ancestors _, hkind⟩
  · split at hd
    · exact absurd hd List.not_mem_nil
    · rename_i q rest hchildren
      have hq : q ∈ t.children v := by
        rw [hchildren]
        exact List.mem_cons_self
      obtain ⟨hnode, hkind⟩ := of_mem_patternDeclarations hd
      exact ⟨mem_ancestors_trans (parent_mem_ancestors (mem_children_iff.1 hq)) hnode, hkind⟩

/-- What a statement declares lies in it, and is no global and no parameter.

**Proof sketch.** One case for each kind of statement that declares. A variable statement declares
through its declarators, the others by their own name. -/
lemma of_mem_statementDeclarations {D : Fin n} {d : Declaration n}
    (hd : d ∈ t.statementDeclarations D) :
    D ∈ t.ancestors d.node ∧ (t.kind D).isStatement = true ∧
      d.kind ≠ .global ∧ d.kind ≠ .undefined ∧ d.kind ≠ .parameter := by
  have hself : ∀ {kind}, d ∈ (t.namedDeclaration kind D).toList →
      D ∈ t.ancestors d.node ∧ d.kind = kind := by
    intro kind hd
    obtain ⟨rfl, hkind, _⟩ := of_namedDeclaration (Option.mem_toList.1 hd)
    exact ⟨self_mem_ancestors _, hkind⟩
  simp only [statementDeclarations] at hd
  split at hd
  · rename_i hkind
    obtain ⟨l, hl, hd⟩ := List.mem_flatMap.1 hd
    obtain ⟨v, hv, hd⟩ := List.mem_flatMap.1 hd
    obtain ⟨hnode, hvariable⟩ := of_mem_declaratorDeclarations hd
    have hl := parent_mem_ancestors (mem_children_iff.1 hl)
    have hv := parent_mem_ancestors (mem_children_iff.1 hv)
    refine ⟨mem_ancestors_trans (mem_ancestors_trans hl hv) hnode, ?_⟩
    simp [hkind, hvariable, SyntaxKind.isStatement]
  · rename_i hkind
    simp [hself hd, hkind, SyntaxKind.isStatement]
  · rename_i hkind
    simp [hself hd, hkind, SyntaxKind.isStatement]
  · rename_i hkind
    simp [hself hd, hkind, SyntaxKind.isStatement]
  · exact absurd hd List.not_mem_nil

/-- Statements are no parameters and no function expressions. -/
lemma declarationStatement_of_find {v S : Fin n} (hv : t.kind v ≠ .functionExpression)
    (hS : (t.kind S).isStatement = true)
    (hfind : (t.ancestors v).find? t.endsStatementSearch = some S) :
    t.declarationStatement v = some S := by
  have hkind : t.kind S ≠ .parameter := by
    intro h
    rw [h] at hS
    cases hS
  unfold declarationStatement
  rw [if_neg hv, hfind]
  simp [hkind]

/-- The nodes that a pattern declares names by are its elements. -/
lemma Shaped.element_of_mem_patternDeclarations (h : t.Shaped) {q : Fin n} (hq : t.Reachable q)
    {d : Declaration n} (hd : d ∈ t.patternDeclarations q) :
    d.node ∈ t.children q ∧ t.kind d.node = .bindingElement ∧
      (t.kind q = .objectBindingPattern ∨ t.kind q = .arrayBindingPattern) := by
  have hnode : ∀ c, t.namedDeclaration .variable c = some d → d.node = c := by
    intro c hc
    obtain ⟨_, _, rfl⟩ := namedDeclaration_eq_some_iff.1 hc
    rfl
  have hmem : ∃ c ∈ t.children q, d.node = c ∧
      (t.kind q = .objectBindingPattern ∨ t.kind q = .arrayBindingPattern) := by
    unfold patternDeclarations at hd
    split at hd
    · rename_i hkind
      obtain ⟨c, hc, hdc⟩ := List.mem_filterMap.1 hd
      exact ⟨c, hc, hnode c hdc, Or.inl hkind⟩
    · rename_i hkind
      obtain ⟨c, hc, hdc⟩ := List.mem_filterMap.1 hd
      exact ⟨c, hc, hnode c hdc, Or.inr hkind⟩
    · exact absurd hd List.not_mem_nil
  obtain ⟨c, hc, rfl, hkind⟩ := hmem
  exact ⟨hc, h.elements q hq hkind _ hc, hkind⟩

/-- What a variable statement declares lies in it, with no other statement between.

**Proof sketch.** From the declaring node upwards lie an element, a pattern, a declarator and a list
of declarators, some of them left out. The search ends at none of these kinds. -/
lemma Shaped.find?_of_mem_declaratorDeclarations (h : t.Shaped) {S l v : Fin n}
    (hS : t.Reachable S) (hkind : t.kind S = .variableStatement) (hl : l ∈ t.children S)
    (hv : v ∈ t.children l) {d : Declaration n} (hd : d ∈ t.declaratorDeclarations v) :
    t.kind d.node ≠ .functionExpression ∧
      (t.ancestors d.node).find? t.endsStatementSearch = some S := by
  obtain ⟨hlist, hdeclarators⟩ := h.declarators S hS hkind l hl
  have hdeclarator := hdeclarators v hv
  have hfind : (t.ancestors v).find? t.endsStatementSearch = some S := by
    rw [find?_ancestors_of_parent (mem_children_iff.1 hv)
        (by simp [endsStatementSearch, hdeclarator, SyntaxKind.isStatement]),
      find?_ancestors_of_parent (mem_children_iff.1 hl)
        (by simp [endsStatementSearch, hlist, SyntaxKind.isStatement])]
    exact find?_ancestors_of_isStatement (by rw [hkind]; rfl)
  unfold declaratorDeclarations at hd
  split at hd
  · rename_i d' hd'
    obtain rfl := List.mem_singleton.1 hd
    obtain ⟨_, _, rfl⟩ := namedDeclaration_eq_some_iff.1 hd'
    exact ⟨by simp [hdeclarator], hfind⟩
  · split at hd
    · exact absurd hd List.not_mem_nil
    · rename_i q rest hchildren
      have hq : q ∈ t.children v := by
        rw [hchildren]
        exact List.mem_cons_self
      have hreach : t.Reachable q := ((hS.child hl).child hv).child hq
      obtain ⟨hnode, helement, hpattern⟩ := h.element_of_mem_patternDeclarations hreach hd
      refine ⟨by simp [helement], ?_⟩
      rw [find?_ancestors_of_parent (mem_children_iff.1 hnode)
          (by simp [endsStatementSearch, helement, SyntaxKind.isStatement]),
        find?_ancestors_of_parent (mem_children_iff.1 hq)
          (by
            rcases hpattern with hp | hp <;>
              simp [endsStatementSearch, hp, SyntaxKind.isStatement])]
      exact hfind

/-- **The statement of a declaration** is the one that makes it.

**Proof sketch.** For a variable statement the search passes over what lies in it. The other
statements are found at once, since they declare themselves. -/
theorem Shaped.declarationStatement_eq (h : t.Shaped) {p S : Fin n} (hp : t.Reachable p)
    (hS : S ∈ t.statements p) {d : Declaration n} (hd : d ∈ t.statementDeclarations S) :
    t.declarationStatement d.node = some S := by
  have hstatement := h.isStatement p hp S hS
  have hreach := hp.child ((statements_sublist_children p).subset hS)
  have hself : ∀ kind, t.namedDeclaration kind S = some d → t.kind S ≠ .functionExpression →
      t.declarationStatement d.node = some S := by
    intro kind hd hkind
    obtain ⟨_, _, rfl⟩ := namedDeclaration_eq_some_iff.1 hd
    exact declarationStatement_of_find hkind hstatement (find?_ancestors_of_isStatement hstatement)
  unfold statementDeclarations at hd
  split at hd
  · rename_i hkind
    obtain ⟨l, hl, hd⟩ := List.mem_flatMap.1 hd
    obtain ⟨v, hv, hd⟩ := List.mem_flatMap.1 hd
    obtain ⟨hnode, hfind⟩ := h.find?_of_mem_declaratorDeclarations hreach hkind hl hv hd
    exact declarationStatement_of_find hnode hstatement hfind
  · rename_i hkind
    exact hself _ (Option.mem_toList.1 hd) (by simp [hkind])
  · rename_i hkind
    exact hself _ (Option.mem_toList.1 hd) (by simp [hkind])
  · rename_i hkind
    exact hself _ (Option.mem_toList.1 hd) (by simp [hkind])
  · exact absurd hd List.not_mem_nil

/-- A function declares its name, if it is an expression, and its parameters.

**Proof sketch.** The name is declared by the node itself, and only if it is a function expression.
A parameter is declared by a child, which has the kind of a parameter. -/
lemma of_mem_functionDeclarations {p : Fin n} {d : Declaration n}
    (hd : d ∈ t.selfDeclarations p ++ t.parameterDeclarations p) :
    p ∈ t.ancestors d.node ∧
      (t.kind d.node = .functionExpression ∨ t.kind d.node = .parameter ∧ d.kind = .parameter) := by
  rcases List.mem_append.1 hd with hd | hd
  · simp only [selfDeclarations] at hd
    split at hd
    · rename_i hkind
      obtain ⟨rfl, _⟩ := of_namedDeclaration (Option.mem_toList.1 hd)
      exact ⟨self_mem_ancestors _, Or.inl hkind⟩
    · exact absurd hd List.not_mem_nil
  · obtain ⟨c, hc, hd⟩ := List.mem_filterMap.1 hd
    obtain ⟨hchild, hparameter⟩ := List.mem_filter.1 hc
    obtain ⟨rfl, hkind, _⟩ := of_namedDeclaration hd
    exact ⟨parent_mem_ancestors (mem_children_iff.1 hchild),
      Or.inr ⟨by simpa using hparameter, hkind⟩⟩

/-- The own name and the parameters of a function belong to no statement. -/
lemma declarationStatement_of_function {p : Fin n} {d : Declaration n}
    (hd : d ∈ t.selfDeclarations p ++ t.parameterDeclarations p) :
    t.declarationStatement d.node = none := by
  unfold declarationStatement
  rcases (of_mem_functionDeclarations hd).2 with hkind | ⟨hkind, _⟩
  · exact if_pos hkind
  · have hend : t.endsStatementSearch d.node = true := by simp [endsStatementSearch, hkind]
    rw [if_neg (by simp [hkind]), ancestors_eq_cons_above, List.find?_cons, hend]
    simp [hkind]

/-! ## The scope of a statement list -/

/-- A statement list lies in its scope. -/
lemma OwnsList.mem_ancestors {a p : Fin n} (h : t.OwnsList a p) : a ∈ t.ancestors p := by
  rcases h.2 with rfl | ⟨hparent, _⟩
  · exact self_mem_ancestors p
  · exact parent_mem_ancestors hparent

/-- A statement list of a reachable scope is reachable. -/
lemma OwnsList.reachable {a p : Fin n} (h : t.OwnsList a p) (ha : t.Reachable a) :
    t.Reachable p := by
  rcases h.2 with rfl | ⟨hparent, _⟩
  · exact ha
  · exact ha.child (mem_children_iff.2 hparent)

/-- Functions introduce a scope for their own name and their parameters. -/
lemma scopeDeclarations_of_function {p : Fin n} (hp : (t.kind p).isFunctionLike = true) :
    t.introducesScope p = true ∧
      t.scopeDeclarations p = t.selfDeclarations p ++ t.parameterDeclarations p := by
  have hscope : t.scopeKind? p = some .function := by
    unfold scopeKind?
    cases hkind : t.kind p with
    | sourceFile | block | moduleBlock | caseBlock => rw [hkind] at hp; cases hp
    | _ =>
      rw [hkind] at hp
      exact if_pos hp
  refine ⟨by simp [introducesScope, hscope], ?_⟩
  unfold scopeDeclarations
  rw [hscope]

/-- Case blocks introduce a scope for the names of all their clauses. -/
lemma scopeDeclarations_of_caseBlock {p : Fin n} (hp : t.kind p = .caseBlock) :
    t.introducesScope p = true ∧
      t.scopeDeclarations p = (t.children p).flatMap t.listDeclarations := by
  have hscope : t.scopeKind? p = some .caseBlock := by
    unfold scopeKind?
    rw [hp]
  refine ⟨by simp [introducesScope, hscope], ?_⟩
  unfold scopeDeclarations
  rw [hscope]

/-- A node with a statement list is a clause, or it introduces the scope of its list.

**Proof sketch.** One case for each kind that has statements. -/
lemma isClause_or_scope {p S : Fin n} (hS : S ∈ t.statements p) :
    t.IsClause p ∨ t.introducesScope p = true ∧ t.kind p ≠ .caseBlock ∧
      (t.kind p).isFunctionLike = false ∧ t.statements p = t.children p ∧
      t.scopeDeclarations p = t.listDeclarations p := by
  unfold IsClause
  cases hkind : t.kind p with
  | caseClause => exact Or.inl (Or.inl rfl)
  | defaultClause => exact Or.inl (Or.inr rfl)
  | sourceFile | block | moduleBlock =>
    right
    simp [introducesScope, scopeDeclarations, scopeKind?, statements, isBlockLike, hkind,
      SyntaxKind.isFunctionLike, SyntaxKind.isBlockLike]
  | _ =>
    unfold statements isBlockLike at hS
    rw [hkind] at hS
    exact absurd hS List.not_mem_nil

/-- Nodes with a statement list are no functions and no case blocks. -/
lemma kind_of_mem_statements {p S : Fin n} (hS : S ∈ t.statements p) :
    (t.kind p).isFunctionLike = false ∧ t.kind p ≠ .caseBlock := by
  rcases isClause_or_scope hS with (hkind | hkind) | ⟨_, hcase, hfunction, _⟩
  · simp [hkind, SyntaxKind.isFunctionLike]
  · simp [hkind, SyntaxKind.isFunctionLike]
  · exact ⟨hfunction, hcase⟩

/-- Clauses have statement lists. -/
lemma IsClause.isBlockLike {c : Fin n} (h : t.IsClause c) : t.isBlockLike c = true := by
  rcases h with hkind | hkind <;> simp [SyntaxTree.isBlockLike, hkind, SyntaxKind.isBlockLike]

/-- Clauses introduce no scope of their own. -/
lemma IsClause.introducesScope {c : Fin n} (h : t.IsClause c) : t.introducesScope c = false := by
  rcases h with hkind | hkind
  · simp [SyntaxTree.introducesScope, scopeKind?, hkind, SyntaxKind.isFunctionLike]
  · simp [SyntaxTree.introducesScope, scopeKind?, hkind, SyntaxKind.isFunctionLike]

/-- A statement list belongs to a scope, which declares what the list declares.

**Proof sketch.** Either the list is the node's own, and since the node introduces a scope it is no
clause but one of the kinds whose scope declares its statements. Or the list is that of a clause of
the case block `a`, whose scope declares the statements of all its clauses. -/
lemma mem_scopeDeclarations_of_ownsList {a p S : Fin n} (h : t.OwnsList a p)
    (hS : S ∈ t.statements p) {d : Declaration n} (hd : d ∈ t.statementDeclarations S) :
    d ∈ t.scopeDeclarations a := by
  obtain ⟨hscope, rfl | ⟨hparent, hkind⟩⟩ := h
  · rcases isClause_or_scope hS with hclause | ⟨_, _, _, _, hdeclarations⟩
    · rw [hclause.introducesScope] at hscope
      cases hscope
    · rw [hdeclarations]
      exact List.mem_flatMap.2 ⟨S, hS, hd⟩
  · rw [(scopeDeclarations_of_caseBlock hkind).2]
    exact List.mem_flatMap.2
      ⟨p, mem_children_iff.2 hparent, List.mem_flatMap.2 ⟨S, hS, hd⟩⟩

/-- **The scope of a statement list** is that of its node or, for a clause, that of the case block
around it. -/
theorem Shaped.exists_ownsList (h : t.Shaped) {p S : Fin n} (hp : t.Reachable p)
    (hS : S ∈ t.statements p) : ∃ a, t.OwnsList a p := by
  rcases isClause_or_scope hS with hclause | ⟨hscope, _⟩
  · have hne : p ≠ t.root := by
      rintro rfl
      rcases hclause with hkind | hkind <;> rw [kind_root] at hkind <;> cases hkind
    obtain ⟨a, ha, hmem⟩ := (mem_ancestors_iff.1 hp).resolve_left (Ne.symm hne)
    have hkind := h.caseBlock a hmem p (mem_children_iff.2 ha) hclause
    exact ⟨a, (scopeDeclarations_of_caseBlock hkind).1, Or.inr ⟨ha, hkind⟩⟩
  · exact ⟨p, hscope, Or.inl rfl⟩

/-- A node inside a scope lies in a statement list that belongs to the scope, or the list is that of
a clause and the node lies outside it. -/
lemma Shaped.exists_mem_statements_or (h : t.Shaped) {a p r D : Fin n} (hr : t.Reachable r)
    (ha : a ∈ t.above r) (howns : t.OwnsList a p) (hD : D ∈ t.statements p) :
    (∃ S ∈ t.ancestors r, S ∈ t.statements p) ∨
      t.IsClause p ∧ ∀ i ∈ t.ancestors r, i ∉ t.statements p := by
  by_cases hmem : ∃ S ∈ t.ancestors r, S ∈ t.statements p
  · exact Or.inl hmem
  · push Not at hmem
    refine Or.inr ⟨?_, hmem⟩
    rcases isClause_or_scope hD with hclause | ⟨_, _, _, hstatements, _⟩
    · exact hclause
    · rcases howns.2 with rfl | ⟨hparent, hkind⟩
      · -- the list is that of the scope itself, and holds all children of the scope
        obtain ⟨i, hi, hparent⟩ := exists_child_of_mem_above ha
        exact absurd (hstatements ▸ mem_children_iff.2 hparent) (hmem i hi)
      · have hreach := hr.ancestor (mem_ancestors_of_mem_above ha)
        exact h.clauses a hreach hkind p (mem_children_iff.2 hparent)

/-- A scope declares a name by a function, or by a statement of a list that belongs to it.

**Proof sketch.** One case for each kind of scope; a case block has the lists of its clauses. -/
lemma mem_scopeDeclarations_cases {a : Fin n} {d : Declaration n}
    (hd : d ∈ t.scopeDeclarations a) :
    ((t.kind a).isFunctionLike = true ∧ d ∈ t.selfDeclarations a ++ t.parameterDeclarations a) ∨
      ∃ p D, t.OwnsList a p ∧ D ∈ t.statements p ∧ d ∈ t.statementDeclarations D := by
  have hlist : ∀ p, d ∈ t.listDeclarations p →
      ∃ D, D ∈ t.statements p ∧ d ∈ t.statementDeclarations D := by
    intro p hp
    obtain ⟨D, hD, hmem⟩ := List.mem_flatMap.1 hp
    exact ⟨D, hD, hmem⟩
  cases hkind : t.kind a with
  | sourceFile | block | moduleBlock =>
    have hdeclarations : t.scopeDeclarations a = t.listDeclarations a := by
      simp [scopeDeclarations, scopeKind?, hkind]
    have hscope : t.introducesScope a = true := by simp [introducesScope, scopeKind?, hkind]
    rw [hdeclarations] at hd
    obtain ⟨D, hD, hmem⟩ := hlist a hd
    exact Or.inr ⟨a, D, ⟨hscope, Or.inl rfl⟩, hD, hmem⟩
  | caseBlock =>
    obtain ⟨hscope, hdeclarations⟩ := scopeDeclarations_of_caseBlock hkind
    rw [hdeclarations] at hd
    obtain ⟨c, hc, hd⟩ := List.mem_flatMap.1 hd
    obtain ⟨D, hD, hmem⟩ := hlist c hd
    exact Or.inr ⟨c, D, ⟨hscope, Or.inr ⟨mem_children_iff.1 hc, hkind⟩⟩, hD, hmem⟩
  | functionDeclaration | methodDeclaration | arrowFunction | functionExpression =>
    have hfunction : (t.kind a).isFunctionLike = true := by rw [hkind]; rfl
    rw [(scopeDeclarations_of_function hfunction).2] at hd
    exact Or.inl ⟨rfl, hd⟩
  | _ =>
    have hno : t.introducesScope a = false := by
      simp [introducesScope, scopeKind?, hkind, SyntaxKind.isFunctionLike]
    rw [scopeDeclarations_eq_nil hno] at hd
    exact absurd hd List.not_mem_nil

/-- What a scope declares lies in it. -/
lemma mem_ancestors_of_mem_scopeDeclarations {a : Fin n} {d : Declaration n}
    (hd : d ∈ t.scopeDeclarations a) : a ∈ t.ancestors d.node := by
  rcases mem_scopeDeclarations_cases hd with ⟨_, hfunction⟩ | ⟨p, D, howns, hD, hmem⟩
  · exact (of_mem_functionDeclarations hfunction).1
  · exact mem_ancestors_trans howns.mem_ancestors
      (mem_ancestors_of_mem_statements hD (of_mem_statementDeclarations hmem).1)

/-- The statement of a declaration lies in the scope that makes it.

**Proof sketch.** The declaring node lies in a statement of a list of the scope. The search for a
statement does not go past this one, so that it ends inside it or at it. -/
lemma mem_above_of_declarationStatement {a D : Fin n} {d : Declaration n}
    (hd : d ∈ t.scopeDeclarations a) (hD : t.declarationStatement d.node = some D) :
    a ∈ t.above D := by
  rcases mem_scopeDeclarations_cases hd with ⟨_, hfunction⟩ | ⟨p, D', howns, hD', hmem⟩
  · rw [declarationStatement_of_function hfunction] at hD
    cases hD
  · obtain ⟨hnode, hstatement, _⟩ := of_mem_statementDeclarations hmem
    -- the search for the statement does not go past the one that declares
    have hfind := (find?_of_declarationStatement hD).2
    have hD'D : D' ∈ t.ancestors D :=
      mem_ancestors_of_find hfind hnode (by simp [endsStatementSearch, hstatement])
    have hp := parent_mem_above hD'D (parent_of_mem_statements hD')
    rcases howns.2 with rfl | ⟨hparent, _⟩
    · exact hp
    · exact parent_mem_above (mem_ancestors_of_mem_above hp) hparent

end SyntaxTree

end Predeclare
