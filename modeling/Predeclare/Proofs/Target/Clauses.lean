import Predeclare.Proofs.Lowering.Placement
import Predeclare.Proofs.Target.Preservation

set_option relaxedAutoImplicit false
set_option autoImplicit false

/-!
# References across the clauses of a switch

The clauses of a switch share a scope, so a reference in one clause may be bound to a declaration in
a later one. Each clause has a statement list of its own, though, and declarations are announced
list by list. Inside one clause an early reference is preceded by an announcement, as in any other
list. A reference to a declaration in a later clause is passed over when it is checked, and whatever
is announced for the symbol stands in the later clause, behind the reference.

## Main results

* `clause_announcements` — what is announced for the references in a clause.
-/

namespace Predeclare

variable {n : Nat} {t : SyntaxTree n} {I J : Interner} {E : Enumeration} {options : CompilerOptions}
  {globals : List Name} {B : Binding n} {out : UnitOutput n}

/-- Two clauses of which one comes before the other are not around the same node. -/
lemma SyntaxTree.not_mem_ancestors_of_later {block c c' r : Fin n}
    (hlater : [c, c'].Sublist (t.children block)) (hr : c ∈ t.ancestors r) :
    c' ∉ t.ancestors r := by
  intro hr'
  have hc := mem_children_iff.1 (hlater.subset (List.mem_cons_self))
  have hc' := mem_children_iff.1 (hlater.subset (List.mem_cons_of_mem c List.mem_cons_self))
  obtain rfl := eq_of_parent_of_mem_ancestors hr hr' hc hc'
  have hnodup := (nodup_children block).sublist hlater
  simp at hnodup

/-- A reference to a symbol that its own list declares is early if the declaring statement comes
later, or contains the reference and is no function declaration. -/
lemma Binding.Covers.early_of_declaredBy (h : B.Covers t globals (t.surface t.root))
    (hshape : t.Shaped) {p S D r : Fin n} {s : SymbolId} (hs : B.symbols.reference? r = some s)
    (hS : S ∈ t.statements p) (hSr : S ∈ t.ancestors r) (hD : D ∈ t.statements p)
    (hby : B.symbols.DeclaredBy t s D)
    (horder : t.Before p S D ∨ S = D ∧ t.kind D ≠ .functionDeclaration) :
    Early t B.symbols.model r s S := by
  have hreach := (SyntaxTree.mem_surface_root_iff.1 (h.reference?_eq_some_iff.1 hs).1).1
  have hp := hreach.ancestor (SyntaxTree.mem_ancestors_of_mem_statements hS hSr)
  obtain ⟨v, hv, hvD⟩ :=
    Option.bind_eq_some_iff.1 (h.declarationStatement_of_declaredBy hshape hD hby)
  exact ⟨hs, v, D, p, hv, hvD, SyntaxTree.parent_of_mem_statements hD,
    SyntaxTree.isBlockLike_of_mem_statements hD, hD, hSr, SyntaxTree.parent_of_mem_statements hS,
    hS, hshape.isStatement p hp S hS, horder⟩

namespace Compiled

/-- What is announced for a symbol stands in the list of the statement that declares it.

**Proof sketch.** An announcement is an early reference, which stands in the list that the declaring
statement stands in. That statement is `D` (`declarationStatement_of_declaredBy`). -/
lemma mem_statements_of_announced (h : Compiled t J globals B out) (hshape : t.Shaped)
    {r₀ S₀ D p : Fin n} {s : SymbolId} (hr₀ : r₀ ∈ out.hoists.hoistsFor S₀)
    (hs₀ : B.symbols.reference? r₀ = some s) (hD : D ∈ t.statements p)
    (hs : B.symbols.DeclaredBy t s D) : S₀ ∈ t.statements p := by
  obtain ⟨s', ⟨hs', v, D', block, hv, hD', hblock, _, _, _, _, hS₀, _⟩, _⟩ :=
    h.mem_hoistsFor_iff.1 hr₀
  obtain rfl : s' = s := Option.some.inj (hs'.symm.trans hs₀)
  have hstatement := h.covers.declarationStatement_of_declaredBy hshape hD hs
  have hvalue : B.symbols.valueDeclaration s' = some v := hv
  rw [hvalue, Option.bind_some, hD'] at hstatement
  obtain rfl := Option.some.inj hstatement
  obtain rfl := Option.some.inj (hblock.symm.trans (SyntaxTree.parent_of_mem_statements hD))
  exact hS₀

/-- An early reference is preceded by the announcement of its symbol, in the same list.

**Proof sketch.** `exists_announced` gives an announcement at `S` or at a statement before `S`.
Statements of one list are visited in its order, so in the second case everything below the earlier
one comes first. -/
lemma exists_announcement_before (h : Compiled t J globals B out) {p S r : Fin n} {s : SymbolId}
    (hearly : Early t B.symbols.model r s S) (hS : S ∈ t.statements p) :
    ∃ S₀ ∈ t.statements p, ∃ r₀ ∈ out.hoists.hoistsFor S₀, B.symbols.reference? r₀ = some s ∧
      (S₀ ∈ t.ancestors r ∨ t.position S₀ < t.position r) := by
  obtain ⟨hr, _, name, _, htext, _⟩ := h.covers.reference?_eq_some_iff.1 hearly.1
  obtain ⟨S₀, hS₀, hbefore, r₀, hr₀, _, hs₀⟩ := h.exists_announced hearly htext hS
  refine ⟨S₀, hS₀, r₀, hr₀, hs₀, ?_⟩
  rcases hbefore with hbefore | rfl
  · have hp := SyntaxTree.mem_ancestors_of_mem_statements hS hearly.mem_ancestors
    have hreach := (SyntaxTree.mem_surface_root_iff.1 hr).1.ancestor hp
    exact Or.inr (SyntaxTree.position_lt_of_siblings hreach (hbefore.sublist hS)
      (SyntaxTree.self_mem_ancestors S₀) hearly.mem_ancestors)
  · exact Or.inl hearly.mem_ancestors

end Compiled

/-- **What is announced for the references in a clause.** Let a statement `S` of a clause `c`
contain a reference to a symbol that a statement `D` of a clause of the same switch declares. If `D`
is a later statement of `c`, or `S` itself and no function declaration, then the symbol is announced
at a statement of `c` that contains the reference or precedes it. If `D` belongs to a later clause,
then a check of the reference finds no sibling and changes nothing, and the symbol is announced, if
it is, at statements of that later clause, which neither contain the reference nor precede it.

**Proof sketch.** In the first case the reference is early in its statement, so that the first early
reference of the symbol is announced, in the same list and no later. In the second the declaring
statement is in a list that the reference lies outside of. Announcements of the symbol are made in
that list, and the whole clause comes later in preorder. -/
theorem clause_announcements (hspelled : t.Spelled I) (hshape : t.Shaped)
    (h : compile t I options E = .ok (.ok out, J)) :
    ∃ B, bind t I defaultGlobals E = .ok (B, J) ∧
      ∀ block c c' S D r s, t.kind block = .caseBlock → c ∈ t.children block →
        c' ∈ t.children block → S ∈ t.statements c → S ∈ t.ancestors r →
        B.symbols.reference? r = some s → D ∈ t.statements c' → B.symbols.DeclaredBy t s D →
        (c = c' → t.Before c S D ∨ S = D ∧ t.kind D ≠ .functionDeclaration →
          ∃ S₀ ∈ t.statements c, ∃ r₀ ∈ out.hoists.hoistsFor S₀,
            B.symbols.reference? r₀ = some s ∧
              (S₀ ∈ t.ancestors r ∨ t.position S₀ < t.position r)) ∧
        ([c, c'].Sublist (t.children block) →
          (∀ state : HoistState n, state.isHoisted s = none →
            state.checkHoist t B.symbols.model r s = (.noSibling, state)) ∧
          ∀ S₀, ∀ r₀ ∈ out.hoists.hoistsFor S₀, B.symbols.reference? r₀ = some s →
            S₀ ∈ t.statements c' ∧ S₀ ∉ t.ancestors r ∧ t.position r < t.position S₀) := by
  obtain ⟨B, globals, hbind, hcompiled⟩ := compiled_of_compile hspelled h
  refine ⟨B, hbind, ?_⟩
  intro block c c' S D r s _ hc hc' hS hSr hs hD hby
  have hcr : c ∈ t.ancestors r := SyntaxTree.mem_ancestors_of_mem_statements hS hSr
  have hr : t.Reachable r :=
    (SyntaxTree.mem_surface_root_iff.1 (hcompiled.covers.reference?_eq_some_iff.1 hs).1).1
  constructor
  · rintro rfl horder
    have hearly := hcompiled.covers.early_of_declaredBy hshape hs hS hSr hD hby horder
    exact hcompiled.exists_announcement_before hearly hS
  · intro hlater
    have hcr' := SyntaxTree.not_mem_ancestors_of_later hlater hcr
    have houtside : ∀ i ∈ t.ancestors r, i ∉ t.statements c' := by
      intro i hi hi'
      exact hcr' (SyntaxTree.mem_ancestors_of_mem_statements hi' hi)
    constructor
    · intro state hstate
      exact HoistState.checkHoist_of_outside hstate
        (hcompiled.covers.declarationStatement_of_declaredBy hshape hD hby)
        (SyntaxTree.parent_of_mem_statements hD) (SyntaxTree.isBlockLike_of_mem_statements hD)
        houtside
    · intro S₀ r₀ hr₀ hs₀
      have hS₀ := hcompiled.mem_statements_of_announced hshape hr₀ hs₀ hD hby
      refine ⟨hS₀, fun hmem => houtside S₀ hmem hS₀, ?_⟩
      have hblock : block ∈ t.ancestors r := SyntaxTree.mem_ancestors_trans
        (SyntaxTree.parent_mem_ancestors (SyntaxTree.mem_children_iff.1 hc)) hcr
      exact SyntaxTree.position_lt_of_siblings (hr.ancestor hblock) hlater hcr
        (SyntaxTree.mem_ancestors_of_mem_statements hS₀ (SyntaxTree.self_mem_ancestors S₀))

/-- The reference `w` is preceded by an announcement of its symbol. Whatever is announced for the
symbol of `y`, which the other clause declares, stands behind the reference `y`. -/
theorem clause_announcements_of_call :
    SyntaxTree.callInClause.Spelled .ofCallInClause ∧ SyntaxTree.callInClause.Shaped ∧
    ∃ out B J, compile .callInClause .ofCallInClause .default = .ok (.ok out, J) ∧
      bind .callInClause .ofCallInClause defaultGlobals = .ok (B, J) ∧
      (∃ s, B.symbols.reference? 2 = some s ∧
        ∃ S₀ ∈ SyntaxTree.callInClause.statements 13, ∃ r₀ ∈ out.hoists.hoistsFor S₀,
          B.symbols.reference? r₀ = some s) ∧
      ∃ s, B.symbols.reference? 4 = some s ∧
        ∀ S₀, ∀ r₀ ∈ out.hoists.hoistsFor S₀, B.symbols.reference? r₀ = some s →
          SyntaxTree.callInClause.position 4 < SyntaxTree.callInClause.position S₀ := by
  obtain ⟨out, J, hcompile, _⟩ := exists_compile_callInClause
  obtain ⟨B, hbind, hclauses⟩ :=
    clause_announcements spelled_callInClause shaped_callInClause hcompile
  injection bind_callInClause.of_ok hbind with hw hrest
  injection hrest with hy _
  obtain ⟨w, hsw, hw⟩ := Option.bind_eq_some_iff.1 hw
  obtain ⟨y, hsy, hy⟩ := Option.bind_eq_some_iff.1 hy
  have hdeclaresw : B.symbols.DeclaredBy .callInClause w 9 :=
    ⟨⟨⟨2⟩, .variable, 7⟩, by decide +kernel, hw⟩
  have hdeclaresy : B.symbols.DeclaredBy .callInClause y 16 :=
    ⟨⟨⟨4⟩, .variable, 14⟩, by decide +kernel, hy⟩
  refine ⟨spelled_callInClause, shaped_callInClause, out, B, J, hcompile, hbind, ⟨w, hsw, ?_⟩,
    y, hsy, ?_⟩
  · obtain ⟨S₀, hS₀, r₀, hr₀, hs₀, _⟩ :=
      (hclauses 18 13 13 6 9 2 w rfl (by decide) (by decide) (by decide) (by decide +kernel) hsw
        (by decide) hdeclaresw).1 rfl (Or.inl (by decide))
    exact ⟨S₀, hS₀, r₀, hr₀, hs₀⟩
  · intro S₀ r₀ hr₀ hs₀
    obtain ⟨_, hannounced⟩ :=
      (hclauses 18 13 17 6 16 4 y rfl (by decide) (by decide) (by decide) (by decide +kernel) hsy
        (by decide) hdeclaresy).2 (by decide)
    exact (hannounced S₀ r₀ hr₀ hs₀).2.2

/-- In `switch (print) { case 1: y; default: let y; }` the reference `y` in the first clause is
bound to the symbol that a statement of the second clause declares, but the symbol is not announced
at any statement that contains the reference or precedes it. -/
theorem announcement_fails_across_clauses :
    SyntaxTree.acrossClauses.Shaped ∧ SyntaxTree.acrossClauses.kind 9 = .caseBlock ∧
    [4, 8].Sublist (SyntaxTree.acrossClauses.children 9) ∧
    3 ∈ SyntaxTree.acrossClauses.statements 4 ∧ 3 ∈ SyntaxTree.acrossClauses.ancestors 2 ∧
    7 ∈ SyntaxTree.acrossClauses.statements 8 ∧ ∃ out B J s,
      compile .acrossClauses .ofAcrossClauses .default = .ok (.ok out, J) ∧
      bind .acrossClauses .ofAcrossClauses defaultGlobals = .ok (B, J) ∧
      B.symbols.reference? 2 = some s ∧ B.symbols.DeclaredBy .acrossClauses s 7 ∧
      ¬ ∃ S, ∃ r ∈ out.hoists.hoistsFor S, B.symbols.reference? r = some s ∧
        (S ∈ SyntaxTree.acrossClauses.ancestors 2 ∨
          SyntaxTree.acrossClauses.position S < SyntaxTree.acrossClauses.position 2) := by
  have hspelled : SyntaxTree.acrossClauses.Spelled .ofAcrossClauses :=
    SyntaxTree.spelled_of_index_lt (by decide)
  have hrun : EndsIn (fun _ => False)
      (fun r => EndsIn (fun _ => False) (fun out => out.hoists = .empty) r.1)
      (compile .acrossClauses .ofAcrossClauses .default) := by decide +kernel
  have hbound : EndsIn (fun _ => False)
      (fun r => (r.1.symbols.reference? 2).bind r.1.symbols.symbol? =
        some ⟨⟨2⟩, .variable, some 5⟩)
      (bind .acrossClauses .ofAcrossClauses defaultGlobals) := by decide +kernel
  obtain ⟨⟨outcome, J⟩, hcompile, houtcome⟩ := hrun.exists_eq_ok
  obtain ⟨out, rfl, hhoists⟩ := houtcome.exists_eq_ok
  obtain ⟨B, globals, hbind, _⟩ := compiled_of_compile hspelled hcompile
  obtain ⟨s, hs, hsymbol⟩ := Option.bind_eq_some_iff.1 (hbound.of_ok hbind)
  refine ⟨shaped_acrossClauses, rfl, by decide, by decide, by decide +kernel, by decide, out, B, J,
    s, hcompile, hbind, hs, ⟨⟨⟨2⟩, .variable, 5⟩, by decide +kernel, hsymbol⟩, ?_⟩
  rintro ⟨S, r, hr, _⟩
  rw [hhoists] at hr
  exact absurd hr List.not_mem_nil

end Predeclare
