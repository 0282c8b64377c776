import Predeclare.Proofs.Lowering.Early
import Predeclare.Proofs.Lowering.Plan
import Predeclare.Proofs.Lowering.Unit

set_option relaxedAutoImplicit false
set_option autoImplicit false

/-!
# The hoist plan of a unit

The plan is built by one visit after the other, and a visit may be skipped or come too late. What
the visits build is nevertheless determined by the tree and its bindings: for each symbol, the plan
lists the first of its early references, at the statement in which this reference is early.

## Main definitions

* `FirstEarlyIn` — a reference is the first early one of its symbol in a list.
* `HoistState.Reflects` — the state is determined by the list of visited references.

## Main results

* `HoistState.reflects_visit`, `HoistState.reflects_foldl` — one more visit, and a whole run.
* `hoists_first_early` — the plan of a compiled unit.
-/

namespace Predeclare

/-! ## A run over references -/

section Run

variable {n : Nat} {t : SyntaxTree n} {model : SemanticModel (Fin n)}

/-- The reference `r` is early in the statement `S`, and no reference of the list that is early for
the same symbol comes before it. -/
def FirstEarlyIn (t : SyntaxTree n) (model : SemanticModel (Fin n)) (l : List (Fin n)) (r : Fin n)
    (s : SymbolId) (S : Fin n) : Prop :=
  Early t model r s S ∧ ∀ r' ∈ l, ∀ S', Early t model r' s S' → t.position r ≤ t.position r'

/-- The state is determined by the list of visited references. -/
structure HoistState.Reflects (t : SyntaxTree n) (model : SemanticModel (Fin n)) (l : List (Fin n))
    (state : HoistState n) : Prop where
  decided : ∀ s, s ∈ state.decided.keys ↔ ∃ r ∈ l, ∃ S, Early t model r s S
  planned : ∀ S r, r ∈ state.plan.hoistsFor S ↔ r ∈ l ∧ ∃ s, FirstEarlyIn t model l r s S
  sorted : ∀ S, (state.plan.hoistsFor S).Pairwise fun a b => t.position a < t.position b
  nonempty : ∀ e ∈ state.plan.entries, e.2 ≠ []
  firsts : state.plan.firsts.Pairwise fun a b => t.position a < t.position b

/-- A reference behind all others does not change which of the others are first. -/
lemma firstEarlyIn_concat {l : List (Fin n)} {i r S : Fin n} {s : SymbolId}
    (hlast : ∀ j ∈ l, t.position j < t.position i) (hr : r ∈ l) :
    FirstEarlyIn t model (l ++ [i]) r s S ↔ FirstEarlyIn t model l r s S := by
  constructor
  · rintro ⟨hearly, hfirst⟩
    exact ⟨hearly, fun r' hr' => hfirst r' (List.mem_append_left _ hr')⟩
  · rintro ⟨hearly, hfirst⟩
    refine ⟨hearly, fun r' hr' S' hearly' => ?_⟩
    rcases List.mem_append.1 hr' with hr' | hr'
    · exact hfirst r' hr' S' hearly'
    · rw [List.mem_singleton.1 hr']
      exact Nat.le_of_lt (hlast r hr)

/-- A reference behind all others is the first early one of its symbol if none of the others is
early for the symbol. -/
lemma firstEarlyIn_last {l : List (Fin n)} {i S : Fin n} {s : SymbolId}
    (hearly : Early t model i s S) (hnone : ∀ r ∈ l, ∀ S', ¬ Early t model r s S') :
    FirstEarlyIn t model (l ++ [i]) i s S := by
  refine ⟨hearly, fun r hr S' hearly' => ?_⟩
  rcases List.mem_append.1 hr with hr | hr
  · exact absurd hearly' (hnone r hr S')
  · exact Nat.le_of_eq (congrArg t.position (List.mem_singleton.1 hr).symm)

namespace HoistState

variable {l : List (Fin n)} {state : HoistState n} {i : Fin n}

/-- A visit that changes nothing, of a reference that adds nothing.

**Proof sketch.** The new reference is late, or an earlier one with the same symbol was early. In
both cases it decides no symbol and is no first early reference. -/
lemma Reflects.skip (h : Reflects t model l state) (hlast : ∀ j ∈ l, t.position j < t.position i)
    (hlate : ∀ s S, Early t model i s S → ∃ r ∈ l, ∃ S', Early t model r s S') :
    Reflects t model (l ++ [i]) state where
  decided s := by
    rw [h.decided s]
    constructor
    · rintro ⟨r, hr, S, hearly⟩
      exact ⟨r, List.mem_append_left _ hr, S, hearly⟩
    · rintro ⟨r, hr, S, hearly⟩
      rcases List.mem_append.1 hr with hr | hr
      · exact ⟨r, hr, S, hearly⟩
      · obtain rfl := List.mem_singleton.1 hr
        exact hlate s S hearly
  planned S r := by
    rw [h.planned S r]
    constructor
    · rintro ⟨hr, s, hfirst⟩
      exact ⟨List.mem_append_left _ hr, s, (firstEarlyIn_concat hlast hr).2 hfirst⟩
    · rintro ⟨hr, s, hfirst⟩
      rcases List.mem_append.1 hr with hr | hr
      · exact ⟨hr, s, (firstEarlyIn_concat hlast hr).1 hfirst⟩
      · -- the new reference is not the first: another early one was visited before
        obtain rfl := List.mem_singleton.1 hr
        obtain ⟨r', hr', S', hearly'⟩ := hlate s S hfirst.1
        have := hfirst.2 r' (List.mem_append_left _ hr') S' hearly'
        have := hlast r' hr'
        omega
  sorted := h.sorted
  nonempty := h.nonempty
  firsts := h.firsts

/-- A visit that announces a declaration, for the first early reference of its symbol.

**Proof sketch.** The symbol is undecided, so that no visited reference is early for it, and the new
one is the first. Being visited last it comes last at its statement, and if the statement is new, it
comes last among the first references of the statements. -/
lemma Reflects.announce (h : Reflects t model l state)
    (hlast : ∀ j ∈ l, t.position j < t.position i) {s : SymbolId} {S : Fin n}
    (hearly : Early t model i s S) (hnew : s ∉ state.decided.keys) :
    Reflects t model (l ++ [i]) (state.announce S i s) where
  decided s' := by
    simp only [HoistState.announce]
    rw [OrderedMap.keys_insert, if_neg hnew, List.mem_append, h.decided s', List.mem_singleton]
    constructor
    · rintro (⟨r, hr, S', hearly'⟩ | rfl)
      · exact ⟨r, List.mem_append_left _ hr, S', hearly'⟩
      · exact ⟨i, by simp, S, hearly⟩
    · rintro ⟨r, hr, S', hearly'⟩
      rcases List.mem_append.1 hr with hr | hr
      · exact Or.inl ⟨r, hr, S', hearly'⟩
      · obtain rfl := List.mem_singleton.1 hr
        exact Or.inr (hearly'.statement_unique hearly).1
  planned S' r := by
    have hself : FirstEarlyIn t model (l ++ [i]) i s S :=
      firstEarlyIn_last hearly fun r' hr' S'' hearly' =>
        hnew ((h.decided s).2 ⟨r', hr', S'', hearly'⟩)
    simp only [HoistState.announce]
    rw [HoistPlan.mem_hoistsFor_record, h.planned S' r]
    constructor
    · rintro (⟨hr, s', hfirst⟩ | ⟨rfl, rfl⟩)
      · exact ⟨List.mem_append_left _ hr, s', (firstEarlyIn_concat hlast hr).2 hfirst⟩
      · exact ⟨by simp, s, hself⟩
    · rintro ⟨hr, s', hfirst⟩
      rcases List.mem_append.1 hr with hr | hr
      · exact Or.inl ⟨hr, s', (firstEarlyIn_concat hlast hr).1 hfirst⟩
      · -- a reference is early in one statement only, so this is the one of the announcement
        obtain rfl := List.mem_singleton.1 hr
        exact Or.inr ⟨(hfirst.1.statement_unique hearly).2, rfl⟩
  sorted S' := by
    unfold HoistState.announce
    dsimp only
    rw [HoistPlan.hoistsFor_record]
    split
    · refine List.pairwise_append.2 ⟨h.sorted S, List.pairwise_singleton _ i, fun a ha b hb => ?_⟩
      rw [List.mem_singleton.1 hb]
      exact hlast a ((h.planned S a).1 ha).1
    · exact h.sorted S'
  nonempty := HoistPlan.nonempty_record h.nonempty
  firsts := by
    unfold HoistState.announce
    rcases HoistPlan.firsts_record (S := S) (r := i) h.nonempty with heq | heq
    · dsimp only
      rw [heq]
      refine List.pairwise_append.2 ⟨h.firsts, List.pairwise_singleton _ i, fun a ha b hb => ?_⟩
      obtain ⟨S', hS'⟩ := HoistPlan.mem_hoistsFor_of_mem_firsts ha
      rw [List.mem_singleton.1 hb]
      exact hlast a ((h.planned S' a).1 hS').1
    · dsimp only
      rw [heq]
      exact h.firsts

/-- **One more visit**, of a reference behind all visited ones.

**Proof sketch.** The cases of a visit: no symbol, a decided symbol, or a placement. Only the
placement in front of a statement announces something, and `early_iff` says that it is the one of an
early reference. -/
theorem reflects_visit (h : Reflects t model l state)
    (hlast : ∀ j ∈ l, t.position j < t.position i) :
    Reflects t model (l ++ [i]) (state.visit t model i) := by
  simp only [HoistState.visit]
  cases hs : model.symbolAt i with
  | none =>
    refine h.skip hlast fun s S hearly => ?_
    have := (early_iff.1 hearly).1
    rw [hs] at this
    cases this
  | some s =>
    dsimp only
    by_cases hdecided : s ∈ state.decided.keys
    · rw [checkHoist_of_decided (OrderedMap.contains_iff.2 hdecided)]
      refine h.skip hlast fun s' S hearly => ?_
      obtain rfl : s = s' := Option.some.inj (hs.symm.trans (early_iff.1 hearly).1)
      exact (h.decided s).1 hdecided
    · have hcontains : state.decided.contains s = false := by
        simpa [OrderedMap.contains] using hdecided
      rw [checkHoist_of_undecided hcontains]
      cases hplacement : placement t model i s with
      | hoisted S => exact h.announce hlast (early_iff.2 ⟨hs, hplacement⟩) hdecided
      | _ =>
        refine h.skip hlast fun s' S hearly => ?_
        obtain ⟨hs', hplacement'⟩ := early_iff.1 hearly
        obtain rfl : s = s' := Option.some.inj (hs.symm.trans hs')
        rw [hplacement] at hplacement'
        cases hplacement'

/-- **A whole run** over a list of references that is sorted by position.

**Proof sketch.** By induction from the right, as the loop visits the list: the last reference
stands behind all others, which is what `reflects_visit` asks for. -/
theorem reflects_foldl (l : List (Fin n))
    (hsorted : l.Pairwise fun a b => t.position a < t.position b) :
    Reflects t model l (l.foldl (HoistState.visit t model) .empty) := by
  induction l using List.reverseRecOn with
  | nil =>
    refine ⟨fun s => ?_, fun S r => ?_, fun S => List.Pairwise.nil,
      fun e he => absurd he List.not_mem_nil, List.Pairwise.nil⟩
    · simp [HoistState.empty]
    · simp [HoistState.empty, HoistPlan.empty, HoistPlan.hoistsFor]
  | append_singleton l i ih =>
    rw [List.foldl_append, List.foldl_cons, List.foldl_nil]
    obtain ⟨hl, _, hlast⟩ := List.pairwise_append.1 hsorted
    exact reflects_visit (ih hl) fun j hj => hlast j hj i List.mem_cons_self

end HoistState

end Run

/-! ## The plan of a unit -/

variable {n : Nat} {t : SyntaxTree n} {I J : Interner} {E : Enumeration} {options : CompilerOptions}
  {globals : List Name} {B : Binding n} {out : UnitOutput n}

/-- The reference `r` is early in the statement `S`, and no reference that is early for the same
symbol comes before it. -/
def FirstEarly (t : SyntaxTree n) (model : SemanticModel (Fin n)) (r : Fin n) (s : SymbolId)
    (S : Fin n) : Prop :=
  Early t model r s S ∧ ∀ r' S', Early t model r' s S' → t.position r ≤ t.position r'

/-- Early references are identifiers of the unit. -/
lemma Binding.Covers.mem_identifiers_of_early (h : B.Covers t globals (t.surface t.root))
    {r S : Fin n} {s : SymbolId} (hearly : Early t B.symbols.model r s S) : r ∈ t.identifiers := by
  obtain ⟨hsurface, hkind, _⟩ := h.reference?_eq_some_iff.1 hearly.1
  exact SyntaxTree.mem_identifiers_iff.2 ⟨(SyntaxTree.mem_surface_root_iff.1 hsurface).1, hkind⟩

/-- An early reference has a first one of the same symbol. -/
lemma Early.exists_firstEarly {model : SemanticModel (Fin n)} {r S : Fin n} {s : SymbolId}
    (h : Early t model r s S) : ∃ r' S', FirstEarly t model r' s S' := by
  induction hk : t.position r using Nat.strong_induction_on generalizing r S with
  | _ k ih =>
    by_cases hfirst : ∀ r' S', Early t model r' s S' → t.position r ≤ t.position r'
    · exact ⟨r, S, h, hfirst⟩
    · push Not at hfirst
      obtain ⟨r', S', hearly, hlt⟩ := hfirst
      exact ih (t.position r') (by omega) hearly rfl

namespace Compiled

/-- The identifiers of a unit are sorted by position. -/
lemma pairwise_identifiers :
    t.identifiers.Pairwise fun a b => t.position a < t.position b := by
  rw [SyntaxTree.identifiers_eq]
  exact SyntaxTree.pairwise_position List.filter_sublist

/-- The plan of a unit is that of a run over its identifiers. -/
lemma exists_reflects (h : Compiled t J globals B out) :
    ∃ state : HoistState n, state.Reflects t B.symbols.model t.identifiers ∧
      out.hoists = state.plan :=
  ⟨_, HoistState.reflects_foldl t.identifiers pairwise_identifiers, h.hoists⟩

/-- The plan lists the first early reference of each symbol, at its statement. -/
lemma mem_hoistsFor_iff (h : Compiled t J globals B out) {S r : Fin n} :
    r ∈ out.hoists.hoistsFor S ↔ ∃ s, FirstEarly t B.symbols.model r s S := by
  obtain ⟨state, hreflects, hplan⟩ := h.exists_reflects
  rw [hplan, hreflects.planned S r]
  constructor
  · rintro ⟨_, s, hearly, hfirst⟩
    exact ⟨s, hearly, fun r' S' hearly' =>
      hfirst r' (h.covers.mem_identifiers_of_early hearly') S' hearly'⟩
  · rintro ⟨s, hearly, hfirst⟩
    exact ⟨h.covers.mem_identifiers_of_early hearly, s, hearly, fun r' _ => hfirst r'⟩

end Compiled

/-- **The hoist plan of a compiled unit** lists, for each symbol that has an early reference, the
first of these references, at the statement in which it is early, and nothing else. The references
of a statement are in preorder, no statement has an empty list, and the statements come in the
preorder of their first references.

**Proof sketch.** A whole walk over the identifiers keeps `Reflects`, by `reflects_visit` from one
identifier to the next, and the plan is that of the last state. Of two announced references of one
symbol each comes no later than the other, so they are the same. -/
theorem hoists_first_early (hspelled : t.Spelled I)
    (h : compile t I options E = .ok (.ok out, J)) :
    ∃ B, bind t I defaultGlobals E = .ok (B, J) ∧
      (∀ S r, r ∈ out.hoists.hoistsFor S ↔ ∃ s, FirstEarly t B.symbols.model r s S) ∧
      (∀ r s S, Early t B.symbols.model r s S →
        ∃! p : Fin n × Fin n, p.1 ∈ out.hoists.hoistsFor p.2 ∧
          B.symbols.reference? p.1 = some s) ∧
      (∀ S, (out.hoists.hoistsFor S).Pairwise fun a b => t.position a < t.position b) ∧
      (∀ e ∈ out.hoists.entries, e.2 ≠ []) ∧
      out.hoists.firsts.Pairwise fun a b => t.position a < t.position b := by
  obtain ⟨B, globals, hbind, hcompiled⟩ := compiled_of_compile hspelled h
  obtain ⟨state, hreflects, hplan⟩ := hcompiled.exists_reflects
  refine ⟨B, hbind, fun S r => hcompiled.mem_hoistsFor_iff, fun r s S hearly => ?_, ?_⟩
  · obtain ⟨r₀, S₀, hfirst⟩ := hearly.exists_firstEarly
    refine ⟨(r₀, S₀), ⟨hcompiled.mem_hoistsFor_iff.2 ⟨s, hfirst⟩, hfirst.1.1⟩, ?_⟩
    rintro ⟨r', S'⟩ ⟨hr', hs'⟩
    dsimp only at hr' hs'
    obtain ⟨s', hfirst'⟩ := hcompiled.mem_hoistsFor_iff.1 hr'
    obtain rfl : s' = s := Option.some.inj (hfirst'.1.1.symm.trans hs')
    have hposition : t.position r' = t.position r₀ :=
      Nat.le_antisymm (hfirst'.2 r₀ S₀ hfirst.1) (hfirst.2 r' S' hfirst'.1)
    have hreach := SyntaxTree.mem_identifiers_iff.1
      (hcompiled.covers.mem_identifiers_of_early hfirst'.1)
    obtain rfl := SyntaxTree.eq_of_position_eq hreach.1 hposition
    rw [(hfirst'.1.statement_unique hfirst.1).2]
  · rw [hplan]
    exact ⟨hreflects.sorted, hreflects.nonempty, hreflects.firsts⟩

/-- The tree of `x; x; let x;`. -/
def SyntaxTree.twoEarlyReferences : SyntaxTree 8 where
  file := ⟨0⟩
  nodes := #v[
    ⟨.identifier, some 1, [], some ⟨0⟩, ⟨0, 1⟩⟩,
    ⟨.expressionStatement, some 7, [0], none, ⟨0, 1⟩⟩,
    ⟨.identifier, some 3, [], some ⟨0⟩, ⟨2, 3⟩⟩,
    ⟨.expressionStatement, some 7, [2], none, ⟨2, 3⟩⟩,
    ⟨.variableDeclaration, some 5, [], some ⟨0⟩, ⟨4, 5⟩⟩,
    ⟨.variableDeclarationList, some 6, [4], none, ⟨4, 5⟩⟩,
    ⟨.variableStatement, some 7, [5], none, ⟨4, 5⟩⟩,
    ⟨.sourceFile, none, [1, 3, 6], none, ⟨0, 5⟩⟩]
  root := 7
  mem_children_iff_parent := by decide
  nodup_node_children := by decide
  child_lt_parent := by decide
  le_root := by decide
  kind_node_root := by decide

/-- The names of the tree have spellings. -/
lemma spelled_twoEarlyReferences : SyntaxTree.twoEarlyReferences.Spelled .onlyX :=
  SyntaxTree.spelled_of_index_lt (by decide)

/-- The plan of the tree announces `x` in front of the first statement. -/
lemma exists_compile_twoEarlyReferences :
    ∃ out J, compile .twoEarlyReferences .onlyX .default = .ok (.ok out, J) ∧
      out.hoists.entries = [(1, [0])] ∧ out.expression? 2 = some (.identifier "x") := by
  have hrun : EndsIn (fun _ => False)
      (fun r => EndsIn (fun _ => False)
        (fun out => (out.hoists.entries, out.expression? 2) =
          ([(1, [0])], some (.identifier "x"))) r.1)
      (compile .twoEarlyReferences .onlyX .default) := by decide +kernel
  obtain ⟨⟨outcome, J⟩, hcompile, houtcome⟩ := hrun.exists_eq_ok
  obtain ⟨out, rfl, hout⟩ := houtcome.exists_eq_ok
  injection hout with hentries hexpression
  exact ⟨out, J, hcompile, hentries, hexpression⟩

/-- Both references to `x` are early; the first one is in the plan. -/
theorem hoists_first_early_of_two :
    SyntaxTree.twoEarlyReferences.Spelled .onlyX ∧
    ∃ out J, compile .twoEarlyReferences .onlyX .default = .ok (.ok out, J) ∧
      out.hoists.entries = [(1, [0])] ∧
      ∃ B, bind .twoEarlyReferences .onlyX defaultGlobals = .ok (B, J) ∧
        ∃ s, FirstEarly .twoEarlyReferences B.symbols.model 0 s 1 := by
  obtain ⟨out, J, hcompile, hentries, _⟩ := exists_compile_twoEarlyReferences
  obtain ⟨B, hbind, hplan, _⟩ := hoists_first_early spelled_twoEarlyReferences hcompile
  refine ⟨spelled_twoEarlyReferences, out, J, hcompile, hentries, B, hbind, (hplan 1 0).1 ?_⟩
  have hmem : ((1, [0]) : Fin 8 × List (Fin 8)) ∈ out.hoists.entries := by
    rw [hentries]
    exact List.mem_cons_self
  rw [show out.hoists.hoistsFor 1 = [0] from HoistPlan.hoistsFor_of_mem_entries hmem]
  exact List.mem_cons_self

end Predeclare
