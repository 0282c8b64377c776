import Predeclare.Proofs.Lowering.Runs

set_option relaxedAutoImplicit false
set_option autoImplicit false

/-!
# The order of lowering

Identifiers are lowered one after the other, and a declaration is announced for the first reference
that asks for it. Nothing else depends on the order: a skipped reference leaves no trace, and what
an identifier is lowered to does not depend on what has been announced. So two runs over the same
identifiers in different orders lower each of them to the same, and announce the same symbols, each
for the first reference of the run that asks for it.

## Main definitions

* `ExpanderTable.IgnoresState` — expanders neither read nor write the hoist state.
* `LowerContext.alone`, `LowerContext.asksFor` — an identifier on its own: what it is lowered to,
  and whether it asks for an announcement.
* `LowerContext.recordedFor` — the references to a symbol that were announced at a statement.
* `HoistState.FirstAsking` — each announced symbol has the first reference that asks for it.

## Main results

* `performAll_lower` — a run over identifiers, split into what is lowered and what is announced.
* `HoistState.firstAsking_foldl` — what a run over identifiers announces.
* `ExpanderTable.ignoresState_expanders` — the expanders of a unit are such.
* `lowering_order_moves_hoists_only` — two runs in different orders.
-/

namespace Predeclare

variable {n : Nat}

/-- The expanders of the table neither read nor write the hoist state. -/
def ExpanderTable.IgnoresState (ctx : LowerContext n) (table : ExpanderTable n) : Prop :=
  ∀ s expander, table.get? s = some expander →
    ∃ f : Fin n → Except Fault Expression, ∀ state i,
      expander ctx state i = (f i).map fun e => (e, state)

/-- The expanders of a unit ignore the hoist state, so the order in which its identifiers are
lowered matters no more than is said below. -/
theorem ExpanderTable.ignoresState_expanders {symbols : SymbolTable (Fin n)} {J : Interner}
    (ctx : LowerContext n) (options : CompilerOptions) :
    (options.expanders symbols J : ExpanderTable n).IgnoresState ctx := by
  intro s expander hget
  rcases (onlyBuiltins_expanders options s expander hget).1 with rfl | rfl
  · refine ⟨fun _ => (Expression.named ctx.options.runtimeLibrary).map (.property · "Promise"),
      fun state _ => ?_⟩
    simp only [Builtin.promise]
    cases Expression.named ctx.options.runtimeLibrary <;> rfl
  · refine ⟨fun _ => .ok (ctx.options.packageVersion.elim .nil .string), fun state _ => ?_⟩
    simp only [Builtin.packageVersion]
    cases ctx.options.packageVersion <;> rfl

namespace LowerContext

variable (ctx : LowerContext n) (table : ExpanderTable n)

/-- What an identifier is lowered to when nothing has been announced. -/
def alone (i : Fin n) : Except Fault (Except LowerError Expression) :=
  (lowerIdentifier ctx table .empty i).map Prod.fst

/-- A symbol whose references are lowered by spelling. -/
def plain (s : SymbolId) : Bool := !ctx.model.isUndefined s && (table.get? s).isNone

/-- What lowering an identifier does to the hoist state if no expander touches it. -/
def visitPlain (state : HoistState n) (i : Fin n) : HoistState n :=
  match ctx.model.symbolAt i with
  | some s => if ctx.plain table s then (ctx.checkHoist state i s).2 else state
  | none => state

/-- The node denotes the symbol, and checking it would announce the symbol if nothing had been
announced before. -/
def asksFor (s : SymbolId) (i : Fin n) : Bool :=
  ctx.model.symbolAt i = some s && (ctx.checkHoist .empty i s).1.statement?.isSome

/-- The references to a symbol that have been announced in front of a statement. -/
def recordedFor (state : HoistState n) (s : SymbolId) (S : Fin n) : List (Fin n) :=
  (state.hoistsFor S).filter fun i => ctx.model.symbolAt i = some s

end LowerContext

variable {ctx : LowerContext n} {table : ExpanderTable n} {state : HoistState n} {s : SymbolId}
  {l l' : List (Fin n)} {i : Fin n}

/-! ## One identifier -/

/-- **Lowering an identifier** gives what it gives on its own, and visits it.

**Proof sketch.** The cases of the lowering. Only an identifier that is lowered by its spelling is
checked, and the check does not enter into what it is lowered to. -/
theorem lowerIdentifier_eq_alone (hignores : table.IgnoresState ctx) (state : HoistState n)
    (i : Fin n) :
    lowerIdentifier ctx table state i =
      (ctx.alone table i).map fun result => (result, ctx.visitPlain table state i) := by
  simp only [LowerContext.alone, LowerContext.visitPlain]
  cases hs : ctx.model.symbolAt i with
  | none =>
    rw [lowerIdentifier_of_no_symbol hs, lowerIdentifier_of_no_symbol hs]
    cases ctx.identifierText i <;> rfl
  | some s =>
    cases hundefined : ctx.model.isUndefined s with
    | true =>
      rw [lowerIdentifier_of_undefined hs hundefined, lowerIdentifier_of_undefined hs hundefined]
      simp [LowerContext.plain, hundefined, Except.map]
    | false =>
      cases hexpander : table.get? s with
      | some expander =>
        obtain ⟨f, hf⟩ := hignores s expander hexpander
        rw [lowerIdentifier_of_expander hs hundefined hexpander,
          lowerIdentifier_of_expander hs hundefined hexpander, hf, hf]
        cases f i <;> simp [LowerContext.plain, hexpander, Except.map]
      | none =>
        rw [lowerIdentifier_of_plain hs hundefined hexpander,
          lowerIdentifier_of_plain hs hundefined hexpander]
        cases ctx.lowerPlain i <;>
          simp [LowerContext.plain, hundefined, hexpander, Except.map]

/-- A check from the empty state asks what the tree says. -/
lemma LowerContext.checkHoist_empty_eq_hoisted_iff {S : Fin n} :
    (ctx.checkHoist .empty i s).1 = .hoisted S ↔
      placement ctx.tree ctx.model i s = .hoisted S := by
  have hempty : (HoistState.empty : HoistState n).decided.contains s = false := rfl
  simp only [checkHoist]
  rw [HoistState.checkHoist_of_undecided hempty]
  cases placement ctx.tree ctx.model i s <;> simp

/-- A reference asks for its own symbol only, if the tree says so. -/
lemma LowerContext.asksFor_iff :
    ctx.asksFor s i = true ↔ ctx.model.symbolAt i = some s ∧
      ∃ S, placement ctx.tree ctx.model i s = .hoisted S := by
  simp only [asksFor, Bool.and_eq_true, decide_eq_true_iff, Option.isSome_iff_exists,
    HoistOutcome.statement?_eq_some_iff, checkHoist_empty_eq_hoisted_iff]

/-! ## What a run announces -/

namespace HoistState

/-- **Each announced symbol has the first reference that asks for it**, among the identifiers `l`,
and there is nothing else in the plan. -/
structure FirstAsking (ctx : LowerContext n) (table : ExpanderTable n) (l : List (Fin n))
    (state : HoistState n) : Prop where
  /-- The decided symbols are those that are lowered by spelling and that a reference asks for. -/
  decided : ∀ s, state.isHoisted s =
    if ctx.plain table s && l.any (ctx.asksFor s) then some true else none
  /-- For a decided symbol the first reference that asks for it is recorded, once, under the
  statement that a check of it from the empty state gives. -/
  recorded : ∀ s, state.isHoisted s = some true → ∃ r S, l.find? (ctx.asksFor s) = some r ∧
    (ctx.checkHoist .empty r s).1 = .hoisted S ∧
    ∀ S', ctx.recordedFor state s S' = if S' = S then [r] else []
  /-- For any other symbol no reference is recorded. -/
  unrecorded : ∀ s, state.isHoisted s = none → ∀ S, ctx.recordedFor state s S = []

/-- Nothing is announced before the first identifier. -/
lemma firstAsking_empty : FirstAsking ctx table [] .empty where
  decided s := by simp [isHoisted, empty]
  recorded s hs := by simp [isHoisted, empty] at hs
  unrecorded _ _ _ := rfl

/-- One more identifier asks for a symbol if one of the earlier ones does, or it does itself. -/
lemma any_concat {p : Fin n → Bool} : (l ++ [i]).any p = (l.any p || p i) := by
  rw [List.any_append, List.any_cons, List.any_nil, Bool.or_false]

/-- A visit that announces nothing: no undecided symbol that is lowered by spelling is asked for.

**Proof sketch.** If nothing has asked for a symbol so far, the new identifier does not ask for it
either, so no decision is due. The first to ask for a decided symbol is still the first. -/
lemma FirstAsking.skip (h : FirstAsking ctx table l state)
    (hi : ∀ s, state.isHoisted s = none → ctx.plain table s = true → ctx.asksFor s i = false) :
    FirstAsking ctx table (l ++ [i]) state where
  decided s := by
    rw [any_concat]
    cases hl : l.any (ctx.asksFor s) with
    | true => rw [h.decided s, hl, Bool.true_or]
    | false =>
      have hnone : state.isHoisted s = none := by simp [h.decided s, hl]
      cases hplain : ctx.plain table s with
      | true => rw [hnone, hi s hnone hplain]; rfl
      | false => rw [hnone]; rfl
  recorded s hs := by
    obtain ⟨r, S, hfind, hrest⟩ := h.recorded s hs
    exact ⟨r, S, by rw [List.find?_append, hfind, Option.some_or], hrest⟩
  unrecorded := h.unrecorded

/-- An announcement records its reference for its own symbol, and nothing for any other. -/
lemma recordedFor_announce (state : HoistState n) (hs : ctx.model.symbolAt i = some s) (S : Fin n)
    (s' : SymbolId) (S' : Fin n) :
    ctx.recordedFor (state.announce S i s) s' S' =
      ctx.recordedFor state s' S' ++ if s' = s ∧ S' = S then [i] else [] := by
  simp only [LowerContext.recordedFor, hoistsFor_announce]
  by_cases hS : S' = S
  · subst hS
    rw [if_pos rfl, List.filter_append, List.filter_singleton]
    simp [hs, eq_comm (a := s)]
  · simp [hS]

/-- An announcement records nothing for another symbol. -/
lemma recordedFor_announce_of_ne (state : HoistState n) (hs : ctx.model.symbolAt i = some s)
    {s' : SymbolId} (hne : s' ≠ s) (S S' : Fin n) :
    ctx.recordedFor (state.announce S i s) s' S' = ctx.recordedFor state s' S' := by
  rw [recordedFor_announce state hs, if_neg fun hand => hne hand.1, List.append_nil]

/-- A visit that announces a symbol, which nothing before has asked for.

**Proof sketch.** The symbol of the identifier is undecided, so nothing has asked for it before;
from now on it is decided and the identifier is the first to ask. For other symbols nothing
changes. -/
lemma FirstAsking.announce (h : FirstAsking ctx table l state) {S : Fin n}
    (hnew : state.isHoisted s = none) (hplain : ctx.plain table s = true)
    (hs : ctx.model.symbolAt i = some s)
    (hS : placement ctx.tree ctx.model i s = .hoisted S) :
    FirstAsking ctx table (l ++ [i]) (state.announce S i s) := by
  have hasks : ctx.asksFor s i = true := LowerContext.asksFor_iff.2 ⟨hs, S, hS⟩
  have hnobody : l.any (ctx.asksFor s) = false := by
    simpa [hnew, hplain] using h.decided s
  refine ⟨fun s' => ?_, fun s' hs' => ?_, fun s' hs' S' => ?_⟩
  · rw [isHoisted_announce, any_concat]
    by_cases hne : s' = s
    · simp [hne, hplain, hasks]
    · have hno : ctx.asksFor s' i = false := by
        simp [LowerContext.asksFor, hs, Ne.symm hne]
      rw [if_neg hne, hno, Bool.or_false]
      exact h.decided s'
  · by_cases hne : s' = s
    · subst hne
      refine ⟨i, S, ?_, LowerContext.checkHoist_empty_eq_hoisted_iff.2 hS, fun S' => ?_⟩
      · rw [List.find?_append, List.find?_eq_none.2 (List.any_eq_false.1 hnobody), Option.none_or,
          List.find?_singleton, if_pos hasks]
      · rw [recordedFor_announce state hs, h.unrecorded s' hnew]
        simp
    · rw [isHoisted_announce, if_neg hne] at hs'
      obtain ⟨r, S₀, hfind, hS₀, hrest⟩ := h.recorded s' hs'
      refine ⟨r, S₀, by rw [List.find?_append, hfind, Option.some_or], hS₀, fun S' => ?_⟩
      rw [recordedFor_announce_of_ne state hs hne]
      exact hrest S'
  · rw [isHoisted_announce] at hs'
    split at hs'
    · cases hs'
    · rename_i hne
      rw [recordedFor_announce_of_ne state hs hne]
      exact h.unrecorded s' hs' S'

/-- **One more identifier.**

**Proof sketch.** The cases of the visit. An identifier asks for no symbol but its own, and then
only if the check finds a statement to announce it at. -/
theorem FirstAsking.visit (h : FirstAsking ctx table l state) (i : Fin n) :
    FirstAsking ctx table (l ++ [i]) (ctx.visitPlain table state i) := by
  simp only [LowerContext.visitPlain]
  cases hs : ctx.model.symbolAt i with
  | none => exact h.skip fun s _ _ => by simp [LowerContext.asksFor, hs]
  | some s =>
    dsimp only
    have honly : ∀ s', ctx.asksFor s' i = true → s' = s := by
      intro s' hasks
      exact Option.some.inj ((LowerContext.asksFor_iff.1 hasks).1.symm.trans hs)
    split
    · rename_i hplain
      simp only [LowerContext.checkHoist]
      rcases checkHoist_cases ctx.tree ctx.model state i s with
        ⟨hold, heq⟩ | ⟨hnew, S, hS, heq⟩ | ⟨_, hskipped, heq⟩
      · rw [heq]
        refine h.skip fun s' hs' _ => Bool.eq_false_iff.2 fun hasks => ?_
        rw [isHoisted, OrderedMap.get?_eq_none_iff, honly s' hasks] at hs'
        exact hs' hold
      · rw [heq]
        exact h.announce (OrderedMap.get?_eq_none_iff.2 hnew) hplain hs hS
      · rw [heq]
        refine h.skip fun s' _ _ => Bool.eq_false_iff.2 fun hasks => ?_
        obtain ⟨_, S, hS⟩ := LowerContext.asksFor_iff.1 hasks
        rw [honly s' hasks] at hS
        exact hskipped S hS
    · rename_i hplain
      refine h.skip fun s' _ hplain' => Bool.eq_false_iff.2 fun hasks => hplain ?_
      rw [← honly s' hasks]
      exact hplain'

/-- **All identifiers.** -/
theorem firstAsking_foldl (ctx : LowerContext n) (table : ExpanderTable n) (l : List (Fin n)) :
    FirstAsking ctx table l (l.foldl (ctx.visitPlain table) .empty) := by
  induction l using List.reverseRecOn with
  | nil => exact firstAsking_empty
  | append_singleton l i ih =>
    rw [List.foldl_append, List.foldl_cons, List.foldl_nil]
    exact ih.visit i

end HoistState

/-! ## Two runs -/

/-- **A run over identifiers**: what they are lowered to on their own, and the announcements.

**Proof sketch.** By induction on the list, for any state. `lowerIdentifier_eq_alone` splits a call
into its result, which does not depend on the state, and the state it leaves. -/
theorem performAll_lower (hignores : table.IgnoresState ctx) (state : HoistState n)
    (l : List (Fin n)) :
    performAll ctx table state (l.map .lower) =
      (l.mapM (ctx.alone table)).map fun results =>
        (results.map .lowered, l.foldl (ctx.visitPlain table) state) := by
  induction l generalizing state with
  | nil => rfl
  | cons i rest ih =>
    simp only [List.map_cons, performAll, HoistCall.perform, List.mapM_cons, List.foldl_cons,
      lowerIdentifier_eq_alone hignores, ih]
    rcases ctx.alone table i with fault | result
    · rfl
    · rcases rest.mapM (ctx.alone table) with fault | results
      · rfl
      · rfl

/-- A run over identifiers that are lowered on their own. -/
lemma performAll_lower_eq_ok (hignores : table.IgnoresState ctx)
    {result : Fin n → Except LowerError Expression}
    (h : ∀ i ∈ l, ctx.alone table i = .ok (result i)) :
    performAll ctx table .empty (l.map .lower) =
      .ok (l.map fun i => .lowered (result i), l.foldl (ctx.visitPlain table) .empty) := by
  rw [performAll_lower hignores, mapM_eq_ok_map h]
  simp [Except.map, Function.comp_def]

/-- A run over identifiers one of which meets a fault on its own. -/
lemma exists_performAll_lower_eq_error (hignores : table.IgnoresState ctx) (hi : i ∈ l)
    {fault : Fault} (h : ctx.alone table i = .error fault) :
    ∃ fault', performAll ctx table .empty (l.map .lower) = .error fault' := by
  rw [performAll_lower hignores]
  cases hl : l.mapM (ctx.alone table) with
  | error fault' => exact ⟨fault', rfl⟩
  | ok results =>
    obtain ⟨result, hresult⟩ := exists_eq_ok_of_mapM_eq_ok hl i hi
    rw [h] at hresult
    cases hresult

/-- **The order of lowering** only matters for which references the declarations are announced. Of
two runs over the same identifiers in different orders, both meet a fault if one of the identifiers
meets a fault on its own. Otherwise each identifier is lowered in both runs to what it is lowered to
on its own, and the same symbols are decided, each for the first reference of the run that asks for
it.

**Proof sketch.** By `lowerIdentifier_eq_alone` a run lowers each identifier as it is lowered on its
own, and faults where one of them does. `firstAsking_foldl` describes the two states, and whether
some identifier asks for a symbol does not depend on the order. -/
theorem lowering_order_moves_hoists_only (hignores : table.IgnoresState ctx) (hperm : l.Perm l') :
    ((∃ i ∈ l, ∃ fault, ctx.alone table i = .error fault) ∧
      (∃ fault, performAll ctx table .empty (l.map .lower) = .error fault) ∧
      ∃ fault, performAll ctx table .empty (l'.map .lower) = .error fault) ∨
    ∃ (result : Fin n → Except LowerError Expression) (state state' : HoistState n),
      (∀ i ∈ l, ctx.alone table i = .ok (result i)) ∧
      performAll ctx table .empty (l.map .lower) =
        .ok (l.map fun i => .lowered (result i), state) ∧
      performAll ctx table .empty (l'.map .lower) =
        .ok (l'.map fun i => .lowered (result i), state') ∧
      (∀ s, state.isHoisted s = state'.isHoisted s) ∧
      state.FirstAsking ctx table l ∧ state'.FirstAsking ctx table l' := by
  by_cases hfault : ∃ i ∈ l, ∃ fault, ctx.alone table i = .error fault
  · obtain ⟨i, hi, fault, hfault⟩ := hfault
    exact Or.inl ⟨⟨i, hi, fault, hfault⟩, exists_performAll_lower_eq_error hignores hi hfault,
      exists_performAll_lower_eq_error hignores (hperm.mem_iff.1 hi) hfault⟩
  · right
    have halone : ∀ i, ∃ result, i ∈ l → ctx.alone table i = .ok result := by
      intro i
      cases hi : ctx.alone table i with
      | ok result => exact ⟨result, fun _ => rfl⟩
      | error fault => exact ⟨.ok .nil, fun hmem => absurd ⟨i, hmem, fault, hi⟩ hfault⟩
    choose result hresult using halone
    have hstate := HoistState.firstAsking_foldl ctx table l
    have hstate' := HoistState.firstAsking_foldl ctx table l'
    refine ⟨result, _, _, hresult, performAll_lower_eq_ok hignores hresult,
      performAll_lower_eq_ok hignores fun i hi => hresult i (hperm.mem_iff.2 hi), fun s => ?_,
      hstate, hstate'⟩
    rw [hstate.decided s, hstate'.decided s, hperm.any_eq]

/-- The references of `x; x; let x;` with one symbol, which is declared behind them, and a symbol
with an expander at the declaration. -/
def LowerContext.oneSymbol : LowerContext 8 where
  tree := .twoEarlyReferences
  interner := .onlyX
  model := .restrict 8
    { symbolAt := fun i => if i = 0 ∨ i = 2 then some ⟨1⟩ else if i = 4 then some ⟨2⟩ else none
      isUndefined := fun s => s = ⟨0⟩
      valueDeclaration := fun s => if s = ⟨1⟩ then some 4 else none }
  options := CompilerOptions.default.toLowerOptions

/-- A table in which one symbol stands for the version of the package. -/
def ExpanderTable.onlyVersion : ExpanderTable 8 :=
  ExpanderTable.empty.register ⟨2⟩ Builtin.packageVersion

/-- In both orders the two references are lowered to `x` and the symbol is decided, but the one
order announces it for the first reference and the other for the second. -/
theorem lowering_order_moves_hoists_only_of_two :
    ExpanderTable.onlyVersion.IgnoresState .oneSymbol ∧
    [0, 4, 2].Perm ([2, 0, 4] : List (Fin 8)) ∧
    ∃ (result : Fin 8 → Except LowerError Expression) (state state' : HoistState 8),
      performAll .oneSymbol .onlyVersion .empty ([0, 4, 2].map .lower) =
        .ok ([0, 4, 2].map fun i => .lowered (result i), state) ∧
      performAll .oneSymbol .onlyVersion .empty ([2, 0, 4].map .lower) =
        .ok ([2, 0, 4].map fun i => .lowered (result i), state') ∧
      state.plan.entries = [(1, [0])] ∧ state'.plan.entries = [(3, [2])] ∧
      ∀ s, state.isHoisted s = state'.isHoisted s := by
  have hignores : ExpanderTable.onlyVersion.IgnoresState .oneSymbol := by
    intro s expander hget
    obtain ⟨_, rfl⟩ : s = ⟨2⟩ ∧ Builtin.packageVersion = expander := by
      simpa [ExpanderTable.onlyVersion, ExpanderTable.get?, ExpanderTable.register,
        ExpanderTable.empty, OrderedMap.get?_insert] using hget
    exact ⟨fun _ => .ok .nil, fun _ _ => rfl⟩
  have hperm : [0, 4, 2].Perm ([2, 0, 4] : List (Fin 8)) := by decide
  have hrun : EndsIn (fun _ => False) (fun r => r.2.plan.entries = [(1, [0])])
      (performAll .oneSymbol .onlyVersion .empty ([0, 4, 2].map .lower)) := by decide +kernel
  have hrun' : EndsIn (fun _ => False) (fun r => r.2.plan.entries = [(3, [2])])
      (performAll .oneSymbol .onlyVersion .empty ([2, 0, 4].map .lower)) := by decide +kernel
  rcases lowering_order_moves_hoists_only hignores hperm with
    ⟨_, ⟨fault, hfault⟩, _⟩ | ⟨result, state, state', _, h, h', hdecided, _⟩
  · exact (hrun.of_error hfault).elim
  · exact ⟨hignores, hperm, result, state, state', h, h', hrun.of_ok h, hrun'.of_ok h', hdecided⟩

end Predeclare
