import Predeclare.Proofs.Lowering.CheckLog
import Predeclare.Proofs.Lowering.FirstEarly

set_option relaxedAutoImplicit false
set_option autoImplicit false

/-!
# The hoist state over whole runs

While a unit is lowered, references are checked directly, by the lowering of identifiers, and by
expanders that check references of their own choice. In whatever order this happens, a run is a log
of checks, and the two parts of the hoist state stay in step with it: a symbol is decided when it is
announced, it is announced once, and every announcement adds one reference to the plan.

## Main definitions

* `HoistCall`, `performAll` — the calls of a run, and a run.
* `ExpanderTable.OnlyChecks` — expanders change the hoist state only by checking references.
* `History` — a run together with the log of its checks.
* `InStep`, `Check.Effect` — the two parts of the state in step with a log, and what one check does.

## Main results

* `exists_history` — every run has a log.
* `announces_once_per_run` — the state and the log are in step at every point of a run.
-/

namespace Predeclare

variable {n : Nat}

/-! ## Runs -/

/-- A call that looks at a reference. -/
inductive HoistCall (n : Nat) where
  /-- Checks a reference to a symbol, whatever the reference denotes. -/
  | check (reference : Fin n) (s : SymbolId)
  /-- Lowers an identifier. -/
  | lower (i : Fin n)
  deriving DecidableEq, Repr

/-- What a call returns. -/
inductive HoistAnswer (n : Nat) where
  | checked (outcome : HoistOutcome n)
  | lowered (result : Except LowerError Expression)

section Runs

variable (ctx : LowerContext n) (table : ExpanderTable n)

/-- Performs one call. -/
def HoistCall.perform (state : HoistState n) :
    HoistCall n → Except Fault (HoistAnswer n × HoistState n)
  | check reference s =>
    let (outcome, state) := ctx.checkHoist state reference s
    .ok (.checked outcome, state)
  | lower i => do
    let (result, state) ← lowerIdentifier ctx table state i
    return (.lowered result, state)

/-- Performs calls one after the other. An identifier that cannot be lowered is an answer like
any other. -/
def performAll (state : HoistState n) :
    List (HoistCall n) → Except Fault (List (HoistAnswer n) × HoistState n)
  | [] => .ok ([], state)
  | call :: rest => do
    let (answer, state) ← call.perform ctx table state
    let (answers, state) ← performAll state rest
    return (answer :: answers, state)

/-- The expanders of the table change the hoist state only by checking references. -/
def ExpanderTable.OnlyChecks : Prop :=
  ∀ s expander, table.get? s = some expander →
    ∀ state i e state', expander ctx state i = .ok (e, state') →
      ∃ log, state.Checked ctx.tree ctx.model log state'

/-! ## Logs of runs -/

/-- The checks that a call makes. Lowering checks a reference to its own symbol, unless the symbol
stands for the undefined value or has an expander; an expander makes the checks it wants. -/
def HoistCall.Makes : HoistCall n → HoistAnswer n → List (Check n) → Prop
  | check reference s, answer, log =>
    ∃ outcome, answer = .checked outcome ∧ log = [⟨reference, s, outcome⟩]
  | lower i, _, log =>
    match ctx.model.symbolAt i with
    | none => log = []
    | some s =>
      if ctx.model.isUndefined s then log = []
      else
        match table.get? s with
        | some _ => True
        | none => ∃ outcome, log = [⟨i, s, outcome⟩]

/-- **A run together with the log of its checks**: the calls with their answers, and the checks that
lead from the state before the run to the state after it. -/
inductive History : HoistState n → List (HoistCall n) → List (HoistAnswer n) → List (Check n) →
    HoistState n → Prop where
  | nil (state : HoistState n) : History state [] [] [] state
  | cons {state mid final : HoistState n} {call : HoistCall n} {calls : List (HoistCall n)}
      {answer : HoistAnswer n} {answers : List (HoistAnswer n)} {log log' : List (Check n)}
      (performed : call.perform ctx table state = .ok (answer, mid))
      (made : call.Makes ctx table answer log)
      (checked : state.Checked ctx.tree ctx.model log mid)
      (rest : History mid calls answers log' final) :
      History state (call :: calls) (answer :: answers) (log ++ log') final

end Runs

variable {ctx : LowerContext n} {table : ExpanderTable n} {state final : HoistState n}
  {calls : List (HoistCall n)} {answers : List (HoistAnswer n)}

/-- One check of a reference is a log of one check. -/
lemma HoistState.checked_singleton (t : SyntaxTree n) (model : SemanticModel (Fin n))
    (state : HoistState n) (r : Fin n) (s : SymbolId) :
    state.Checked t model [⟨r, s, (state.checkHoist t model r s).1⟩]
      (state.checkHoist t model r s).2 :=
  .cons rfl (.nil _)

/-- The hoist state changes in a call as the checks of the call change it.

**Proof sketch.** The cases of a call: a check, or the lowering of an identifier, which makes no
check, the checks of an expander, or one check of its own. -/
lemma HoistCall.exists_checked (hchecks : table.OnlyChecks ctx) {call : HoistCall n}
    {answer : HoistAnswer n} (h : call.perform ctx table state = .ok (answer, final)) :
    ∃ log, call.Makes ctx table answer log ∧ state.Checked ctx.tree ctx.model log final := by
  cases call with
  | check r s =>
    simp only [perform, Except.ok.injEq, Prod.mk.injEq] at h
    obtain ⟨rfl, rfl⟩ := h
    exact ⟨_, ⟨_, rfl, rfl⟩, HoistState.checked_singleton ctx.tree ctx.model state r s⟩
  | lower i =>
    simp only [perform, bind_eq_ok_iff, Prod.exists, pure_eq_ok, Except.ok.injEq,
      Prod.mk.injEq] at h
    obtain ⟨result, _, hlower, rfl, rfl⟩ := h
    simp only [Makes]
    cases hs : ctx.model.symbolAt i with
    | none =>
      rw [lowerIdentifier_of_no_symbol hs, map_eq_ok_iff] at hlower
      obtain ⟨_, _, heq⟩ := hlower
      obtain ⟨_, rfl⟩ := Prod.mk.inj heq
      exact ⟨[], rfl, .nil _⟩
    | some s =>
      dsimp only
      cases hundefined : ctx.model.isUndefined s with
      | true =>
        rw [lowerIdentifier_of_undefined hs hundefined, Except.ok.injEq, Prod.mk.injEq] at hlower
        obtain ⟨_, rfl⟩ := hlower
        exact ⟨[], rfl, .nil _⟩
      | false =>
        -- what an expander does is known from `hchecks` only; a plain reference is checked once
        simp only [Bool.false_eq_true, if_false]
        cases hexpander : table.get? s with
        | some expander =>
          rw [lowerIdentifier_of_expander hs hundefined hexpander, map_eq_ok_iff] at hlower
          obtain ⟨⟨e, state'⟩, hexpand, heq⟩ := hlower
          obtain ⟨_, rfl⟩ := Prod.mk.inj heq
          obtain ⟨log, hlog⟩ := hchecks s expander hexpander state i e state' hexpand
          exact ⟨log, trivial, hlog⟩
        | none =>
          rw [lowerIdentifier_of_plain hs hundefined hexpander, map_eq_ok_iff] at hlower
          obtain ⟨_, _, heq⟩ := hlower
          obtain ⟨_, rfl⟩ := Prod.mk.inj heq
          exact ⟨_, ⟨_, rfl⟩, HoistState.checked_singleton ctx.tree ctx.model state i s⟩

/-- **Every run has a log.**

**Proof sketch.** Induction on the calls. The logs of the calls are put one behind the other. -/
theorem exists_history (hchecks : table.OnlyChecks ctx)
    (h : performAll ctx table state calls = .ok (answers, final)) :
    ∃ log, History ctx table state calls answers log final := by
  induction calls generalizing state answers with
  | nil =>
    simp only [performAll, Except.ok.injEq, Prod.mk.injEq] at h
    obtain ⟨rfl, rfl⟩ := h
    exact ⟨[], .nil state⟩
  | cons call rest ih =>
    simp only [performAll, bind_eq_ok_iff, Prod.exists, pure_eq_ok, Except.ok.injEq,
      Prod.mk.injEq] at h
    obtain ⟨answer, mid, hcall, answers', final', hrest, rfl, rfl⟩ := h
    obtain ⟨log, hmade, hlog⟩ := HoistCall.exists_checked hchecks hcall
    obtain ⟨log', hhistory⟩ := ih hrest
    exact ⟨log ++ log', .cons hcall hmade hlog hhistory⟩

/-- The checks of a run lead from its first state to its last. -/
lemma History.checked {log : List (Check n)}
    (h : History ctx table state calls answers log final) :
    state.Checked ctx.tree ctx.model log final := by
  induction h with
  | nil state => exact .nil state
  | cons _ _ hchecked _ ih => exact HoistState.checked_append_iff.2 ⟨_, hchecked, ih⟩

/-! ## The state and the log in step -/

/-- **The hoist state is in step with the log** of the checks that led to it. -/
structure InStep (t : SyntaxTree n) (log : List (Check n)) (state : HoistState n) : Prop where
  /-- Every decision is `true`. -/
  decision : ∀ s b, state.isHoisted s = some b → b = true
  /-- The decided symbols are the announced ones. -/
  decided : ∀ s, state.isHoisted s = some true ↔ s ∈ announcedSymbols log
  /-- No symbol is announced twice. -/
  once : (announcedSymbols log).Nodup
  /-- There are as many references in the plan as decided symbols. -/
  count : state.plan.referenceCount = state.decided.size
  /-- A statement has the references that were announced in front of it, in order. -/
  references : ∀ S, state.hoistsFor S = announcedAt log S
  /-- No statement has an empty list of references. -/
  nonempty : ∀ e ∈ state.plan.entries, e.2 ≠ []
  /-- The keys of the plan are statements of block-like nodes. -/
  keys : ∀ e ∈ state.plan.entries, (t.kind e.1).isStatement = true ∧
    ∃ block, t.parent e.1 = some block ∧ t.isBlockLike block = true
  /-- The references of a statement lie in it. -/
  inside : ∀ e ∈ state.plan.entries, ∀ r ∈ e.2, e.1 ∈ t.ancestors r
  /-- What is handed over at the end is what each statement has been said to have. -/
  handedOver : ∀ S references, (S, references) ∈ state.finish.entries ↔
    references ≠ [] ∧ state.hoistsFor S = references

/-- What is handed over at the end can be read off what the statements have been said to have.

**Proof sketch.** A statement with references is a key of the plan, for `hoistsFor` is empty off the
keys. The entry of the key has the references that `hoistsFor` answers. Conversely no entry is
empty. -/
lemma HoistState.Records.mem_entries_iff {t : SyntaxTree n} {model : SemanticModel (Fin n)}
    {log : List (Check n)} (h : state.Records t model log) {S : Fin n} {references : List (Fin n)} :
    (S, references) ∈ state.plan.entries ↔ references ≠ [] ∧ state.hoistsFor S = references := by
  constructor
  · intro hmem
    exact ⟨h.nonempty _ hmem, HoistPlan.hoistsFor_of_mem_entries hmem⟩
  · rintro ⟨hne, rfl⟩
    have hkey : S ∈ state.plan.byStatement.keys := by
      by_contra hkey
      exact hne (HoistPlan.hoistsFor_of_notMem_keys hkey)
    obtain ⟨e, he, rfl⟩ := List.mem_map.1 hkey
    have hrefs : state.hoistsFor e.1 = e.2 := HoistPlan.hoistsFor_of_mem_entries he
    rw [hrefs]
    exact he

/-- A reference of the plan stands where the planner asks to announce its symbol. -/
lemma HoistState.Records.exists_placement {t : SyntaxTree n} {model : SemanticModel (Fin n)}
    {log : List (Check n)} (h : state.Records t model log) {S r : Fin n}
    (hr : r ∈ state.hoistsFor S) : ∃ s, placement t model r s = .hoisted S := by
  rw [h.references S, mem_announcedAt_iff] at hr
  obtain ⟨c, hc, rfl, hS⟩ := hr
  exact ⟨c.symbol, h.placed c hc S hS⟩

/-- **A state that is what a log of checks says** is in step with the log.

**Proof sketch.** The lists of the state are those of the log. What is said about the statements in
the plan holds of each placement in front of a statement, and nothing else is announced. -/
theorem HoistState.Records.inStep {t : SyntaxTree n} {model : SemanticModel (Fin n)}
    {log : List (Check n)} (h : state.Records t model log) : InStep t log state where
  decision s b hb := by
    rw [h.isHoisted_eq s] at hb
    split at hb
    · exact (Option.some.inj hb).symm
    · cases hb
  decided s := by
    rw [h.isHoisted_eq s]
    simp
  once := h.nodup_announcedSymbols
  count := by
    rw [h.count, ← h.keys_decided, OrderedMap.keys, List.length_map, OrderedMap.size]
  references := h.references
  nonempty := h.nonempty
  keys e he := by
    obtain ⟨hne, hrefs⟩ := h.mem_entries_iff.1 he
    obtain ⟨r, hr⟩ := List.exists_mem_of_ne_nil _ hne
    obtain ⟨s, hplacement⟩ := h.exists_placement (hrefs ▸ hr)
    obtain ⟨_, _, block, _, _, _, hlike, _, _, hparent, _, hkind, _⟩ :=
      placement_eq_hoisted_iff.1 hplacement
    exact ⟨hkind, block, hparent, hlike⟩
  inside e he r hr := by
    obtain ⟨_, hrefs⟩ := h.mem_entries_iff.1 he
    obtain ⟨s, hplacement⟩ := h.exists_placement (hrefs ▸ hr)
    obtain ⟨_, _, _, _, _, _, _, _, hmem, _⟩ := placement_eq_hoisted_iff.1 hplacement
    exact hmem
  handedOver _ _ := h.mem_entries_iff

/-! ## The effect of a check -/

/-- **What one check does** to a state that the checks of the log `before` have led to. -/
structure Check.Effect (c : Check n) (before : List (Check n)) (state next : HoistState n) :
    Prop where
  /-- A symbol is refused exactly when it was announced by an earlier check. -/
  refused : c.outcome = .alreadyDecided ↔
    ∃ c' ∈ before, c'.symbol = c.symbol ∧ ∃ S, c'.outcome = .hoisted S
  /-- An announcement decides its symbol, which was not decided before, and adds its reference
  behind those of one statement. -/
  announced : ∀ S, c.outcome = .hoisted S →
    state.isHoisted c.symbol = none ∧
    (∀ s, next.isHoisted s = if s = c.symbol then some true else state.isHoisted s) ∧
    ∀ S', next.hoistsFor S' =
      if S' = S then state.hoistsFor S ++ [c.reference] else state.hoistsFor S'
  /-- Any other check changes nothing. -/
  skipped : (∀ S, c.outcome ≠ .hoisted S) → next = state

/-- The effect of a check on a state that is what a log of checks says.

**Proof sketch.** The cases of `HoistState.checkHoist_cases`: the symbol is decided, its declaration
is announced, or it is skipped. -/
lemma HoistState.Records.effect {t : SyntaxTree n} {model : SemanticModel (Fin n)}
    {log : List (Check n)} (h : state.Records t model log) {c : Check n} {next : HoistState n}
    (hc : state.checkHoist t model c.reference c.symbol = (c.outcome, next)) :
    c.Effect log state next := by
  have hdecided : c.symbol ∈ state.decided.keys ↔
      ∃ c' ∈ log, c'.symbol = c.symbol ∧ ∃ S, c'.outcome = .hoisted S := by
    rw [h.keys_decided, mem_announcedSymbols_iff]
  rcases HoistState.checkHoist_cases t model state c.reference c.symbol with
    ⟨hold, heq⟩ | ⟨hnew, S, _, heq⟩ | ⟨hnew, hskipped, heq⟩
  · obtain ⟨houtcome, rfl⟩ := Prod.mk.inj (heq.symm.trans hc)
    exact {
      refused := by simp [← houtcome, ← hdecided, hold]
      announced := by simp [← houtcome]
      skipped := fun _ => rfl }
  · obtain ⟨houtcome, rfl⟩ := Prod.mk.inj (heq.symm.trans hc)
    exact {
      refused := by simp [← houtcome, ← hdecided, hnew]
      announced := by
        intro S' hS'
        obtain rfl : S = S' := by simpa [← houtcome] using hS'
        exact ⟨OrderedMap.get?_eq_none_iff.2 hnew,
          HoistState.isHoisted_announce state S c.reference c.symbol,
          HoistState.hoistsFor_announce state S c.reference c.symbol⟩
      skipped := fun hskipped => absurd houtcome.symm (hskipped S) }
  · obtain ⟨houtcome, rfl⟩ := Prod.mk.inj (heq.symm.trans hc)
    exact {
      refused := by
        simp [← houtcome, ← hdecided, hnew, HoistState.placement_ne_alreadyDecided]
      announced := fun S hS => absurd (houtcome.trans hS) (hskipped S)
      skipped := fun _ => rfl }

/-- Decisions of a state stay what they are through later checks. -/
lemma HoistState.Checked.isHoisted {t : SyntaxTree n} {model : SemanticModel (Fin n)}
    {log log' : List (Check n)} (h : state.Checked t model log' final)
    (hstate : state.Records t model log) {s : SymbolId} {b : Bool}
    (hb : state.isHoisted s = some b) : final.isHoisted s = some b := by
  have hs := hstate.isHoisted_eq s
  rw [hb] at hs
  split at hs
  · rename_i hmem
    rw [(h.records hstate).isHoisted_eq s, announcedSymbols_append,
      if_pos (List.mem_append_left _ hmem), hs]
  · cases hs

/-- **The hoist state over whole runs.** A run from the empty state has a log of the checks in it.
At every point of the log the state is in step with the checks so far, and the decisions made by
then are still there at the end; and every check has the effect that the checks before it leave to
it.

**Proof sketch.** `exists_history` gives the log. A point of the log splits its checks in two, and
`HoistState.checked_append_iff` gives the state in between. The first half leads there from the
empty state, so this state records it (`records`), which is all that `inStep` and `effect` ask for;
the second half keeps the decisions. -/
theorem announces_once_per_run (hchecks : table.OnlyChecks ctx)
    (h : performAll ctx table .empty calls = .ok (answers, final)) :
    ∃ log, History ctx table .empty calls answers log final ∧
      ∀ before after, log = before ++ after → ∃ state,
        HoistState.empty.Checked ctx.tree ctx.model before state ∧
        state.Checked ctx.tree ctx.model after final ∧
        InStep ctx.tree before state ∧
        (∀ s b, state.isHoisted s = some b → final.isHoisted s = some b) ∧
        ∀ c rest, after = c :: rest → ∃ next,
          state.checkHoist ctx.tree ctx.model c.reference c.symbol = (c.outcome, next) ∧
          next.Checked ctx.tree ctx.model rest final ∧ c.Effect before state next := by
  obtain ⟨log, hhistory⟩ := exists_history hchecks h
  refine ⟨log, hhistory, ?_⟩
  rintro before after rfl
  obtain ⟨state, hbefore, hafter⟩ := HoistState.checked_append_iff.1 hhistory.checked
  have hrecords : state.Records ctx.tree ctx.model before := by
    have := hbefore.records HoistState.records_empty
    rwa [List.nil_append] at this
  refine ⟨state, hbefore, hafter, hrecords.inStep, fun s b => hafter.isHoisted hrecords, ?_⟩
  rintro c rest rfl
  cases hafter with
  | cons first rest => exact ⟨_, first, rest, hrecords.effect first⟩

/-- An expander that checks its reference as one to another symbol, and lowers it to nil. -/
def Expander.checking (s : SymbolId) : Expander n := fun ctx state i =>
  .ok (.nil, (ctx.checkHoist state i s).2)

/-- A table with one expander, which checks the references to `s` as references to `s'`. -/
def ExpanderTable.checking (s s' : SymbolId) : ExpanderTable n :=
  ExpanderTable.empty.register s (.checking s')

/-- The expander of such a table only checks. -/
lemma ExpanderTable.onlyChecks_checking (ctx : LowerContext n) (s s' : SymbolId) :
    (ExpanderTable.checking s s').OnlyChecks ctx := by
  intro s₀ expander hget state i e state' h
  obtain ⟨_, rfl⟩ : s₀ = s ∧ .checking s' = expander := by
    simpa [checking, ExpanderTable.get?, register, empty, OrderedMap.get?_insert] using hget
  obtain ⟨_, rfl⟩ := Prod.mk.inj (Except.ok.inj h)
  exact ⟨_, HoistState.checked_singleton ctx.tree ctx.model state i s'⟩

/-- The references of `x; x; let x;` with symbols of their own, of which only that of the first one
is declared by the statement behind them. -/
def LowerContext.twoSymbols : LowerContext 8 where
  tree := .twoEarlyReferences
  interner := .onlyX
  model := .restrict 8
    { symbolAt := fun i => if i = 0 then some ⟨1⟩ else if i = 2 then some ⟨2⟩ else none
      isUndefined := fun s => s = ⟨0⟩
      valueDeclaration := fun s => if s = ⟨1⟩ then some 4 else none }
  options := CompilerOptions.default.toLowerOptions

/-- The second reference is checked on behalf of the symbol of the first one, by its expander and
once more directly, before the first one is lowered. -/
theorem announces_once_per_run_of_three_calls :
    (ExpanderTable.checking ⟨2⟩ ⟨1⟩).OnlyChecks .twoSymbols ∧
    ∃ answers final, performAll .twoSymbols (.checking ⟨2⟩ ⟨1⟩) .empty
        [.lower 2, .check 2 ⟨1⟩, .lower 0] = .ok (answers, final) ∧
      final.plan.entries = [(3, [2])] ∧ final.isHoisted ⟨1⟩ = some true ∧
      ∃ log, History .twoSymbols (.checking ⟨2⟩ ⟨1⟩) .empty [.lower 2, .check 2 ⟨1⟩, .lower 0]
          answers log final ∧
        ∃ state, HoistState.empty.Checked .twoEarlyReferences LowerContext.twoSymbols.model log
          state ∧ InStep .twoEarlyReferences log state := by
  have hchecks := ExpanderTable.onlyChecks_checking .twoSymbols ⟨2⟩ ⟨1⟩
  have hrun : EndsIn (fun _ => False)
      (fun r => (r.2.plan.entries, r.2.isHoisted ⟨1⟩) =
        (([(3, [2])], some true) : List (Fin 8 × List (Fin 8)) × Option Bool))
      (performAll .twoSymbols (.checking ⟨2⟩ ⟨1⟩) .empty
        [.lower 2, .check 2 ⟨1⟩, .lower 0]) := by decide +kernel
  obtain ⟨⟨answers, final⟩, hperform, hfinal⟩ := hrun.exists_eq_ok
  injection hfinal with hentries hdecided
  obtain ⟨log, hhistory, hlog⟩ := announces_once_per_run hchecks hperform
  obtain ⟨state, hchecked, _, hstep, _⟩ := hlog log [] (List.append_nil log).symm
  exact ⟨hchecks, answers, final, hperform, hentries, hdecided, log, hhistory, state, hchecked,
    hstep⟩

end Predeclare
