import Predeclare.Proofs.Lowering.Early
import Predeclare.Proofs.Lowering.Plan

set_option relaxedAutoImplicit false
set_option autoImplicit false

/-!
# Logs of checks

The hoist state changes only when a reference is checked. What a sequence of checks leaves behind
can therefore be read off a log of the checks and their outcomes: the decided symbols are those
that some check announced, in the order of the log, and the references of a statement are those
for which something was announced in front of it.

## Main definitions

* `Check`, `announcedSymbols`, `announcedAt` — a check with its outcome, and what a log announces.
* `HoistState.Checked` — a sequence of checks leads from one state to another.
* `HoistState.Records` — the state is what a log of checks says.

## Main results

* `HoistState.checkHoist_cases` — everything that one check can do.
* `HoistState.Records.check`, `HoistState.Checked.records` — one more check, and all of a log.
-/

namespace Predeclare

variable {n : Nat}

/-- The statement in front of which a check announced a declaration. -/
def HoistOutcome.statement? : HoistOutcome n → Option (Fin n)
  | .hoisted S => some S
  | _ => none

/-- A check of a reference to a symbol, with its outcome. -/
structure Check (n : Nat) where
  reference : Fin n
  symbol : SymbolId
  outcome : HoistOutcome n
  deriving DecidableEq, Repr

/-- The symbols whose declarations the checks of a log announced, in order. -/
def announcedSymbols (log : List (Check n)) : List SymbolId :=
  log.filterMap fun c => c.outcome.statement?.map fun _ => c.symbol

/-- The references for which the checks of a log announced something in front of a statement, in
order. -/
def announcedAt (log : List (Check n)) (S : Fin n) : List (Fin n) :=
  log.filterMap fun c => if c.outcome.statement? = some S then some c.reference else none

@[simp] lemma HoistOutcome.statement?_eq_some_iff {o : HoistOutcome n} {S : Fin n} :
    o.statement? = some S ↔ o = .hoisted S := by
  cases o <;> simp [statement?]

lemma announcedSymbols_append (log log' : List (Check n)) :
    announcedSymbols (log ++ log') = announcedSymbols log ++ announcedSymbols log' :=
  List.filterMap_append

lemma announcedAt_append (log log' : List (Check n)) (S : Fin n) :
    announcedAt (log ++ log') S = announcedAt log S ++ announcedAt log' S :=
  List.filterMap_append

/-- A symbol is announced when some check of the log announced it. -/
lemma mem_announcedSymbols_iff {log : List (Check n)} {s : SymbolId} :
    s ∈ announcedSymbols log ↔ ∃ c ∈ log, c.symbol = s ∧ ∃ S, c.outcome = .hoisted S := by
  simp only [announcedSymbols, List.mem_filterMap, Option.map_eq_some_iff,
    HoistOutcome.statement?_eq_some_iff]
  constructor
  · rintro ⟨c, hc, S, hS, rfl⟩
    exact ⟨c, hc, rfl, S, hS⟩
  · rintro ⟨c, hc, rfl, S, hS⟩
    exact ⟨c, hc, S, hS, rfl⟩

/-- A reference is announced in front of a statement when some check of the log did so. -/
lemma mem_announcedAt_iff {log : List (Check n)} {r S : Fin n} :
    r ∈ announcedAt log S ↔ ∃ c ∈ log, c.reference = r ∧ c.outcome = .hoisted S := by
  simp only [announcedAt, List.mem_filterMap, Option.ite_none_right_eq_some,
    HoistOutcome.statement?_eq_some_iff, Option.some.injEq]
  constructor
  · rintro ⟨c, hc, hS, hr⟩
    exact ⟨c, hc, hr, hS⟩
  · rintro ⟨c, hc, hr, hS⟩
    exact ⟨c, hc, hS, hr⟩

/-! ## One check -/

namespace HoistState

variable {t : SyntaxTree n} {model : SemanticModel (Fin n)} {state : HoistState n}
  {r S : Fin n} {s : SymbolId}

/-- Where a reference stands does not depend on what has been announced. -/
lemma placement_ne_alreadyDecided : placement t model r s ≠ .alreadyDecided := by
  simp only [placement, placementInList]
  repeat' split
  all_goals simp

/-- An announcement decides its symbol. -/
lemma isHoisted_announce (state : HoistState n) (S r : Fin n) (s s' : SymbolId) :
    (state.announce S r s).isHoisted s' = if s' = s then some true else state.isHoisted s' :=
  OrderedMap.get?_insert state.decided s true s'

/-- An announcement puts its reference behind those of its statement. -/
lemma hoistsFor_announce (state : HoistState n) (S r : Fin n) (s : SymbolId) (S' : Fin n) :
    (state.announce S r s).hoistsFor S' =
      if S' = S then state.hoistsFor S ++ [r] else state.hoistsFor S' :=
  HoistPlan.hoistsFor_record state.plan S r S'

/-- **Everything that one check can do**: a symbol that has been announced is not announced again,
a reference that asks for it is recorded, and any other reference changes nothing. -/
theorem checkHoist_cases (t : SyntaxTree n) (model : SemanticModel (Fin n)) (state : HoistState n)
    (r : Fin n) (s : SymbolId) :
    (s ∈ state.decided.keys ∧ state.checkHoist t model r s = (.alreadyDecided, state)) ∨
      (s ∉ state.decided.keys ∧ ∃ S, placement t model r s = .hoisted S ∧
        state.checkHoist t model r s = (.hoisted S, state.announce S r s)) ∨
      (s ∉ state.decided.keys ∧ (∀ S, placement t model r s ≠ .hoisted S) ∧
        state.checkHoist t model r s = (placement t model r s, state)) := by
  by_cases hs : s ∈ state.decided.keys
  · exact Or.inl ⟨hs, checkHoist_of_decided (OrderedMap.contains_iff.2 hs)⟩
  · right
    have hcontains : state.decided.contains s = false := by simpa [OrderedMap.contains] using hs
    rw [checkHoist_of_undecided hcontains]
    cases hplacement : placement t model r s with
    | hoisted S => exact Or.inl ⟨hs, S, rfl, rfl⟩
    | _ => exact Or.inr ⟨hs, by simp, rfl⟩

/-! ## A sequence of checks -/

/-- **A sequence of checks** leads from one state to another: each check finds the state that the
checks before it have left behind. -/
inductive Checked (t : SyntaxTree n) (model : SemanticModel (Fin n)) :
    HoistState n → List (Check n) → HoistState n → Prop where
  | nil (state : HoistState n) : Checked t model state [] state
  | cons {state mid final : HoistState n} {c : Check n} {log : List (Check n)}
      (first : state.checkHoist t model c.reference c.symbol = (c.outcome, mid))
      (rest : Checked t model mid log final) : Checked t model state (c :: log) final

/-- A log can be cut anywhere: its first part leads to the state that the rest starts from.

**Proof sketch.** Induction on the first part. -/
lemma checked_append_iff {log log' : List (Check n)} {final : HoistState n} :
    Checked t model state (log ++ log') final ↔
      ∃ mid, Checked t model state log mid ∧ Checked t model mid log' final := by
  induction log generalizing state with
  | nil =>
    constructor
    · intro h
      exact ⟨state, .nil state, h⟩
    · rintro ⟨mid, hnil, h⟩
      cases hnil
      exact h
  | cons c log ih =>
    constructor
    · intro h
      cases h with
      | cons first rest =>
        obtain ⟨mid, hlog, hlog'⟩ := ih.1 rest
        exact ⟨mid, .cons first hlog, hlog'⟩
    · rintro ⟨mid, hcons, hlog'⟩
      cases hcons with
      | cons first rest => exact .cons first (ih.2 ⟨mid, rest, hlog'⟩)

/-- **The state is what a log of checks says.** -/
structure Records (t : SyntaxTree n) (model : SemanticModel (Fin n)) (log : List (Check n))
    (state : HoistState n) : Prop where
  decided : state.decided.entries = (announcedSymbols log).map fun s => (s, true)
  references : ∀ S, state.hoistsFor S = announcedAt log S
  count : state.plan.referenceCount = (announcedSymbols log).length
  nonempty : ∀ e ∈ state.plan.entries, e.2 ≠ []
  placed : ∀ c ∈ log, ∀ S, c.outcome = .hoisted S →
    placement t model c.reference c.symbol = .hoisted S

/-- Nothing has been checked yet. -/
lemma records_empty : Records t model [] (.empty : HoistState n) where
  decided := rfl
  references _ := rfl
  count := rfl
  nonempty _ h := absurd h List.not_mem_nil
  placed _ h := absurd h List.not_mem_nil

namespace Records

variable {log : List (Check n)}

/-- The decided symbols are the announced ones, in the same order. -/
lemma keys_decided (h : Records t model log state) : state.decided.keys = announcedSymbols log := by
  simp only [OrderedMap.keys]
  rw [h.decided, List.map_map]
  exact List.map_id _

/-- No symbol is announced twice. -/
lemma nodup_announcedSymbols (h : Records t model log state) : (announcedSymbols log).Nodup :=
  h.keys_decided ▸ state.decided.nodup

/-- A decision is known to be `true` for the announced symbols, and unknown for others. -/
lemma isHoisted_eq (h : Records t model log state) (s : SymbolId) :
    state.isHoisted s = if s ∈ announcedSymbols log then some true else none := by
  simp only [isHoisted]
  split
  · rename_i hs
    rw [OrderedMap.get?_eq_some_iff, h.decided]
    exact List.mem_map_of_mem hs
  · rename_i hs
    rw [OrderedMap.get?_eq_none_iff, h.keys_decided]
    exact hs

/-- A check that announces nothing adds nothing to what the log says.

**Proof sketch.** The new check adds nothing to the announced symbols and to the references of any
statement, and the state is the old one. -/
lemma concat_of_skipped (h : Records t model log state) {c : Check n}
    (hc : ∀ S, c.outcome ≠ .hoisted S) : Records t model (log ++ [c]) state := by
  have hnone : c.outcome.statement? = none := by
    rw [Option.eq_none_iff_forall_ne_some]
    exact fun S hS => hc S (HoistOutcome.statement?_eq_some_iff.1 hS)
  have hsymbols : announcedSymbols (log ++ [c]) = announcedSymbols log := by
    rw [announcedSymbols_append]
    simp [announcedSymbols, hnone]
  exact {
    decided := by rw [hsymbols, h.decided]
    references := by
      intro S
      rw [announcedAt_append, h.references S]
      simp [announcedAt, hc S]
    count := by rw [hsymbols, h.count]
    nonempty := h.nonempty
    placed := by
      intro c' hc' S hS
      rcases List.mem_append.1 hc' with hc' | hc'
      · exact h.placed c' hc' S hS
      · rw [List.mem_singleton.1 hc'] at hS
        exact absurd hS (hc S) }

/-- A check that announces a declaration adds its symbol and its reference, both at the end.

**Proof sketch.** The symbol is new, so it comes last among the decided ones, as it does among the
announced ones of the log; the reference comes last at its statement. -/
lemma concat_of_announced (h : Records t model log state) {c : Check n} {S : Fin n}
    (hc : c.outcome = .hoisted S)
    (hplaced : placement t model c.reference c.symbol = .hoisted S)
    (hnew : c.symbol ∉ state.decided.keys) :
    Records t model (log ++ [c]) (state.announce S c.reference c.symbol) := by
  have hsymbols : announcedSymbols (log ++ [c]) = announcedSymbols log ++ [c.symbol] := by
    rw [announcedSymbols_append]
    simp [announcedSymbols, hc, HoistOutcome.statement?]
  exact {
    decided := by
      simp only [announce]
      rw [OrderedMap.entries_insert_of_notMem hnew, h.decided, hsymbols, List.map_append]
      rfl
    references := by
      intro S'
      rw [hoistsFor_announce, announcedAt_append, h.references S, h.references S']
      by_cases hS' : S' = S
      · subst hS'
        simp [announcedAt, hc, HoistOutcome.statement?]
      · simp [announcedAt, hc, HoistOutcome.statement?, hS', Ne.symm hS']
    count := by
      simp only [announce]
      rw [HoistPlan.referenceCount_record, h.count, hsymbols, List.length_append,
        List.length_singleton]
    nonempty := HoistPlan.nonempty_record h.nonempty
    placed := by
      intro c' hc' S' hS'
      rcases List.mem_append.1 hc' with hc' | hc'
      · exact h.placed c' hc' S' hS'
      · rw [List.mem_singleton.1 hc'] at hS' ⊢
        rw [hc] at hS'
        injection hS' with hS'
        exact hS' ▸ hplaced }

/-- **One more check** is recorded. -/
theorem check (h : Records t model log state) {c : Check n} {next : HoistState n}
    (hc : state.checkHoist t model c.reference c.symbol = (c.outcome, next)) :
    Records t model (log ++ [c]) next := by
  rcases checkHoist_cases t model state c.reference c.symbol with
    ⟨_, heq⟩ | ⟨hnew, S, hplaced, heq⟩ | ⟨_, hskipped, heq⟩
  · obtain ⟨houtcome, rfl⟩ := Prod.mk.inj (heq.symm.trans hc)
    exact h.concat_of_skipped fun S => by simp [← houtcome]
  · obtain ⟨houtcome, rfl⟩ := Prod.mk.inj (heq.symm.trans hc)
    exact h.concat_of_announced houtcome.symm hplaced hnew
  · obtain ⟨houtcome, rfl⟩ := Prod.mk.inj (heq.symm.trans hc)
    exact h.concat_of_skipped fun S => houtcome ▸ hskipped S

end Records

/-- **All checks of a log** are recorded. -/
theorem Checked.records {log' : List (Check n)} {final : HoistState n}
    (h : Checked t model state log' final) {log : List (Check n)}
    (hlog : Records t model log state) : Records t model (log ++ log') final := by
  induction h generalizing log with
  | nil state => rwa [List.append_nil]
  | cons first _ ih =>
    have hrest := ih (hlog.check first)
    rwa [List.append_assoc, List.singleton_append] at hrest

end HoistState

end Predeclare
