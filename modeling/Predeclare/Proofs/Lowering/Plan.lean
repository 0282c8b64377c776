import Mathlib.Data.List.Basic
import Predeclare.Lowering.Hoist

set_option relaxedAutoImplicit false
set_option autoImplicit false

/-!
# One more reference in a plan

A plan grows by one reference at a time. The reference joins those of its statement, or makes a new
entry for it; the other entries stay as they are, so there is one reference more in all, and no
entry is empty.

## Main definitions

* `HoistPlan.firsts` — the first references of the statements.

## Main results

* `HoistPlan.entries_record_of_mem`, `HoistPlan.entries_record_of_notMem` — the entries afterwards.
* `HoistPlan.referenceCount_record` — the number of references afterwards.
-/

namespace Predeclare

namespace HoistPlan

variable {n : Nat}

/-- The first references of the statements of a plan, in the order of the statements. -/
def firsts (plan : HoistPlan n) : List (Fin n) := plan.entries.filterMap fun e => e.2.head?

variable {plan : HoistPlan n} {S r : Fin n}

/-- An entry lists the references of its statement. -/
lemma hoistsFor_of_mem_entries {e : Fin n × List (Fin n)} (h : e ∈ plan.entries) :
    plan.hoistsFor e.1 = e.2 := by
  simp only [hoistsFor]
  rw [OrderedMap.get?_eq_some_iff.2 h]
  rfl

/-- A statement without an entry has no references. -/
lemma hoistsFor_of_notMem_keys (h : S ∉ plan.byStatement.keys) : plan.hoistsFor S = [] := by
  simp only [hoistsFor]
  rw [OrderedMap.get?_eq_none_iff.2 h]
  rfl

/-- A statement has the references that it had, and the new one if that is recorded for it. -/
lemma mem_hoistsFor_record {S' r' : Fin n} :
    r' ∈ (plan.record S r).hoistsFor S' ↔ r' ∈ plan.hoistsFor S' ∨ S' = S ∧ r' = r := by
  rw [hoistsFor_record]
  split
  · rename_i hS
    subst hS
    simp
  · rename_i hS
    simp [hS]

/-- One more reference of a statement that has an entry joins this entry. -/
lemma entries_record_of_mem (h : S ∈ plan.byStatement.keys) :
    (plan.record S r).entries =
      plan.entries.map fun e => if e.1 = S then (S, plan.hoistsFor S ++ [r]) else e :=
  OrderedMap.entries_insert_of_mem h _

/-- The first reference of a statement makes a new entry. -/
lemma entries_record_of_notMem (h : S ∉ plan.byStatement.keys) :
    (plan.record S r).entries = plan.entries ++ [(S, [r])] := by
  simp only [entries, record]
  rw [OrderedMap.entries_insert_of_notMem h, hoistsFor_of_notMem_keys h]
  rfl

/-- No entry becomes empty.

**Proof sketch.** The statement has an entry, which grows, or it gets one with the new reference. -/
lemma nonempty_record (h : ∀ e ∈ plan.entries, e.2 ≠ []) :
    ∀ e ∈ (plan.record S r).entries, e.2 ≠ [] := by
  intro e he
  by_cases hS : S ∈ plan.byStatement.keys
  · rw [entries_record_of_mem hS] at he
    obtain ⟨e', he', rfl⟩ := List.mem_map.1 he
    split
    · simp
    · exact h e' he'
  · rw [entries_record_of_notMem hS] at he
    rcases List.mem_append.1 he with he | he
    · exact h e he
    · rw [List.mem_singleton.1 he]
      exact List.cons_ne_nil r []

/-- A reference is the first of its statement, or the first references stay as they are.

**Proof sketch.** If the statement has an entry, the reference comes behind the others in it;
otherwise the new entry comes last. -/
lemma firsts_record (h : ∀ e ∈ plan.entries, e.2 ≠ []) :
    (plan.record S r).firsts = plan.firsts ++ [r] ∨ (plan.record S r).firsts = plan.firsts := by
  simp only [firsts]
  by_cases hS : S ∈ plan.byStatement.keys
  · right
    rw [entries_record_of_mem hS, List.filterMap_map]
    refine List.filterMap_congr fun e he => ?_
    rw [Function.comp_apply]
    split
    · rename_i hkey
      subst hkey
      rw [hoistsFor_of_mem_entries he]
      exact List.head?_append_of_ne_nil _ (h e he)
    · rfl
  · left
    rw [entries_record_of_notMem hS, List.filterMap_append]
    rfl

/-- The first references are among all references. -/
lemma mem_hoistsFor_of_mem_firsts (h : r ∈ plan.firsts) : ∃ S, r ∈ plan.hoistsFor S := by
  obtain ⟨e, he, hr⟩ := List.mem_filterMap.1 h
  refine ⟨e.1, ?_⟩
  rw [hoistsFor_of_mem_entries he]
  exact List.mem_of_mem_head? hr

/-- One more reference of a statement is one more reference of the plan.

**Proof sketch.** A new statement adds an entry with this one reference. The entry of an old
statement is split off the others, which do not change because no other entry has its key. -/
lemma referenceCount_record (plan : HoistPlan n) (S r : Fin n) :
    (plan.record S r).referenceCount = plan.referenceCount + 1 := by
  simp only [referenceCount, OrderedMap.values]
  by_cases hS : S ∈ plan.byStatement.keys
  · obtain ⟨e, he, rfl⟩ := List.mem_map.1 hS
    obtain ⟨before, after, hsplit⟩ := List.append_of_mem he
    have hkeys := plan.byStatement.nodup_keys
    rw [hsplit, List.map_append, List.map_cons, List.nodup_append, List.nodup_cons] at hkeys
    have hsame : ∀ es : List (Fin n × List (Fin n)), (∀ e' ∈ es, e'.1 ≠ e.1) →
        (es.map fun e' => if e'.1 = e.1 then (e.1, plan.hoistsFor e.1 ++ [r]) else e') = es := by
      intro es hes
      refine (List.map_congr_left fun e' he' => ?_).trans (List.map_id es)
      exact if_neg (hes e' he')
    have hbefore := hsame before fun e' he' =>
      hkeys.2.2 e'.1 (List.mem_map_of_mem he') e.1 List.mem_cons_self
    have hafter := hsame after fun e' he' heq =>
      hkeys.2.1.1 (heq ▸ List.mem_map_of_mem he')
    have hrefs : plan.hoistsFor e.1 = e.2 := hoistsFor_of_mem_entries he
    have hentries := entries_record_of_mem (r := r) hS
    simp only [entries] at hentries
    rw [hentries, hsplit, List.map_append, List.map_cons, hbefore, hafter, hrefs]
    simp
    omega
  · have hentries := entries_record_of_notMem (r := r) hS
    simp only [entries] at hentries
    rw [hentries]
    simp

end HoistPlan

end Predeclare
