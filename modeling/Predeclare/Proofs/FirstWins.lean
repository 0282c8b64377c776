import Mathlib.Data.List.Induction
import Predeclare.OrderedMap

set_option relaxedAutoImplicit false
set_option autoImplicit false

/-!
# Maps in which the first entry of a key wins

A scope keeps the first definition of a name and refuses later ones. The map that a list of entries
leaves behind when later entries of a key are refused answers with the first entry of the list that
has the key.

## Main definitions

* `OrderedMap.insertNew` — an entry is added unless its key is there already.
* `OrderedMap.ofFirst` — the entries of a list, added one after the other.

## Main results

* `OrderedMap.get?_ofFirst` — look-up finds the first entry of a key.
-/

namespace Predeclare

namespace OrderedMap

variable {κ α : Type} [DecidableEq κ]

/-- Adds an entry unless its key is there already. -/
def insertNew (m : OrderedMap κ α) (e : κ × α) : OrderedMap κ α :=
  if m.contains e.1 then m else m.insert e.1 e.2

/-- Adds the entries of a list one after the other; the first entry of a key stays. -/
def ofFirst (es : List (κ × α)) : OrderedMap κ α := es.foldl insertNew empty

/-- One more entry at the end is added last. -/
lemma ofFirst_concat (es : List (κ × α)) (e : κ × α) :
    ofFirst (es ++ [e]) = (ofFirst es).insertNew e := by
  unfold ofFirst
  rw [List.foldl_append]
  rfl

/-- An entry with a known key changes nothing. -/
lemma insertNew_of_get?_eq_some {m : OrderedMap κ α} {e : κ × α} {a : α}
    (h : m.get? e.1 = some a) : m.insertNew e = m := by
  unfold insertNew
  rw [contains_eq_isSome, h]
  rfl

/-- An entry with a new key is inserted. -/
lemma insertNew_of_get?_eq_none {m : OrderedMap κ α} {e : κ × α}
    (h : m.get? e.1 = none) : m.insertNew e = m.insert e.1 e.2 := by
  unfold insertNew
  rw [contains_eq_isSome, h]
  rfl

/-- An old answer stays, and a key without one gets the answer of the new entry.

**Proof sketch.** If the key of the entry has an answer, nothing changes; otherwise the map is asked
after an insertion. -/
lemma get?_insertNew (m : OrderedMap κ α) (e : κ × α) (k : κ) :
    (m.insertNew e).get? k = (m.get? k).or (if e.1 = k then some e.2 else none) := by
  cases h : m.get? e.1 with
  | some a =>
    rw [insertNew_of_get?_eq_some h]
    by_cases hk : e.1 = k
    · rw [← hk, h]
      rfl
    · simp [hk]
  | none =>
    rw [insertNew_of_get?_eq_none h, get?_insert]
    by_cases hk : e.1 = k
    · rw [← hk, h]
      simp
    · simp [hk, Ne.symm hk]

/-- **Look-up finds the first entry of a key.**

**Proof sketch.** By induction from the right, as entries are inserted: a key that an earlier entry
has is not inserted again, so the later entry only counts if the earlier ones do not have it. -/
theorem get?_ofFirst (es : List (κ × α)) (k : κ) :
    (ofFirst es).get? k = (es.find? (·.1 = k)).map Prod.snd := by
  induction es using List.reverseRecOn with
  | nil => rfl
  | append_singleton es e ih =>
    rw [ofFirst_concat, get?_insertNew, ih, List.find?_append]
    cases es.find? (·.1 = k) with
    | some a => rfl
    | none =>
      by_cases hk : e.1 = k
      · simp [hk]
      · simp [hk]

/-- The keys are those of the list. -/
lemma mem_keys_ofFirst {es : List (κ × α)} {k : κ} :
    k ∈ (ofFirst es).keys ↔ k ∈ es.map Prod.fst := by
  rw [← not_iff_not, ← get?_eq_none_iff, get?_ofFirst, Option.map_eq_none_iff,
    List.find?_eq_none, List.mem_map]
  constructor
  · rintro h ⟨e, he, hk⟩
    exact h e he (decide_eq_true hk)
  · intro h e he hk
    exact h ⟨e, he, of_decide_eq_true hk⟩

/-- The keys of a map of numbered keys are the keys that were numbered. -/
lemma mem_keys_ofFirst_zipIdx {ks : List κ} (f : Nat → α) {k : κ} :
    k ∈ (ofFirst (ks.zipIdx.map fun e => (e.1, f e.2))).keys ↔ k ∈ ks := by
  have hkeys : (ks.zipIdx.map fun e => (e.1, f e.2)).map Prod.fst = ks := by
    rw [List.map_map]
    exact List.zipIdx_map_fst 0 ks
  rw [mem_keys_ofFirst, hkeys]

/-- Look-up in a map of numbered keys finds the first place of the key. -/
lemma get?_ofFirst_zipIdx {ks : List κ} (f : Nat → α) (k : κ) :
    (ofFirst (ks.zipIdx.map fun e => (e.1, f e.2))).get? k =
      (ks.zipIdx.find? (·.1 = k)).map fun e => f e.2 := by
  rw [get?_ofFirst, List.find?_map, Option.map_map]
  rfl

end OrderedMap

end Predeclare
