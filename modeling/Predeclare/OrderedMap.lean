set_option relaxedAutoImplicit false
set_option autoImplicit false

/-!
# Maps that remember insertion order

An ordered map is a list of entries in which no key occurs twice. Inserting under a new key
appends an entry; inserting under an old key replaces the value and leaves the entry where it
is. The order of the entries is therefore the order in which the keys were first inserted.

## Main definitions

* `OrderedMap`, `OrderedMap.get?`, `OrderedMap.insert` — the maps, look-up and insertion.
* `OrderedMap.keys`, `OrderedMap.values` — the keys and the values in insertion order.

## Main results

* `OrderedMap.get?_insert` — look-up after an insertion.
* `OrderedMap.keys_insert` — the keys after an insertion.
* `OrderedMap.get?_eq_some_iff`, `OrderedMap.get?_eq_none_iff` — look-up read on the entries.
-/

namespace Predeclare

/-- A map with entries in insertion order, each key at most once. -/
structure OrderedMap (κ α : Type) where
  entries : List (κ × α)
  nodup_keys : (entries.map Prod.fst).Nodup

namespace OrderedMap

variable {κ α : Type}

/-- The keys, in the order of their first insertion. -/
def keys (m : OrderedMap κ α) : List κ := m.entries.map Prod.fst

/-- The values, in the order of their keys. -/
def values (m : OrderedMap κ α) : List α := m.entries.map Prod.snd

/-- The number of keys. -/
def size (m : OrderedMap κ α) : Nat := m.entries.length

/-- Whether the map has no entry. -/
def isEmpty (m : OrderedMap κ α) : Bool := m.entries.isEmpty

/-- The map without entries. -/
def empty : OrderedMap κ α := ⟨[], List.nodup_nil⟩

@[ext] theorem ext {m m' : OrderedMap κ α} (h : m.entries = m'.entries) : m = m' := by
  cases m; cases m'; cases h; rfl

@[simp] theorem entries_empty : (empty : OrderedMap κ α).entries = [] := rfl

@[simp] theorem keys_empty : (empty : OrderedMap κ α).keys = [] := rfl

theorem nodup (m : OrderedMap κ α) : m.keys.Nodup := m.nodup_keys

/-- A key has one value.

**Proof sketch.** Induction on the entries. Both pairs are the first entry, or both are among the
others; a pair of each kind would repeat the key. -/
theorem eq_of_mem_entries {m : OrderedMap κ α} {k : κ} {a b : α} (ha : (k, a) ∈ m.entries)
    (hb : (k, b) ∈ m.entries) : a = b := by
  have nodup := m.nodup_keys
  revert ha hb nodup
  generalize m.entries = es
  induction es with
  | nil => intro ha; simp at ha
  | cons e rest ih =>
    intro ha hb nodup
    simp only [List.map_cons, List.nodup_cons, List.mem_map, not_exists, not_and] at nodup
    rcases List.mem_cons.1 ha with ha | ha <;> rcases List.mem_cons.1 hb with hb | hb
    · exact (Prod.mk.inj (ha.trans hb.symm)).2
    · exact absurd (by rw [← ha]) (nodup.1 (k, b) hb)
    · exact absurd (by rw [← hb]) (nodup.1 (k, a) ha)
    · exact ih ha hb nodup.2

section Lookup

variable [DecidableEq κ]

instance [DecidableEq α] : DecidableEq (OrderedMap κ α) := fun m m' =>
  decidable_of_iff (m.entries = m'.entries) ⟨ext, fun h => h ▸ rfl⟩

/-- The value of a key. -/
def get? (m : OrderedMap κ α) (k : κ) : Option α := (m.entries.find? (·.1 = k)).map Prod.snd

/-- Whether a key has a value. -/
def contains (m : OrderedMap κ α) (k : κ) : Bool := decide (k ∈ m.keys)

@[simp] theorem get?_empty (k : κ) : (empty : OrderedMap κ α).get? k = none := rfl

/-- A map answers with the value of the entry that has the key.

**Proof sketch.** The entry that is found has the key. Conversely some entry is found, and by
`eq_of_mem_entries` it has the value asked for. -/
theorem get?_eq_some_iff {m : OrderedMap κ α} {k : κ} {a : α} :
    m.get? k = some a ↔ (k, a) ∈ m.entries := by
  constructor
  · intro h
    obtain ⟨e, found, rfl⟩ := Option.map_eq_some_iff.1 h
    have key := List.find?_some found
    simp only [decide_eq_true_eq] at key
    exact key ▸ List.mem_of_find?_eq_some found
  · intro h
    cases found : m.entries.find? (·.1 = k) with
    | none =>
      have := List.find?_eq_none.1 found (k, a) h
      simp at this
    | some e =>
      have key := List.find?_some found
      simp only [decide_eq_true_eq] at key
      have mem := List.mem_of_find?_eq_some found
      have : (k, e.2) ∈ m.entries := key ▸ mem
      simp [get?, found, eq_of_mem_entries h this]

theorem get?_eq_none_iff {m : OrderedMap κ α} {k : κ} : m.get? k = none ↔ k ∉ m.keys := by
  simp only [get?, Option.map_eq_none_iff, List.find?_eq_none, decide_eq_true_eq, keys,
    List.mem_map, not_exists, not_and]

theorem contains_iff {m : OrderedMap κ α} {k : κ} : m.contains k = true ↔ k ∈ m.keys := by
  simp [contains]

theorem contains_eq_isSome {m : OrderedMap κ α} {k : κ} : m.contains k = (m.get? k).isSome := by
  cases h : m.get? k with
  | none => simp [contains, get?_eq_none_iff.1 h]
  | some a =>
    have mem : k ∈ m.keys := List.mem_map_of_mem (f := Prod.fst) (get?_eq_some_iff.1 h)
    simp [contains, mem]

/-- The entries after an insertion: an old entry keeps its place, a new one comes last. -/
def insertEntry (entries : List (κ × α)) (k : κ) (a : α) : List (κ × α) :=
  if k ∈ entries.map Prod.fst then entries.map fun e => if e.1 = k then (k, a) else e
  else entries ++ [(k, a)]

theorem map_fst_insertEntry (entries : List (κ × α)) (k : κ) (a : α) :
    (insertEntry entries k a).map Prod.fst =
      if k ∈ entries.map Prod.fst then entries.map Prod.fst else entries.map Prod.fst ++ [k] := by
  unfold insertEntry
  split
  · rw [List.map_map]
    refine List.map_congr_left fun e _ => ?_
    by_cases h : e.1 = k <;> simp [h]
  · simp

/-- Gives a key a value. -/
def insert (m : OrderedMap κ α) (k : κ) (a : α) : OrderedMap κ α where
  entries := insertEntry m.entries k a
  nodup_keys := by
    rw [map_fst_insertEntry]
    split
    · exact m.nodup_keys
    · rename_i h
      exact List.nodup_append.2 ⟨m.nodup_keys, by simp, fun x hx y hy => by
        rw [List.mem_singleton.1 hy]
        exact fun e => h (e ▸ hx)⟩

theorem keys_insert (m : OrderedMap κ α) (k : κ) (a : α) :
    (m.insert k a).keys = if k ∈ m.keys then m.keys else m.keys ++ [k] :=
  map_fst_insertEntry m.entries k a

theorem mem_keys_insert {m : OrderedMap κ α} {k k' : κ} {a : α} :
    k' ∈ (m.insert k a).keys ↔ k' ∈ m.keys ∨ k' = k := by
  rw [keys_insert]
  split
  · rename_i h
    exact ⟨Or.inl, fun h' => h'.elim id fun heq => heq ▸ h⟩
  · rw [List.mem_append, List.mem_singleton]

theorem entries_insert_of_mem {m : OrderedMap κ α} {k : κ} (h : k ∈ m.keys) (a : α) :
    (m.insert k a).entries = m.entries.map fun e => if e.1 = k then (k, a) else e :=
  if_pos h

theorem entries_insert_of_notMem {m : OrderedMap κ α} {k : κ} (h : k ∉ m.keys) (a : α) :
    (m.insert k a).entries = m.entries ++ [(k, a)] :=
  if_neg h

/-- An entry after an insertion is the new one, or an old one with another key.

**Proof sketch.** If the key occurs, its entry is replaced where it stands; otherwise the new entry
is put behind all others. -/
theorem mem_entries_insert {m : OrderedMap κ α} {k : κ} {a : α} {e : κ × α} :
    e ∈ (m.insert k a).entries ↔ e = (k, a) ∨ e ∈ m.entries ∧ e.1 ≠ k := by
  show e ∈ insertEntry m.entries k a ↔ _
  unfold insertEntry
  split
  · rename_i h
    simp only [List.mem_map]
    constructor
    · rintro ⟨x, hx, rfl⟩
      by_cases hk : x.1 = k
      · simp [hk]
      · simp [hk, hx]
    · rintro (rfl | ⟨he, hk⟩)
      · obtain ⟨x, hx, hk⟩ := List.mem_map.1 h
        exact ⟨x, hx, by simp [hk]⟩
      · exact ⟨e, he, by simp [hk]⟩
  · rename_i h
    simp only [List.mem_append, List.mem_singleton]
    constructor
    · rintro (he | rfl)
      · exact Or.inr ⟨he, fun hk => h (hk ▸ List.mem_map_of_mem he)⟩
      · exact Or.inl rfl
    · rintro (rfl | ⟨he, _⟩)
      · exact Or.inr rfl
      · exact Or.inl he

theorem get?_insert (m : OrderedMap κ α) (k : κ) (a : α) (k' : κ) :
    (m.insert k a).get? k' = if k' = k then some a else m.get? k' := by
  apply Option.ext
  intro b
  rw [get?_eq_some_iff, mem_entries_insert]
  split
  · rename_i h
    subst h
    simp [eq_comm]
  · rename_i h
    simp [h, get?_eq_some_iff]

end Lookup

end OrderedMap

end Predeclare
