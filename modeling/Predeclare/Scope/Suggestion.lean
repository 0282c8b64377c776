import Predeclare.Source

set_option relaxedAutoImplicit false
set_option autoImplicit false

/-!
# Suggestions for an unknown name

A name that is not declared is often a misspelling of one that is. Of the names that are visible,
those within a small edit distance are offered, closest first; among equally close names the one
listed first wins. A name that is listed again, because an outer scope declares it too, counts
once.

The distance of two texts is counted in insertions, deletions and substitutions of single
characters. It is computed row by row: the row of a beginning `a` of the source holds, for every
beginning `b` of the target, the distance of `a` and `b`. Only two rows are kept. The row of what
has been read is looked up in, and the next row is written over the one before it, so the row that
is written to still holds entries of an earlier round. Then the two change places.

## Main definitions

* `EditDistance.Rows` — the two rows.
* `EditDistance.fillRow`, `EditDistance.Rows.next` — the next row, and the rows after it.
* `editDistance` — the last entry of the last row.
* `Suggestion.candidates` — the other names of a list, each once.
* `suggestions` — the names that are offered.
-/

namespace Predeclare

/-! ## Edit distance -/

namespace EditDistance

/-- The two rows that are kept, for a target of `m` characters. -/
structure Rows (m : Nat) where
  /-- The row of what has been read of the source. -/
  previous : Vector Nat (m + 1)
  /-- The row to write next. What it holds is left over from an earlier round. -/
  current : Vector Nat (m + 1)

/-- Writes the entries of a row that come behind its entry in `column`, where `rest` is what the
target holds there. Each entry is the least of three: one more than the entry above, one more than
the entry on the left, and the entry above on the left, plus one if the characters differ. -/
def fillRow {m : Nat} (previous : Vector Nat (m + 1)) (c : Char) :
    (rest : List Char) → (column : Nat) → column + rest.length = m → Vector Nat (m + 1) →
      Vector Nat (m + 1)
  | [], _, _, current => current
  | d :: rest, column, h, current =>
    have inside : column + rest.length + 1 = m := by simpa [Nat.add_assoc] using h
    let substitution := previous[column] + if c = d then 0 else 1
    let entry := min (min substitution (previous[column + 1] + 1)) (current[column] + 1)
    fillRow previous c rest (column + 1) (by omega) (current.set (column + 1) entry)

/-- The rows of the empty source: each target is built by insertions, and nothing has been written
to the second row. -/
def Rows.first (m : Nat) : Rows m := ⟨Vector.ofFn fun column => column.val, Vector.replicate _ 0⟩

/-- The rows after one more character of the source, the one in place `read.2`. -/
def Rows.next (target : List Char) (rows : Rows target.length) (read : Char × Nat) :
    Rows target.length where
  previous := fillRow rows.previous read.1 target 0 (Nat.zero_add _)
    (rows.current.set 0 (read.2 + 1))
  current := rows.previous

end EditDistance

open EditDistance in
/-- The number of single-character edits that lead from one text to another. -/
def editDistance (source target : String) : Nat :=
  let rows := source.toList.zipIdx.foldl (Rows.next target.toList) (.first _)
  rows.previous[target.toList.length]

/-! ## Suggestions -/

namespace Suggestion

/-- Names further away than this are not offered. -/
def maxDistance : Nat := 3

/-- No more names than this are offered. -/
def maxCount : Nat := 3

/-- The names of a list other than `name`, each at its first place. -/
def candidates (name : Name) (available : List Name) : List Name :=
  (available.filter (· ≠ name)).eraseDups

/-- A candidate together with its distance from a spelling. -/
def measure (I : Interner) (target : String) (candidate : Name) : Except Fault (Name × Nat) :=
  match I.spelling candidate with
  | .ok s => .ok (candidate, editDistance target s)
  | .error fault => .error fault

/-- The closest candidates, closest first, equally close ones in their given order. -/
def closest (measured : List (Name × Nat)) : List Name :=
  let near := measured.filter fun m => m.2 ≤ maxDistance
  ((near.mergeSort fun a b => a.2 ≤ b.2).take maxCount).map Prod.fst

end Suggestion

open Suggestion in
/-- The names of `available` to offer in place of `name`. -/
def suggestions (I : Interner) (name : Name) (available : List Name) :
    Except Fault (List Name) := do
  let target ← I.spelling name
  let measured ← (candidates name available).mapM (measure I target)
  return closest measured

end Predeclare
