import Mathlib.Order.Bounds.Basic
import Predeclare.Scope.Suggestion

set_option relaxedAutoImplicit false
set_option autoImplicit false

/-!
# Edit scripts

A script is a list of edits that are made one after the other, each at some place of the text that
the edits before it have left. The edit distance of two texts is the length of a shortest script
that turns one into the other. The table computes it from the ends of the texts: either the last
character of the source is deleted, or the last one of the target is inserted, or the two are put on
top of each other.

## Main definitions

* `Edit`, `runScript?` — one edit, and what a script makes of a text.
* `EditableIn` — some script of a given length turns one text into another.
* `fewestEdits` — the recursion that the table follows.

## Main results

* `editableIn_fewestEdits` — the recursion counts the edits of some script.
* `EditableIn.fewestEdits_le` — no script is shorter.
* `EditDistance.isRow_next` — a round of the table turns a row into the next one.
* `editDistance_isLeast_length` — the edit distance is the length of a shortest script.
-/

namespace Predeclare

/-! ## Scripts -/

/-- A change of a text at one place; places count characters from the front. -/
inductive Edit where
  /-- Puts a character in front of the one at a place, or behind the last one. -/
  | insert (place : Nat) (c : Char)
  /-- Takes the character at a place out. -/
  | delete (place : Nat)
  /-- Puts a character in place of another one. -/
  | substitute (place : Nat) (c : Char)
  deriving DecidableEq, Repr

/-- What an edit makes of a text, if the text has the place. -/
def Edit.perform? : Edit → List Char → Option (List Char)
  | insert place c, s =>
    if place ≤ s.length then some (s.take place ++ c :: s.drop place) else none
  | delete place, s =>
    if place < s.length then some (s.take place ++ s.drop (place + 1)) else none
  | substitute place c, s =>
    if place < s.length then some (s.take place ++ c :: s.drop (place + 1)) else none

/-- What a script makes of a text, if each of its edits finds its place. -/
def runScript? : List Edit → List Char → Option (List Char)
  | [], s => some s
  | e :: script, s => (e.perform? s).bind (runScript? script)

namespace Edit

variable {e : Edit} {s s' u v w : List Char} {c d : Char}

@[simp] lemma perform?_insert_length :
    (insert u.length c).perform? (u ++ v) = some (u ++ c :: v) := by
  simp [perform?]

@[simp] lemma perform?_delete_length :
    (delete u.length).perform? (u ++ c :: v) = some (u ++ v) := by
  simp [perform?]

@[simp] lemma perform?_substitute_length :
    (substitute u.length d).perform? (u ++ c :: v) = some (u ++ d :: v) := by
  simp [perform?]

/-- A character is inserted behind the last one. -/
lemma perform?_insert_last : (insert s.length c).perform? s = some (s ++ [c]) := by
  simp [perform?]

/-- The last character is deleted. -/
lemma perform?_delete_last : (delete s.length).perform? (s ++ [c]) = some s := by
  simp [perform?]

/-- The last character is replaced. -/
lemma perform?_substitute_last : (substitute s.length d).perform? (s ++ [c]) = some (s ++ [d]) :=
  perform?_substitute_length

/-- A text that has a character at a place consists of what comes before, the character, and what
comes behind. -/
lemma exists_eq_append_cons {place : Nat} (h : place < s.length) :
    ∃ u c v, u.length = place ∧ s = u ++ c :: v := by
  refine ⟨s.take place, s[place], s.drop (place + 1), ?_, ?_⟩
  · simp only [List.length_take]
    omega
  · rw [← List.drop_eq_getElem_cons h, List.take_append_drop]

/-- **What an edit does**: it inserts, deletes or replaces one character between two parts of the
text that stay as they are.

**Proof sketch.** One case for each kind of edit. The place cuts the text into two parts. -/
theorem perform?_cases (h : e.perform? s = some s') :
    ∃ u v, (∃ c, e = insert u.length c ∧ s = u ++ v ∧ s' = u ++ c :: v) ∨
      (∃ c, e = delete u.length ∧ s = u ++ c :: v ∧ s' = u ++ v) ∨
      (∃ c d, e = substitute u.length d ∧ s = u ++ c :: v ∧ s' = u ++ d :: v) := by
  cases e with
  | insert place c =>
    simp only [perform?, Option.ite_none_right_eq_some, Option.some.injEq] at h
    obtain ⟨hplace, rfl⟩ := h
    refine ⟨s.take place, s.drop place, Or.inl ⟨c, ?_, (List.take_append_drop place s).symm, rfl⟩⟩
    rw [List.length_take_of_le hplace]
  | delete place =>
    simp only [perform?, Option.ite_none_right_eq_some] at h
    obtain ⟨u, c, v, rfl, rfl⟩ := exists_eq_append_cons h.1
    refine ⟨u, v, Or.inr (Or.inl ⟨c, rfl, rfl, ?_⟩)⟩
    simpa using h.2.symm
  | substitute place d =>
    simp only [perform?, Option.ite_none_right_eq_some] at h
    obtain ⟨u, c, v, rfl, rfl⟩ := exists_eq_append_cons h.1
    refine ⟨u, v, Or.inr (Or.inr ⟨c, d, rfl, rfl, ?_⟩)⟩
    simpa using h.2.symm

/-- An edit does not see what is added behind the text. -/
lemma perform?_append (h : e.perform? s = some s') : e.perform? (s ++ w) = some (s' ++ w) := by
  obtain ⟨u, v, ⟨c, rfl, rfl, rfl⟩ | ⟨c, rfl, rfl, rfl⟩ | ⟨c, d, rfl, rfl, rfl⟩⟩ :=
    perform?_cases h <;> simp

end Edit

/-- Some script of `k` edits turns the first text into the second one. -/
def EditableIn (k : Nat) (s s' : List Char) : Prop :=
  ∃ script, script.length = k ∧ runScript? script s = some s'

namespace EditableIn

variable {k : Nat} {e : Edit} {s s₁ s₂ : List Char}

/-- A text need not be changed to become itself. -/
lemma refl (s : List Char) : EditableIn 0 s s := ⟨[], rfl, rfl⟩

/-- One more edit in front of a script. -/
lemma cons (he : e.perform? s = some s₁) (h : EditableIn k s₁ s₂) : EditableIn (k + 1) s s₂ := by
  obtain ⟨script, hlength, hrun⟩ := h
  refine ⟨e :: script, by simp [hlength], ?_⟩
  simp only [runScript?, he, Option.bind_some, hrun]

/-- One more edit behind a script. -/
lemma concat (h : EditableIn k s s₁) (he : e.perform? s₁ = some s₂) : EditableIn (k + 1) s s₂ := by
  obtain ⟨script, rfl, hrun⟩ := h
  induction script generalizing s with
  | nil =>
    obtain rfl : s = s₁ := Option.some.inj hrun
    exact (refl s₂).cons he
  | cons e' script ih =>
    obtain ⟨s', he', hrest⟩ := Option.bind_eq_some_iff.1 hrun
    exact (ih hrest).cons he'

/-- A script does not see what is added behind the text. -/
lemma append (h : EditableIn k s s₁) (w : List Char) : EditableIn k (s ++ w) (s₁ ++ w) := by
  obtain ⟨script, rfl, hrun⟩ := h
  induction script generalizing s with
  | nil =>
    obtain rfl : s = s₁ := Option.some.inj hrun
    exact refl (s ++ w)
  | cons e' script ih =>
    obtain ⟨s', he', hrest⟩ := Option.bind_eq_some_iff.1 hrun
    exact (ih hrest).cons (Edit.perform?_append he')

end EditableIn

/-! ## The recursion -/

/-- The recursion that the table follows. Both texts are given from their last character to their
first one. -/
def fewestEdits : List Char → List Char → Nat
  | [], [] => 0
  | c :: a, [] => fewestEdits a [] + 1
  | [], d :: b => fewestEdits [] b + 1
  | c :: a, d :: b =>
    min (min (fewestEdits a b + if c = d then 0 else 1) (fewestEdits a (d :: b) + 1))
      (fewestEdits (c :: a) b + 1)
termination_by a b => a.length + b.length

section Recursion

variable (a b : List Char) (c d : Char)

@[simp] lemma fewestEdits_nil_nil : fewestEdits [] [] = 0 := by
  rw [fewestEdits]

@[simp] lemma fewestEdits_cons_nil : fewestEdits (c :: a) [] = fewestEdits a [] + 1 := by
  rw [fewestEdits]

@[simp] lemma fewestEdits_nil_cons : fewestEdits [] (d :: b) = fewestEdits [] b + 1 := by
  rw [fewestEdits]

lemma fewestEdits_cons_cons :
    fewestEdits (c :: a) (d :: b) =
      min (min (fewestEdits a b + if c = d then 0 else 1) (fewestEdits a (d :: b) + 1))
        (fewestEdits (c :: a) b + 1) := by
  rw [fewestEdits]

/-- A text is built by inserting its characters. -/
@[simp] lemma fewestEdits_nil_left : fewestEdits [] b = b.length := by
  induction b with
  | nil => simp
  | cons d b ih => simp [ih]

/-- A text is emptied by deleting its characters. -/
@[simp] lemma fewestEdits_nil_right : fewestEdits a [] = a.length := by
  induction a with
  | nil => simp
  | cons c a ih => simp [ih]

/-- A text need not be changed to become itself. -/
lemma fewestEdits_self : fewestEdits a a = 0 := by
  induction a with
  | nil => simp
  | cons c a ih => simp [fewestEdits_cons_cons, ih]

end Recursion

/-- **The recursion counts the edits of some script.**

**Proof sketch.** Induction along the recursion. Places are counted from the front, so a script for
the source without its last character leaves this character alone; what is left to do is to delete
it, or to put the last character of the target in its place. A script that leads to the target
without its last character is followed by the insertion of this character. -/
theorem editableIn_fewestEdits (a b : List Char) :
    EditableIn (fewestEdits a b) a.reverse b.reverse := by
  induction a, b using fewestEdits.induct with
  | case1 =>
    rw [fewestEdits_nil_nil]
    exact .refl []
  | case2 c a ih =>
    rw [fewestEdits_cons_nil, List.reverse_cons]
    exact ih.cons Edit.perform?_delete_last
  | case3 d b ih =>
    rw [fewestEdits_nil_cons, List.reverse_cons]
    exact ih.concat Edit.perform?_insert_last
  | case4 c a d b corner up left =>
    have hcorner : EditableIn (fewestEdits a b + if c = d then 0 else 1)
        (c :: a).reverse (d :: b).reverse := by
      rw [List.reverse_cons, List.reverse_cons]
      split
      · rename_i hsame
        subst hsame
        exact corner.append [c]
      · exact (corner.append [c]).concat Edit.perform?_substitute_last
    have hup : EditableIn (fewestEdits a (d :: b) + 1) (c :: a).reverse (d :: b).reverse := by
      rw [List.reverse_cons]
      exact up.cons Edit.perform?_delete_last
    have hleft : EditableIn (fewestEdits (c :: a) b + 1) (c :: a).reverse (d :: b).reverse := by
      rw [List.reverse_cons (a := d)]
      exact left.concat Edit.perform?_insert_last
    -- the least of the three is one of them, so its script will do
    have hleast : fewestEdits (c :: a) (d :: b) = fewestEdits a b + (if c = d then 0 else 1) ∨
        fewestEdits (c :: a) (d :: b) = fewestEdits a (d :: b) + 1 ∨
        fewestEdits (c :: a) (d :: b) = fewestEdits (c :: a) b + 1 := by
      rw [fewestEdits_cons_cons]
      omega
    rcases hleast with h | h | h <;> rwa [h]

/-! ## No script is shorter -/

/-- Two texts differ in one edit. -/
inductive OneEditApart : List Char → List Char → Prop where
  | insert (c : Char) (a : List Char) : OneEditApart a (c :: a)
  | delete (c : Char) (a : List Char) : OneEditApart (c :: a) a
  | substitute (c d : Char) (a : List Char) : OneEditApart (c :: a) (d :: a)
  | cons (c : Char) {a a' : List Char} (h : OneEditApart a a') : OneEditApart (c :: a) (c :: a')

/-- The same text can be put in front. -/
lemma OneEditApart.append_left {a a' : List Char} (h : OneEditApart a a') (u : List Char) :
    OneEditApart (u ++ a) (u ++ a') := by
  induction u with
  | nil => exact h
  | cons c u ih => exact .cons c ih

/-- An edit leads to a text that differs in one edit, read from the front or from the back. -/
lemma Edit.oneEditApart_reverse {e : Edit} {s s' : List Char} (h : e.perform? s = some s') :
    OneEditApart s.reverse s'.reverse := by
  obtain ⟨u, v, ⟨c, rfl, rfl, rfl⟩ | ⟨c, rfl, rfl, rfl⟩ | ⟨c, d, rfl, rfl, rfl⟩⟩ := perform?_cases h
  · simpa using (OneEditApart.insert c u.reverse).append_left v.reverse
  · simpa using (OneEditApart.delete c u.reverse).append_left v.reverse
  · simpa using (OneEditApart.substitute c d u.reverse).append_left v.reverse

section Bounds

variable (a b : List Char) (c d : Char)

/-- One character more of the source costs one edit at most. -/
lemma fewestEdits_cons_left_le : fewestEdits (c :: a) b ≤ fewestEdits a b + 1 := by
  cases b with
  | nil => simp
  | cons d b =>
    rw [fewestEdits_cons_cons]
    omega

/-- One character more of the target costs one edit at most. -/
lemma fewestEdits_cons_right_le : fewestEdits a (d :: b) ≤ fewestEdits a b + 1 := by
  cases a with
  | nil => simp
  | cons c a =>
    rw [fewestEdits_cons_cons]
    omega

/-- One character less of the source costs one edit at most. -/
lemma fewestEdits_le_cons_left : fewestEdits a b ≤ fewestEdits (c :: a) b + 1 := by
  induction b with
  | nil =>
    simp only [fewestEdits_nil_right, List.length_cons]
    omega
  | cons d b ih =>
    have := fewestEdits_cons_right_le a b d
    rw [fewestEdits_cons_cons]
    omega

/-- Another last character of the source costs one edit at most. -/
lemma fewestEdits_substitute_le : fewestEdits (c :: a) b ≤ fewestEdits (d :: a) b + 1 := by
  induction b with
  | nil => simp
  | cons x b ih =>
    rw [fewestEdits_cons_cons, fewestEdits_cons_cons]
    split <;> omega

end Bounds

/-- **One edit of the source changes the number of edits by one at most.**

**Proof sketch.** Where the two sources share their last character, each of the three ways of the
recursion goes on with sources that are one edit apart, or with a shorter target. -/
theorem OneEditApart.fewestEdits_le {a a' : List Char} (h : OneEditApart a a') (b : List Char) :
    fewestEdits a b ≤ fewestEdits a' b + 1 := by
  induction h generalizing b with
  | insert c a => exact fewestEdits_le_cons_left a b c
  | delete c a => exact fewestEdits_cons_left_le a b c
  | substitute c d a => exact fewestEdits_substitute_le a b c d
  | @cons c a a' _ ih =>
    induction b with
    | nil =>
      have := ih []
      rw [fewestEdits_cons_nil, fewestEdits_cons_nil]
      omega
    | cons d b ihb =>
      have hcorner := ih b
      have hup := ih (d :: b)
      rw [fewestEdits_cons_cons, fewestEdits_cons_cons]
      omega

/-- **No script is shorter** than what the recursion counts.

**Proof sketch.** By induction on the script: its first edit changes the count by at most one
(`fewestEdits_le` of texts one edit apart), and the edits that follow are a script for what is
left. -/
theorem EditableIn.fewestEdits_le {k : Nat} {s s' : List Char} (h : EditableIn k s s') :
    fewestEdits s.reverse s'.reverse ≤ k := by
  obtain ⟨script, rfl, hrun⟩ := h
  induction script generalizing s with
  | nil =>
    obtain rfl : s = s' := Option.some.inj hrun
    exact Nat.le_of_eq (fewestEdits_self s.reverse)
  | cons e script ih =>
    obtain ⟨s₁, he, hrest⟩ := Option.bind_eq_some_iff.1 hrun
    have hstep := (Edit.oneEditApart_reverse he).fewestEdits_le s'.reverse
    have hscript := ih hrest
    rw [List.length_cons]
    omega

/-! ## The table -/

namespace EditDistance

/-- The row of a beginning `a` of the source: its entries count the edits that lead from `a` to the
beginnings of the target. -/
def IsRow (a target : List Char) (row : Vector Nat (target.length + 1)) : Prop :=
  ∀ (j : Nat) (hj : j < target.length + 1), row[j] = fewestEdits a.reverse (target.take j).reverse

/-- The first row is that of the empty source. -/
lemma isRow_first (target : List Char) : IsRow [] target (Rows.first target.length).previous := by
  intro j hj
  simp only [Rows.first, Vector.getElem_ofFn, List.reverse_nil, fewestEdits_nil_left,
    List.length_reverse, List.length_take]
  omega

/-- **Filling a row.** If a row is right up to a column, whatever it holds behind it, it is right as
a whole once the entries behind the column have been written.

**Proof sketch.** Induction on the part of the target that is still to be written. The new entry is
the least of the three that the recursion asks for: two stand in the previous row, and the third has
just been written in front of it. -/
theorem isRow_fillRow {a target : List Char} {c : Char} {previous : Vector Nat (target.length + 1)}
    (hprevious : IsRow a target previous) (rest : List Char) (column : Nat)
    (h : column + rest.length = target.length) (current : Vector Nat (target.length + 1))
    (hrest : target.drop column = rest)
    (hcurrent : ∀ (j : Nat) (hj : j < target.length + 1), j ≤ column →
      current[j] = fewestEdits (a ++ [c]).reverse (target.take j).reverse) :
    IsRow (a ++ [c]) target (fillRow previous c rest column h current) := by
  induction rest generalizing column current with
  | nil =>
    intro j hj
    simp only [List.length_nil] at h
    exact hcurrent j hj (by omega)
  | cons d rest ih =>
    simp only [List.length_cons] at h
    have htake : target.take (column + 1) = target.take column ++ [d] := by
      rw [List.take_add, hrest]
      rfl
    refine ih (column + 1) (by omega) _ ?_ ?_
    · rw [← List.drop_drop, hrest]
      rfl
    · intro j hj hle
      rcases Nat.lt_or_eq_of_le hle with hlt | rfl
      · rw [Vector.getElem_set_ne _ _ (by omega)]
        exact hcurrent j hj (by omega)
      · rw [Vector.getElem_set_self, htake, hcurrent column (by omega) (Nat.le_refl _),
          hprevious column (by omega), hprevious (column + 1) (by omega), htake]
        simp only [List.reverse_append, List.reverse_cons, List.reverse_nil, List.nil_append,
          List.singleton_append, fewestEdits_cons_cons]

/-- **One round of the table** turns a row into the next one, whatever the other row holds. -/
theorem isRow_next {a target : List Char} {rows : Rows target.length}
    (h : IsRow a target rows.previous) (c : Char) :
    IsRow (a ++ [c]) target (rows.next target (c, a.length)).previous := by
  refine isRow_fillRow h target 0 _ _ rfl fun j hj hle => ?_
  obtain rfl : j = 0 := by omega
  simp

/-- After reading `source`, the first of the two rows is the row of `source`. -/
lemma isRow_foldl {a target : List Char} {rows : Rows target.length}
    (h : IsRow a target rows.previous) (source : List Char) :
    IsRow (a ++ source) target
      ((source.zipIdx a.length).foldl (Rows.next target) rows).previous := by
  induction source generalizing a rows with
  | nil => simpa using h
  | cons c source ih =>
    have hrest := ih (isRow_next h c)
    simpa using hrest

end EditDistance

/-- The table computes what the recursion counts. -/
lemma editDistance_eq (source target : String) :
    editDistance source target =
      fewestEdits source.toList.reverse target.toList.reverse := by
  have hrow := EditDistance.isRow_foldl (EditDistance.isRow_first target.toList) source.toList
  have hlast := hrow target.toList.length (Nat.lt_succ_self _)
  rwa [List.take_length] at hlast

/-- **The edit distance is the length of a shortest script**: some script of this length turns the
source into the target, and no script of fewer insertions, deletions and substitutions of single
characters does.

**Proof sketch.** Both halves are about `fewestEdits` on the reversed texts, which the table
computes (`editDistance_eq`): `editableIn_fewestEdits` builds a script along the recursion, and
`EditableIn.fewestEdits_le` bounds any script from below. -/
theorem editDistance_isLeast_length (source target : String) :
    IsLeast {k | ∃ script : List Edit, script.length = k ∧
      runScript? script source.toList = some target.toList} (editDistance source target) := by
  rw [editDistance_eq]
  constructor
  · have hscript := editableIn_fewestEdits source.toList.reverse target.toList.reverse
    rwa [List.reverse_reverse, List.reverse_reverse] at hscript
  · intro k hk
    exact EditableIn.fewestEdits_le hk

/-- Two substitutions and an insertion at the end lead from `kitten` to `sitting`. -/
example : runScript? [.substitute 0 's', .substitute 4 'i', .insert 6 'g'] "kitten".toList =
    some "sitting".toList := by decide

end Predeclare
