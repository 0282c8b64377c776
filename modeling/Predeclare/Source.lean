import Predeclare.Tree.Kind

set_option relaxedAutoImplicit false
set_option autoImplicit false

/-!
# Source locations, names and faults

A location is a half-open range of byte offsets in a numbered file. Ranges are combined with
`Span.cover`, which takes the least range containing both; nothing forces the start of a range
to come before its end, and `cover` treats the two ends independently.

Spellings are stored once and handed out as numbered names. An interner is the list of the
spellings seen so far, without repetition; the number of a name is the place of its spelling in
that list. Two names are equal exactly when their spellings are, and a name keeps its spelling
whatever is interned later.

A fault is a broken promise of the caller, as opposed to an error in the program being
compiled: a node given to two parents, an identifier without a name, a number that was never
handed out. A computation that meets a fault has no result.

## Main definitions

* `Span`, `Span.cover` — a range of byte offsets and the least range covering two of them.
* `FileId`, `FileSpan` — a numbered file, and a range inside one.
* `Fault`, `Fault.message` — the causes of faults and the wording of each cause.
* `Name`, `Interner` — numbered names and the spellings behind them.
* `Interner.intern`, `Interner.internAll` — the name of a spelling, added when it is new.
* `Interner.find?`, `Interner.spelling` — the two directions of look-up.

## Main results

* `Interner.spelling_intern` — the name of a spelling has that spelling.
* `Interner.spellings_isPrefixOf_intern` — interning keeps the names there are.
-/

namespace Predeclare

/-! ## Locations -/

/-- A range of byte offsets: `start` is included, `stop` is not. -/
structure Span where
  start : Nat
  stop : Nat
  deriving DecidableEq, Repr

namespace Span

/-- The location of things that no source text introduces. -/
def origin : Span := ⟨0, 0⟩

/-- The least range that covers both ranges. -/
def cover (a b : Span) : Span := ⟨min a.start b.start, max a.stop b.stop⟩

/-- The range covering every range of a list; the empty list has none. -/
def coverAll : List Span → Option Span
  | [] => none
  | a :: rest => some (rest.foldl cover a)

/-- Written form: both offsets with two dots between them. -/
def text (a : Span) : String := toString a.start ++ ".." ++ toString a.stop

end Span

/-- The number of a source file. -/
structure FileId where
  index : Nat
  deriving DecidableEq, Repr

/-- Written form: the word `file` and the number after a hash sign. -/
def FileId.text (f : FileId) : String := "file#" ++ toString f.index

/-- A range inside a file. -/
structure FileSpan where
  file : FileId
  span : Span
  deriving DecidableEq, Repr

/-- Written form: the file, a colon, the range. -/
def FileSpan.text (s : FileSpan) : String := s.file.text ++ ":" ++ s.span.text

/-! ## Faults -/

/-- A promise of the caller that does not hold. -/
inductive Fault where
  /-- A node that has a parent already is given as a child. -/
  | attachedTwice
  /-- A number that denotes no node of the tree under construction. -/
  | unknownNode
  /-- The source text is too long for 32-bit offsets. -/
  | offsetOverflow
  /-- A name that the interner does not know. -/
  | unknownName
  /-- A number that denotes no scope. -/
  | unknownScope
  /-- A node of this kind was asked to declare a symbol. -/
  | cannotDeclare (kind : SyntaxKind)
  /-- A target identifier with an empty name. -/
  | emptyIdentifier
  deriving DecidableEq, Repr

/-- The wording of a fault. -/
def Fault.message : Fault → String
  | attachedTwice => "node attached to two parents"
  | unknownNode => "no such node"
  | offsetOverflow => "attempt to add with overflow"
  | unknownName => "no such name"
  | unknownScope => "no such scope"
  | cannotDeclare kind => kind.text ++ " cannot declare a symbol"
  | emptyIdentifier => "identifier names are never empty"

/-! ## Names -/

/-- A numbered name. -/
structure Name where
  index : Nat
  deriving DecidableEq, Repr

/-- The spellings seen so far, each once. -/
structure Interner where
  spellings : List String
  nodup : spellings.Nodup

namespace Interner

/-- The interner that has seen nothing. -/
def empty : Interner := ⟨[], List.nodup_nil⟩

/-- The number of names. -/
def size (I : Interner) : Nat := I.spellings.length

/-- The name of a spelling seen before. -/
def find? (I : Interner) (s : String) : Option Name := (I.spellings.idxOf? s).map Name.mk

/-- The spelling of a known name. -/
def spelling (I : Interner) (name : Name) : Except Fault String :=
  match I.spellings[name.index]? with
  | some s => .ok s
  | none => .error .unknownName

/-- The name of a spelling, which is added when it is new. -/
def intern (I : Interner) (s : String) : Name × Interner :=
  if h : s ∈ I.spellings then (⟨I.spellings.idxOf s⟩, I)
  else
    (⟨I.size⟩,
      ⟨I.spellings ++ [s], List.nodup_append.2 ⟨I.nodup, by simp, fun a ha b hb => by
        rw [List.mem_singleton.1 hb]
        exact fun e => h (e ▸ ha)⟩⟩)

/-- Interns an optional spelling. -/
def intern? (I : Interner) : Option String → Option Name × Interner
  | none => (none, I)
  | some s => (some (I.intern s).1, (I.intern s).2)

/-- Interns a list of spellings from left to right. -/
def internAll (I : Interner) : List String → List Name × Interner
  | [] => ([], I)
  | s :: rest =>
    let (name, I₁) := I.intern s
    let (names, I₂) := I₁.internAll rest
    (name :: names, I₂)

theorem spelling_eq_ok_iff {I : Interner} {name : Name} {s : String} :
    I.spelling name = .ok s ↔ I.spellings[name.index]? = some s := by
  unfold spelling
  split <;> rename_i h <;> simp [h]

/-- The name of a spelling has that spelling. -/
theorem spelling_intern (I : Interner) (s : String) :
    (I.intern s).2.spelling (I.intern s).1 = .ok s := by
  rw [spelling_eq_ok_iff]
  unfold intern
  split
  · rename_i h
    simp only
    rw [List.getElem?_eq_getElem (List.idxOf_lt_length_of_mem h)]
    exact congrArg some (List.getElem_idxOf _)
  · simp [size]

/-- The spellings only grow. -/
theorem spellings_isPrefixOf_intern (I : Interner) (s : String) :
    I.spellings <+: (I.intern s).2.spellings := by
  unfold intern
  split
  · exact List.prefix_rfl
  · exact List.prefix_append _ _

end Interner

end Predeclare
