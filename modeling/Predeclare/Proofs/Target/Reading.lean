import Mathlib.Data.List.TakeWhile
import Predeclare.Proofs.Target.Literal

set_option relaxedAutoImplicit false
set_option autoImplicit false

/-!
# Reading expressions

In the target an expression starts with a name or a string literal, and any number of properties
follow, each of them a name behind a dot. A name goes on as long as there are letters, digits and
underscores, and the name `nil` stands for the nil value. So a written expression can be read back
if its names are names of the target and none of its identifiers is spelled `nil`. What its strings
hold does not matter: a dot or a quote in a string is not read as one of the expression.

## Main definitions

* `IsTargetName` — the names of the target.
* `Expression.WellNamed` — the expressions whose names the target can read.
* `Expression.read?` — an expression, with what is left over behind its last property.

## Main results

* `Expression.read?_chars_append` — the reader goes on behind a written expression.
* `Expression.text_eq_iff` — different expressions are written differently.
-/

namespace Predeclare

/-! ## Names -/

/-- The characters that a name can start with: letters and the underscore. -/
def startsName (c : Char) : Bool := c.isAlpha || c = '_'

/-- The characters that a name can go on with: letters, digits and the underscore. -/
def continuesName (c : Char) : Bool := c.isAlphanum || c = '_'

/-- A name of the target: a character that can start it, and others that can go on with it. -/
def IsTargetName (name : String) : Prop :=
  name.toList.head?.any startsName ∧ name.toList.tail.all continuesName

instance (name : String) : Decidable (IsTargetName name) :=
  inferInstanceAs (Decidable (_ ∧ _))

/-- A name at the start of a text, as long as it goes on, with what is left over behind it. -/
def readName? (s : List Char) : Option (String × List Char) :=
  if s.head?.any startsName then
    some (String.ofList (s.takeWhile continuesName), s.dropWhile continuesName)
  else none

section Names

variable {name : String} {s rest : List Char}

/-- A name goes on with the character that it starts with. -/
lemma continuesName_of_startsName {c : Char} (h : startsName c) : continuesName c := by
  simp only [startsName, continuesName, Char.isAlphanum, Bool.or_eq_true] at h ⊢
  exact h.imp_left Or.inl

/-- All characters of a name can go on with it. -/
lemma IsTargetName.exists_eq_cons (h : IsTargetName name) :
    ∃ c cs, name.toList = c :: cs ∧ startsName c ∧ ∀ d ∈ c :: cs, continuesName d := by
  obtain ⟨hstart, htail⟩ := h
  cases hlist : name.toList with
  | nil => simp [hlist] at hstart
  | cons c cs =>
    rw [hlist] at hstart htail
    refine ⟨c, cs, rfl, hstart, List.forall_mem_cons.2 ⟨?_, List.all_eq_true.1 htail⟩⟩
    exact continuesName_of_startsName hstart

lemma length_readName? (h : readName? s = some (name, rest)) : rest.length ≤ s.length := by
  unfold readName? at h
  split at h
  · cases h
    exact (List.dropWhile_suffix _).length_le
  · cases h

/-- A name is read up to the first character that does not go on with it.

**Proof sketch.** The characters of the name go on with it, and the first one behind it does not. -/
lemma readName?_append (hname : IsTargetName name)
    (hrest : ∀ c ∈ rest.head?, continuesName c = false) :
    readName? (name.toList ++ rest) = some (name, rest) := by
  obtain ⟨c, cs, hlist, hstart, hall⟩ := hname.exists_eq_cons
  have hstop : rest.takeWhile continuesName = [] ∧ rest.dropWhile continuesName = rest := by
    cases rest with
    | nil => exact ⟨rfl, rfl⟩
    | cons d ds => simp [hrest d rfl]
  have htake : (name.toList ++ rest).takeWhile continuesName = name.toList := by
    rw [hlist, List.takeWhile_append_of_pos hall, hstop.1, List.append_nil]
  have hdrop : (name.toList ++ rest).dropWhile continuesName = rest := by
    rw [hlist, List.dropWhile_append_of_pos hall, hstop.2]
  have hhead : (name.toList ++ rest).head?.any startsName := by
    rw [hlist]
    exact hstart
  rw [readName?, if_pos hhead, htake, hdrop, String.ofList_toList]

end Names

namespace Expression

/-! ## The reader -/

/-- The names in an expression are names of the target, and none of its identifiers is read as the
nil value. -/
def WellNamed : Expression → Prop
  | nil => True
  | identifier name => IsTargetName name ∧ name ≠ "nil"
  | string _ => True
  | property object name => object.WellNamed ∧ IsTargetName name

instance : DecidablePred WellNamed
  | nil => inferInstanceAs (Decidable True)
  | identifier _ => inferInstanceAs (Decidable (_ ∧ _))
  | string _ => inferInstanceAs (Decidable True)
  | property object _ =>
    have := instDecidablePredWellNamed object
    inferInstanceAs (Decidable (_ ∧ _))

/-- What an expression starts with: a string literal, the nil value or an identifier. -/
def readStart? (s : List Char) : Option (Expression × List Char) :=
  if s.head? = some '"' then
    (Literal.read? s).map fun result => (string (String.ofList result.1), result.2)
  else
    (readName? s).map fun result =>
      (if result.1 = "nil" then nil else identifier result.1, result.2)

/-- The properties of an object, each of them a name behind a dot. -/
def readProperties? (object : Expression) (s : List Char) : Option (Expression × List Char) :=
  match s with
  | '.' :: s =>
    match _h : readName? s with
    | none => none
    | some (name, rest) => readProperties? (property object name) rest
  | s => some (object, s)
termination_by s.length
decreasing_by exact Nat.lt_succ_of_le (length_readName? _h)

/-- An expression at the start of a text, with what is left over behind it. -/
def read? (s : List Char) : Option (Expression × List Char) :=
  (readStart? s).bind fun result => readProperties? result.1 result.2

/-! ## Reading what was written -/

section Written

variable {e object a b : Expression} {name : String} {s rest : List Char}

/-- A literal at the start is a string. -/
lemma readStart?_quote (v : List Char) :
    readStart? (Quoted.quote v ++ rest) = some (string (String.ofList v), rest) := by
  have hhead : (Quoted.quote v ++ rest).head? = some '"' := rfl
  rw [readStart?, if_pos hhead, Literal.read?_quote]
  rfl

/-- A name at the start is the nil value or an identifier. -/
lemma readStart?_name (hname : IsTargetName name)
    (hrest : ∀ c ∈ rest.head?, continuesName c = false) :
    readStart? (name.toList ++ rest) =
      some (if name = "nil" then nil else identifier name, rest) := by
  have hhead : (name.toList ++ rest).head? ≠ some '"' := by
    obtain ⟨c, cs, hlist, hstart, -⟩ := hname.exists_eq_cons
    rintro hquote
    obtain rfl : c = '"' := by simpa [hlist] using hquote
    exact absurd hstart (by decide)
  rw [readStart?, if_neg hhead, readName?_append hname hrest]
  rfl

/-- No property follows where there is no dot. -/
lemma readProperties?_of_head (h : s.head? ≠ some '.') :
    readProperties? object s = some (object, s) := by
  rw [readProperties?.eq_def]
  split
  · exact absurd rfl h
  · rfl

/-- A dot and a name are one more property. -/
lemma readProperties?_dot (h : readName? s = some (name, rest)) :
    readProperties? object ('.' :: s) = readProperties? (property object name) rest := by
  rw [readProperties?]
  split <;> simp_all

/-- **The reader goes on behind a written expression** with the properties that follow it, unless
the last name of the expression goes on there.

**Proof sketch.** Induction from the outermost property to the start of the expression. What stands
behind the object of a property is the dot, where no name goes on, so the reader comes to the
object with the property as the first one that follows it. -/
theorem read?_chars_append (h : e.WellNamed) (hrest : ∀ c ∈ rest.head?, continuesName c = false) :
    read? (e.chars ++ rest) = readProperties? e rest := by
  induction e generalizing rest with
  | nil =>
    have hname : IsTargetName "nil" := by decide
    rw [read?, chars, readStart?_name hname hrest]
    rfl
  | identifier name =>
    rw [read?, chars, readStart?_name h.1 hrest, if_neg h.2]
    rfl
  | string value =>
    rw [read?, chars, readStart?_quote, String.ofList_toList]
    rfl
  | property object name ih =>
    have hdot : ∀ c ∈ ('.' :: (name.toList ++ rest)).head?, continuesName c = false := by
      intro c hc
      obtain rfl : '.' = c := Option.some.inj hc
      rfl
    rw [chars, List.append_assoc, List.cons_append, ih h.1 hdot,
      readProperties?_dot (readName?_append h.2 hrest)]

/-- Reading the whole text of an expression gives the expression back. -/
lemma read?_text (h : e.WellNamed) : read? e.text.toList = some (e, []) := by
  have hread : read? (e.chars ++ []) = readProperties? e [] := read?_chars_append h nofun
  rw [text, String.toList_ofList, ← List.append_nil e.chars, hread]
  exact readProperties?_of_head nofun

/-- **Different expressions are written differently** if their names are names of the target and
no identifier is spelled `nil`.

**Proof sketch.** `read?` is a left inverse of `text` on expressions with proper names
(`read?_text`), so equal texts are read as equal expressions. -/
theorem text_eq_iff (ha : a.WellNamed) (hb : b.WellNamed) : a.text = b.text ↔ a = b := by
  constructor
  · intro htext
    have hread : some (a, ([] : List Char)) = some (b, []) := by
      rw [← read?_text ha, htext, read?_text hb]
    exact (Prod.mk.inj (Option.some.inj hread)).1
  · exact congrArg text

/-- An identifier spelled `nil` is written like the nil value, one with a dot like a property. -/
example : (identifier "nil").text = nil.text ∧
    (identifier "a.b").text = (property (identifier "a") "b").text :=
  ⟨rfl, rfl⟩

/-- The property `nil` of a string is not written like a string that holds a quote, a dot and
`nil`. -/
theorem text_eq_iff_quote_in_string :
    (property (string "a.b") "nil").WellNamed ∧ (string "a.b\".nil").WellNamed ∧
      ((property (string "a.b") "nil").text = (string "a.b\".nil").text ↔
        property (string "a.b") "nil" = string "a.b\".nil") ∧
      (property (string "a.b") "nil").text ≠ (string "a.b\".nil").text := by
  have ha : (property (string "a.b") "nil").WellNamed := by decide
  have hb : (string "a.b\".nil").WellNamed := by decide
  have hiff := text_eq_iff ha hb
  exact ⟨ha, hb, hiff, fun htext => nomatch hiff.1 htext⟩

end Written

end Expression

end Predeclare
