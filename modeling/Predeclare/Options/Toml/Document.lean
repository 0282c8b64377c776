import Predeclare.Options.Toml.Text

set_option relaxedAutoImplicit false
set_option autoImplicit false

/-!
# Flat TOML documents

A flat document is a list of lines, each of them blank or an entry: a key, an equals sign and a
value. Either kind of line may end in a comment. Values are texts and truth values; tables, dotted
keys and all other kinds of values are refused, and so is a key that occurs twice. A byte order mark
at the very start is passed over.

## Main definitions

* `Toml.Value` — the values of a flat document.
* `Toml.lineEnd?`, `Toml.assignment?` — the end of a line, and an entry up to the end of its line.
* `Toml.parse?` — the entries of a document.
-/

namespace Predeclare

namespace Toml

/-- A value of a flat document. -/
inductive Value where
  | text (s : String)
  | flag (b : Bool)
  deriving DecidableEq, Repr

/-- Passes over blank characters. -/
def skipBlank (s : List Char) : List Char := s.dropWhile isBlank

/-- Passes over a comment, if there is one. -/
def skipComment : List Char → List Char
  | '#' :: rest => rest.dropWhile isPlain
  | s => s

/-- Passes over the rest of a line that has nothing but blanks and a comment left. -/
def lineEnd? (s : List Char) : Option (List Char) :=
  match skipComment (skipBlank s) with
  | [] => some []
  | rest => newline? rest

/-- The characters of a key without quotes. -/
def isKeyChar (c : Char) : Bool := c.isAlphanum || c = '_' || c = '-'

/-- A key, with or without quotes. -/
def key? (s : List Char) : Option (List Char × List Char) :=
  match s.takeWhile isKeyChar with
  | [] => lineText? s
  | name => some (name, s.dropWhile isKeyChar)

/-- Passes over the equals sign of an entry and the blanks around it. -/
def equals? (s : List Char) : Option (List Char) :=
  match skipBlank s with
  | '=' :: rest => some (skipBlank rest)
  | _ => none

/-- A value. -/
def value? : List Char → Option (Value × List Char)
  | 't' :: 'r' :: 'u' :: 'e' :: rest => some (.flag true, rest)
  | 'f' :: 'a' :: 'l' :: 's' :: 'e' :: rest => some (.flag false, rest)
  | s => (text? s).map fun (text, rest) => (.text (String.ofList text), rest)

/-- An entry, up to and including the end of its line. -/
def assignment? (s : List Char) : Option ((String × Value) × List Char) := do
  let (key, s) ← key? (skipBlank s)
  let (value, s) ← value? (← equals? s)
  return ((String.ofList key, value), ← lineEnd? s)

theorem length_skipComment (s : List Char) : (skipComment s).length ≤ s.length := by
  unfold skipComment
  split
  · exact Nat.le_succ_of_le (length_dropWhile_le _ _)
  · exact Nat.le_refl _

theorem length_lineEnd? {s rest : List Char} (h : lineEnd? s = some rest) :
    rest.length ≤ s.length ∧ (s ≠ [] → rest.length < s.length) := by
  have bound := Nat.le_trans (length_skipComment (skipBlank s)) (length_dropWhile_le isBlank s)
  unfold lineEnd? at h
  split at h
  · cases h
    exact ⟨Nat.zero_le _, List.length_pos_iff.2⟩
  · have := length_newline? h
    exact ⟨by omega, fun _ => by omega⟩

theorem length_key? {s rest key : List Char} (h : key? s = some (key, rest)) :
    rest.length < s.length := by
  unfold key? at h
  split at h
  · exact length_lineText? h
  · rename_i name found
    cases h
    have total := congrArg List.length (List.takeWhile_append_dropWhile (p := isKeyChar) (l := s))
    rw [List.length_append] at total
    have : 0 < (s.takeWhile isKeyChar).length := List.length_pos_iff.2 found
    omega

theorem length_equals? {s rest : List Char} (h : equals? s = some rest) :
    rest.length ≤ s.length := by
  unfold equals? at h
  split at h
  · rename_i r found
    cases h
    have := length_dropWhile_le isBlank s
    have := length_dropWhile_le isBlank r
    have := congrArg List.length found
    simp only [skipBlank, List.length_cons] at *
    omega
  · cases h

theorem length_value? {s rest : List Char} {value : Value} (h : value? s = some (value, rest)) :
    rest.length ≤ s.length := by
  unfold value? at h
  split at h
  · cases h
    simp only [List.length_cons]
    omega
  · cases h
    simp only [List.length_cons]
    omega
  · obtain ⟨⟨text, r⟩, found, h⟩ := Option.map_eq_some_iff.1 h
    cases h
    exact Nat.le_of_lt (length_text? found)

theorem length_assignment? {s rest : List Char} {entry : String × Value}
    (h : assignment? s = some (entry, rest)) : rest.length < s.length := by
  simp only [assignment?, bind, Option.bind_eq_some_iff, pure, Option.some.injEq,
    Prod.mk.injEq] at h
  obtain ⟨⟨key, s₁⟩, hkey, s₂, heq, ⟨value, s₃⟩, hvalue, s₄, hend, -, rfl⟩ := h
  have := length_key? hkey
  have := length_equals? heq
  have := length_value? hvalue
  have := (length_lineEnd? hend).1
  have := length_dropWhile_le isBlank s
  simp only [skipBlank] at *
  omega

/-- The entries of the lines to come. -/
def entries? (s : List Char) : Option (List (String × Value)) :=
  if _more : s = [] then some []
  else
    match _blank : lineEnd? s with
    | some rest => entries? rest
    | none =>
      match _entry : assignment? s with
      | some (entry, rest) => (entries? rest).map (entry :: ·)
      | none => none
termination_by s.length
decreasing_by
  · exact (length_lineEnd? _blank).2 _more
  · exact length_assignment? _entry

/-- Passes over a byte order mark, if there is one. -/
def skipMark : List Char → List Char
  | '\uFEFF' :: rest => rest
  | s => s

/-- The entries of a document, in order. -/
def parse? (document : String) : Option (List (String × Value)) := do
  let entries ← entries? (skipMark document.toList)
  if (entries.map Prod.fst).Nodup then return entries else none

end Toml

end Predeclare
