set_option relaxedAutoImplicit false
set_option autoImplicit false

/-!
# Texts in TOML

TOML writes a text in four styles. A basic text stands between double quotes and may use escapes; a
literal text stands between single quotes and takes every character as it is. Either may be written
with three quotes instead of one and then runs over several lines: a line break right behind the
opening quotes does not count, a carriage return in front of a line feed does not count either, one
or two quotes in the text stand for themselves, and a basic text may skip blank space from a
backslash at the end of a line to the next visible character.

Readers take the characters to come and return what they read together with the characters left
over, or nothing if the characters are malformed.

## Main definitions

* `Toml.Style` — the four styles.
* `Toml.escape?` — an escape behind its backslash.
* `Toml.body?` — a text behind its opening quotes.
* `Toml.text?`, `Toml.lineText?` — a text in any style, and one that may not span lines.
-/

namespace Predeclare

namespace Toml

/-! ### Blank space and line breaks -/

/-- Blank characters inside a line. -/
def isBlank (c : Char) : Bool := c = ' ' || c = '\t'

/-- The characters that a comment or a literal text may hold: tabs, and everything but control
characters. -/
def isPlain (c : Char) : Bool := c = '\t' || (32 ≤ c.toNat && c.toNat ≠ 127)

/-- A line break: a line feed, with or without a carriage return in front of it. -/
def newline? : List Char → Option (List Char)
  | '\n' :: rest => some rest
  | '\r' :: '\n' :: rest => some rest
  | _ => none

/-- Passes over blank characters and line breaks. -/
def skipSpace : List Char → List Char
  | '\n' :: rest => skipSpace rest
  | '\r' :: '\n' :: rest => skipSpace rest
  | c :: rest => if isBlank c then skipSpace rest else c :: rest
  | [] => []

theorem length_newline? {s rest : List Char} (h : newline? s = some rest) :
    rest.length < s.length := by
  unfold newline? at h
  split at h
  · cases h
    exact Nat.lt_succ_self _
  · cases h
    exact Nat.lt_succ_of_lt (Nat.lt_succ_self _)
  · cases h

theorem length_skipSpace (s : List Char) : (skipSpace s).length ≤ s.length := by
  fun_induction skipSpace s with
  | case1 rest ih => exact Nat.le_succ_of_le ih
  | case2 rest ih => exact Nat.le_succ_of_le (Nat.le_succ_of_le ih)
  | case3 c rest _ _ _ ih => exact Nat.le_succ_of_le ih
  | case4 => exact Nat.le_refl _
  | case5 => exact Nat.le_refl _

theorem length_dropWhile_le (p : Char → Bool) (s : List Char) :
    (s.dropWhile p).length ≤ s.length :=
  (List.dropWhile_suffix p).sublist.length_le

/-! ### Escapes -/

/-- The value of a hexadecimal digit. -/
def hexDigit? (c : Char) : Option Nat :=
  if '0' ≤ c ∧ c ≤ '9' then some (c.toNat - 48)
  else if 'a' ≤ c ∧ c ≤ 'f' then some (c.toNat - 87)
  else if 'A' ≤ c ∧ c ≤ 'F' then some (c.toNat - 55)
  else none

/-- The value of a row of hexadecimal digits. -/
def hexValue? (digits : List Char) : Option Nat := do
  return (← digits.mapM hexDigit?).foldl (fun value d => value * 16 + d) 0

/-- The character whose code is given by the next `width` hexadecimal digits. -/
def codePoint? (width : Nat) (s : List Char) : Option (Char × List Char) := do
  let code ← hexValue? (s.take width)
  if width ≤ s.length ∧ code.isValidChar then return (Char.ofNat code, s.drop width) else none

/-- The characters that one letter behind a backslash stands for. -/
def shortEscape? : Char → Option Char
  | 'b' => some '\x08'
  | 't' => some '\t'
  | 'n' => some '\n'
  | 'f' => some '\x0c'
  | 'r' => some '\r'
  | '"' => some '"'
  | '\\' => some '\\'
  | _ => none

/-- The character that an escape stands for, without the backslash. -/
def escape? : List Char → Option (Char × List Char)
  | [] => none
  | c :: rest =>
    if c = 'u' then codePoint? 4 rest
    else if c = 'U' then codePoint? 8 rest
    else (shortEscape? c).map fun d => (d, rest)

/-- A skipped line break, without the backslash: blank characters, a line break, and then all
blank space. -/
def lineSkip? (s : List Char) : Option (List Char) :=
  (newline? (s.dropWhile isBlank)).map skipSpace

theorem length_codePoint? {width : Nat} {s rest : List Char} {c : Char}
    (h : codePoint? width s = some (c, rest)) : rest.length ≤ s.length := by
  simp only [codePoint?, bind, Option.bind_eq_some_iff] at h
  obtain ⟨code, -, h⟩ := h
  split at h
  · cases h
    simp
  · cases h

theorem length_escape? {s rest : List Char} {c : Char} (h : escape? s = some (c, rest)) :
    rest.length ≤ s.length := by
  cases s with
  | nil => cases h
  | cons d s =>
    simp only [escape?] at h
    split at h
    · exact Nat.le_succ_of_le (length_codePoint? h)
    · split at h
      · exact Nat.le_succ_of_le (length_codePoint? h)
      · obtain ⟨_, -, h⟩ := Option.map_eq_some_iff.1 h
        cases h
        simp

theorem length_lineSkip? {s rest : List Char} (h : lineSkip? s = some rest) :
    rest.length ≤ s.length := by
  obtain ⟨r, hr, rfl⟩ := Option.map_eq_some_iff.1 h
  have := length_newline? hr
  have := length_skipSpace r
  have := length_dropWhile_le isBlank s
  omega

/-! ### Texts -/

/-- How a text is written. -/
structure Style where
  quote : Char
  escapes : Bool
  multiline : Bool
  deriving DecidableEq, Repr

namespace Style

/-- Double quotes, with escapes. -/
def basic (multiline : Bool) : Style := ⟨'"', true, multiline⟩

/-- Single quotes, without escapes. -/
def literal (multiline : Bool) : Style := ⟨'\'', false, multiline⟩

end Style

/-- The part of a text that is written by the next characters, when it is not a closing quote. -/
def piece? (style : Style) : List Char → Option (List Char × List Char)
  | [] => none
  | c :: rest =>
    if c = '\\' ∧ style.escapes then
      match if style.multiline then lineSkip? rest else none with
      | some rest => some ([], rest)
      | none => (escape? rest).map fun (d, rest) => ([d], rest)
    else if isPlain c then some ([c], rest)
    else if style.multiline then (newline? (c :: rest)).map fun rest => (['\n'], rest)
    else none

/-- A piece is not empty.

**Proof sketch.** Each way of reading a piece takes a character, and what it reads besides never
puts characters back. -/
theorem length_piece? {style : Style} {s rest part : List Char}
    (h : piece? style s = some (part, rest)) : rest.length < s.length := by
  cases s with
  | nil => cases h
  | cons c s =>
    simp only [piece?] at h
    split at h
    · split at h
      · rename_i skipped
        cases h
        split at skipped
        · exact Nat.lt_succ_of_le (length_lineSkip? skipped)
        · cases skipped
      · obtain ⟨⟨d, r⟩, escaped, h⟩ := Option.map_eq_some_iff.1 h
        cases h
        exact Nat.lt_succ_of_le (length_escape? escaped)
    · split at h
      · cases h
        simp
      · split at h
        · obtain ⟨r, broken, h⟩ := Option.map_eq_some_iff.1 h
          cases h
          exact length_newline? broken
        · cases h

/-- The end of a text that runs over several lines: three quotes, in front of which up to two more
belong to the text. -/
def closing? (quote : Char) (s : List Char) : Option (List Char × List Char) :=
  let run := (s.takeWhile (· = quote)).length
  if 3 ≤ run then
    let extra := min (run - 3) 2
    some (List.replicate extra quote, s.drop (3 + extra))
  else none

/-- A text behind its opening quotes. -/
def body? (style : Style) (s : List Char) : Option (List Char × List Char) :=
  match s with
  | [] => none
  | c :: rest =>
    if c = style.quote then
      if style.multiline then
        match closing? style.quote (c :: rest) with
        | some (extra, rest) => some (extra, rest)
        | none => (body? style rest).map fun (more, rest) => (c :: more, rest)
      else some ([], rest)
    else
      match _h : piece? style (c :: rest) with
      | none => none
      | some (part, rest) => (body? style rest).map fun (more, rest) => (part ++ more, rest)
termination_by s.length
decreasing_by
  · simp
  · exact length_piece? _h

/-- A body is not empty: it ends in its closing quotes.

**Proof sketch.** Induction on the pieces of the body. -/
theorem length_body? {style : Style} {s rest text : List Char}
    (h : body? style s = some (text, rest)) : rest.length < s.length := by
  fun_induction body? style s generalizing text rest with
  | case1 => cases h
  | case2 s _ extra r closed =>
    cases h
    simp only [closing?] at closed
    split at closed
    · cases closed
      simp only [List.length_drop, List.length_cons]
      omega
    · cases closed
  | case3 s _ _ ih =>
    obtain ⟨⟨more, r⟩, found, h⟩ := Option.map_eq_some_iff.1 h
    cases h
    exact Nat.lt_succ_of_lt (ih found)
  | case4 =>
    cases h
    simp
  | case5 => cases h
  | case6 c s _ part r taken ih =>
    obtain ⟨⟨more, r'⟩, found, h⟩ := Option.map_eq_some_iff.1 h
    cases h
    exact Nat.lt_trans (ih found) (length_piece? taken)

/-- A text that may not span lines. -/
def lineText? : List Char → Option (List Char × List Char)
  | '"' :: rest => body? (.basic false) rest
  | '\'' :: rest => body? (.literal false) rest
  | _ => none

/-- Passes over a line break, if there is one. -/
def skipNewline (s : List Char) : List Char := (newline? s).getD s

/-- A text in any style. -/
def text? : List Char → Option (List Char × List Char)
  | '"' :: '"' :: '"' :: rest => body? (.basic true) (skipNewline rest)
  | '\'' :: '\'' :: '\'' :: rest => body? (.literal true) (skipNewline rest)
  | s => lineText? s

theorem length_lineText? {s rest text : List Char} (h : lineText? s = some (text, rest)) :
    rest.length < s.length := by
  unfold lineText? at h
  split at h
  · exact Nat.lt_succ_of_lt (length_body? h)
  · exact Nat.lt_succ_of_lt (length_body? h)
  · cases h

theorem length_skipNewline (s : List Char) : (skipNewline s).length ≤ s.length := by
  unfold skipNewline
  cases h : newline? s with
  | none => simp
  | some rest => exact Nat.le_of_lt (length_newline? h)

theorem length_text? {s rest text : List Char} (h : text? s = some (text, rest)) :
    rest.length < s.length := by
  unfold text? at h
  split at h
  · rename_i r
    have := length_body? h
    have := length_skipNewline r
    simp only [List.length_cons]
    omega
  · rename_i r
    have := length_body? h
    have := length_skipNewline r
    simp only [List.length_cons]
    omega
  · exact length_lineText? h

end Toml

end Predeclare
