import Predeclare.Source

set_option relaxedAutoImplicit false
set_option autoImplicit false

/-!
# Target expressions

These are the expressions that references are lowered to: the nil value, a name, a string, and
access to a property. Names are carried over exactly as they are spelled; replacing reserved words
is the task of a later stage.

A string is written between double quotes. A quote and a backslash are written behind a backslash;
line feed, carriage return and tab have a letter each; every other ASCII control character is
written as its code in decimal. The code always takes three digits, so that a digit that follows in
the string is not read as part of it. All other characters stand for themselves.

## Main definitions

* `Quoted.escape`, `Quoted.quote` — how one character is written, and a whole string.
* `Expression` — the expressions.
* `Expression.named` — the expression of a name, which must not be empty.
* `Expression.text` — how an expression is written.
-/

namespace Predeclare

/-! ## Quoted strings -/

namespace Quoted

/-- The characters that are written as a backslash and one other character. -/
def shortEscape? : Char → Option Char
  | '"' => some '"'
  | '\\' => some '\\'
  | '\n' => some 'n'
  | '\r' => some 'r'
  | '\t' => some 't'
  | _ => none

/-- The ASCII control characters. -/
def isControl (c : Char) : Bool := c.toNat < 32 || c.toNat = 127

/-- The last three decimal digits of a number. -/
def threeDigits (k : Nat) : List Char :=
  [Nat.digitChar (k / 100 % 10), Nat.digitChar (k / 10 % 10), Nat.digitChar (k % 10)]

/-- How a character is written inside quotes. -/
def escape (c : Char) : List Char :=
  match shortEscape? c with
  | some d => ['\\', d]
  | none => if isControl c then '\\' :: threeDigits c.toNat else [c]

/-- The literal of a string. -/
def quote (s : List Char) : List Char := '"' :: s.flatMap escape ++ ['"']

end Quoted

/-! ## Expressions -/

/-- An expression of the target language. -/
inductive Expression where
  | nil
  | identifier (name : String)
  | string (value : String)
  | property (object : Expression) (name : String)
  deriving DecidableEq, Repr

namespace Expression

/-- Whether an expression is the nil value. -/
def isNil : Expression → Bool
  | nil => true
  | _ => false

/-- The expression of a name. -/
def named (name : String) : Except Fault Expression :=
  if name = "" then .error .emptyIdentifier else .ok (identifier name)

/-- The characters of an expression: strings are quoted, a property follows its object behind a
dot. -/
def chars : Expression → List Char
  | nil => "nil".toList
  | identifier name => name.toList
  | string value => Quoted.quote value.toList
  | property object name => object.chars ++ '.' :: name.toList

/-- How an expression is written. -/
def text (e : Expression) : String := String.ofList e.chars

end Expression

end Predeclare
