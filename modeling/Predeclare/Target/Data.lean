import Predeclare.Target.Expression

set_option relaxedAutoImplicit false
set_option autoImplicit false

/-!
# Expressions as data

Expressions are exchanged as plain data. The form of an expression is an object whose only key
names the constructor and whose value holds the fields; the nil value, which has no fields, is its
name alone. Reading allows a little more than writing produces: fields that are not known are
passed over, nil may be an object whose value is null, and the single field of an identifier may
stand in a list.

## Main definitions

* `Data` — plain data.
* `Expression.toData`, `Expression.ofData?` — writing and reading expressions.
-/

namespace Predeclare

/-- Plain data: null, truth values, numbers, strings, lists and objects. -/
inductive Data where
  | null
  | bool (value : Bool)
  /-- A decimal number, as digits and the number of digits behind the point. -/
  | number (digits : Int) (places : Nat)
  | string (value : String)
  | list (items : List Data)
  | object (fields : List (String × Data))
  deriving Inhabited

namespace Data

/-- The string that a piece of data is. -/
def string? : Data → Option String
  | string s => some s
  | _ => none

/-- The value of a field of an object; the first one counts. -/
def field? (name : String) : List (String × Data) → Option Data
  | [] => none
  | (key, value) :: rest => if key = name then some value else field? name rest

end Data

namespace Expression

/-- The data form of an expression. -/
def toData : Expression → Data
  | nil => .string "Nil"
  | identifier name => .object [("Identifier", .object [("name", .string name)])]
  | string value => .object [("String", .string value)]
  | property object name =>
    .object [("PropertyAccess", .object [("expression", object.toData), ("name", .string name)])]

/-- The name in the fields of an identifier. -/
def identifierName? : Data → Option String
  | .object fields => (Data.field? "name" fields).bind Data.string?
  | .list [.string name] => some name
  | _ => none

mutual

/-- Reads an expression from its data form. -/
def ofData? : Data → Option Expression
  | .string tag => if tag = "Nil" then some nil else none
  | .object [entry] => ofEntry? entry
  | _ => none

/-- Reads an expression from the name of its constructor and the fields. -/
def ofEntry? : String × Data → Option Expression
  | (tag, .null) => if tag = "Nil" then some nil else none
  | (tag, .string value) => if tag = "String" then some (string value) else none
  | (tag, .list items) =>
    if tag = "Identifier" then (identifierName? (.list items)).map identifier else none
  | (tag, .object fields) =>
    if tag = "Identifier" then (identifierName? (.object fields)).map identifier
    else if tag = "PropertyAccess" then
      match objectField? fields, (Data.field? "name" fields).bind Data.string? with
      | some object, some name => some (property object name)
      | _, _ => none
    else none
  | _ => none

/-- Reads the object whose property is accessed; the first field for it counts. -/
def objectField? : List (String × Data) → Option Expression
  | [] => none
  | (key, value) :: rest => if key = "expression" then ofData? value else objectField? rest

end

end Expression

end Predeclare
