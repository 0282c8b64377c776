import Predeclare.Lowering.Hoist
import Predeclare.Target.Expression

set_option relaxedAutoImplicit false
set_option autoImplicit false

/-!
# Lowering identifiers

A reference to the undefined value becomes nil. Symbols may have an expander, which then lowers
every reference to them in its own way. Any other reference keeps its spelling, after the hoist
plan has been told about it.

Two globals have an expander because they have no counterpart of the same name in the target.
Promises live in the runtime library, and the package version is a constant of the compilation. A
declaration of the same name in a unit is a different symbol and is lowered like any other.

## Main definitions

* `LowerError` — a reference without a symbol, or a node that is no reference.
* `LowerOptions` — what the lowering of builtin names depends on.
* `LowerContext` — what lowering reads: the tree, its names, its bindings and the options.
* `Expander`, `ExpanderTable` — lowering of its own for some symbols.
* `lowerPlain`, `lowerIdentifier` — lowering by spelling, and lowering in full.
* `Builtin.promise`, `Builtin.packageVersion` — the expanders of the two globals.
* `ExpanderTable.ofBuiltins` — the table that holds those whose global is declared.

## Main results

* `lowerIdentifier_of_no_symbol`, `lowerIdentifier_of_undefined`, `lowerIdentifier_of_expander`,
  `lowerIdentifier_of_plain` — the four ways in which an identifier is lowered.
-/

namespace Predeclare

/-- Why an identifier could not be lowered. Either cause means that binding failed before. -/
inductive LowerError where
  /-- The reference is bound to no symbol. -/
  | unresolvedIdentifier (name : String) (span : FileSpan)
  /-- The node is not an identifier with a name. -/
  | notAnIdentifier (kind : SyntaxKind) (span : FileSpan)
  deriving DecidableEq, Repr

/-- The wording of a lowering error. -/
def LowerError.message : LowerError → String
  | unresolvedIdentifier name span =>
    "identifier `" ++ name ++ "` at " ++ span.text ++ " did not resolve to a symbol"
  | notAnIdentifier kind span =>
    "expected an identifier at " ++ span.text ++ ", found " ++ kind.text

/-- What the lowering of builtin names depends on. -/
structure LowerOptions where
  /-- The table of the target that holds the runtime library. -/
  runtimeLibrary : String := "TS"
  /-- The value of the package version, if one is known. -/
  packageVersion : Option String := none
  deriving DecidableEq, Repr

/-- What the lowering of a unit reads. -/
structure LowerContext (n : Nat) where
  tree : SyntaxTree n
  interner : Interner
  model : SemanticModel (Fin n)
  options : LowerOptions

namespace LowerContext

variable {n : Nat} (ctx : LowerContext n)

/-- The spelling of an identifier. -/
def identifierText (i : Fin n) : Except Fault (Except LowerError String) :=
  match ctx.tree.kind i, ctx.tree.text i with
  | .identifier, some name => (ctx.interner.spelling name).map .ok
  | kind, _ => .ok (.error (.notAnIdentifier kind (ctx.tree.span i)))

/-- Lowers an identifier to its spelling. -/
def lowerPlain (i : Fin n) : Except Fault (Except LowerError Expression) := do
  match ← ctx.identifierText i with
  | .error e => return .error e
  | .ok name => return .ok (← Expression.named name)

/-- Tells the hoist plan about a reference to a symbol. -/
def checkHoist (state : HoistState n) (i : Fin n) (s : SymbolId) :
    HoistOutcome n × HoistState n :=
  state.checkHoist ctx.tree ctx.model i s

end LowerContext

/-- Lowers references to a symbol in its own way, and may tell the hoist plan about them. -/
abbrev Expander (n : Nat) :=
  LowerContext n → HoistState n → Fin n → Except Fault (Expression × HoistState n)

/-- The expanders of a unit, by symbol. -/
structure ExpanderTable (n : Nat) where
  bySymbol : OrderedMap SymbolId (Expander n)

namespace ExpanderTable

variable {n : Nat}

/-- No symbol has an expander. -/
def empty : ExpanderTable n := ⟨.empty⟩

/-- The expander of a symbol. -/
def get? (table : ExpanderTable n) (s : SymbolId) : Option (Expander n) := table.bySymbol.get? s

/-- Gives a symbol an expander, in place of the one it may have. -/
def register (table : ExpanderTable n) (s : SymbolId) (expander : Expander n) : ExpanderTable n :=
  ⟨table.bySymbol.insert s expander⟩

/-- The number of symbols with an expander. -/
def size (table : ExpanderTable n) : Nat := table.bySymbol.size

/-- A one-line report of the table. -/
def summary (table : ExpanderTable n) : String :=
  "MacroRegistry \x7b identifier_macros: " ++ toString table.size ++ " \x7d"

end ExpanderTable

/-- Lowers an identifier. The state changes only if a symbol was found. -/
def lowerIdentifier {n : Nat} (ctx : LowerContext n) (expanders : ExpanderTable n)
    (state : HoistState n) (i : Fin n) :
    Except Fault (Except LowerError Expression × HoistState n) :=
  match ctx.model.symbolAt i with
  | none => do
    match ← ctx.identifierText i with
    | .error e => return (.error e, state)
    | .ok name => return (.error (.unresolvedIdentifier name (ctx.tree.span i)), state)
  | some s =>
    if ctx.model.isUndefined s then .ok (.ok .nil, state)
    else
      match expanders.get? s with
      | some expander => do
        let (e, state) ← expander ctx state i
        return (.ok e, state)
      | none => do
        let (_, state) := ctx.checkHoist state i s
        return (← ctx.lowerPlain i, state)

section Ways

variable {n : Nat} {ctx : LowerContext n} {expanders : ExpanderTable n} {i : Fin n} {s : SymbolId}

/-- A reference without a symbol is an error. -/
theorem lowerIdentifier_of_no_symbol (hs : ctx.model.symbolAt i = none) (state : HoistState n) :
    lowerIdentifier ctx expanders state i =
      (ctx.identifierText i).map fun text =>
        (.error (match text with
          | .ok name => .unresolvedIdentifier name (ctx.tree.span i)
          | .error e => e), state) := by
  unfold lowerIdentifier
  rw [hs]
  rcases ctx.identifierText i with fault | (e | name) <;> rfl

/-- The undefined value becomes nil. -/
theorem lowerIdentifier_of_undefined (hs : ctx.model.symbolAt i = some s)
    (hundefined : ctx.model.isUndefined s = true) (state : HoistState n) :
    lowerIdentifier ctx expanders state i = .ok (.ok .nil, state) := by
  unfold lowerIdentifier
  rw [hs]
  exact if_pos hundefined

/-- A symbol with an expander is left to it. -/
theorem lowerIdentifier_of_expander (hs : ctx.model.symbolAt i = some s)
    (hdefined : ctx.model.isUndefined s = false) {expander : Expander n}
    (hexpander : expanders.get? s = some expander) (state : HoistState n) :
    lowerIdentifier ctx expanders state i =
      (expander ctx state i).map fun result => (.ok result.1, result.2) := by
  unfold lowerIdentifier
  simp only [hs, hdefined, hexpander, Bool.false_eq_true, if_false]
  cases expander ctx state i <;> rfl

/-- Any other reference is checked and keeps its spelling. -/
theorem lowerIdentifier_of_plain (hs : ctx.model.symbolAt i = some s)
    (hdefined : ctx.model.isUndefined s = false) (hexpander : expanders.get? s = none)
    (state : HoistState n) :
    lowerIdentifier ctx expanders state i =
      (ctx.lowerPlain i).map fun result => (result, (ctx.checkHoist state i s).2) := by
  unfold lowerIdentifier
  simp only [hs, hdefined, hexpander, Bool.false_eq_true, if_false]
  cases ctx.lowerPlain i <;> rfl

end Ways

/-! ## Builtin names -/

namespace Builtin

variable {n : Nat}

/-- Promises are a property of the runtime library. -/
def promise : Expander n := fun ctx state _ => do
  return (.property (← Expression.named ctx.options.runtimeLibrary) "Promise", state)

/-- The package version is a string, or nil if it is not known. -/
def packageVersion : Expander n := fun ctx state _ =>
  match ctx.options.packageVersion with
  | some version => .ok (.string version, state)
  | none => .ok (.nil, state)

/-- The builtin names and their expanders. -/
def all : List (String × Expander n) := [("Promise", promise), ("PKG_VERSION", packageVersion)]

end Builtin

namespace ExpanderTable

variable {n : Nat} {ν : Type}

/-- Registers the expander of a name, if the name is a global. -/
def registerGlobal (symbols : SymbolTable ν) (I : Interner) (table : ExpanderTable n)
    (entry : String × Expander n) : ExpanderTable n :=
  match (I.find? entry.1).bind symbols.global? with
  | some s => table.register s entry.2
  | none => table

/-- The builtin names that are globals of a unit. -/
def ofBuiltins (symbols : SymbolTable ν) (I : Interner) : ExpanderTable n :=
  Builtin.all.foldl (registerGlobal symbols I) .empty

end ExpanderTable

end Predeclare
