import Predeclare.Options.Reader
import Predeclare.Scope.Binding
import Predeclare.Tree.Locate

set_option relaxedAutoImplicit false
set_option autoImplicit false

/-!
# Compiling a unit

A unit is bound first. If binding reports no error, every identifier that the root leads to is
lowered, in preorder, and the hoist plan is read off at the end.

## Main definitions

* `UnitOutput` — the lowered references and the hoist plan of a unit.
* `CompileError` — why a unit has no output.
* `compile` — binds and lowers a unit.
* `UnitOutput.renderHoists` — the hoist plan as text.
-/

namespace Predeclare

/-- What compiling a unit gives. -/
structure UnitOutput (n : Nat) where
  /-- The lowered references, in preorder. -/
  expressions : OrderedMap (Fin n) Expression
  hoists : HoistPlan n
  deriving DecidableEq

/-- Why a unit has no output. -/
inductive CompileError where
  /-- Binding reported errors. -/
  | resolution (errors : List ResolutionError)
  /-- Binding accepted a unit that cannot be lowered. -/
  | internal (error : LowerError)
  deriving DecidableEq, Repr

/-- The wording of a compilation error. -/
def CompileError.message : CompileError → String
  | resolution errors =>
    "name resolution failed with " ++ toString errors.length ++ " error(s)"
  | internal error => "internal compiler error: " ++ error.message

section Compile

variable {n : Nat}

/-- Lowers references one after the other, up to the first that cannot be lowered. -/
def lowerAll (ctx : LowerContext n) (expanders : ExpanderTable n) :
    List (Fin n) → UnitOutput n → HoistState n →
      Except Fault (Except LowerError (UnitOutput n))
  | [], out, state => .ok (.ok { out with hoists := state.finish })
  | i :: rest, out, state => do
    match ← lowerIdentifier ctx expanders state i with
    | (.error e, _) => return .error e
    | (.ok e, state) =>
      lowerAll ctx expanders rest { out with expressions := out.expressions.insert i e } state

/-- The identifiers that the root leads to, in preorder. -/
def SyntaxTree.identifiers (t : SyntaxTree n) : List (Fin n) :=
  (t.descendants t.root).filter fun i => t.kind i = .identifier

/-- The expanders that the options ask for. -/
def CompilerOptions.expanders (options : CompilerOptions) (symbols : SymbolTable (Fin n))
    (I : Interner) : ExpanderTable n :=
  if options.builtins then .ofBuiltins symbols I else .empty

/-- Lowers every identifier of a unit that has been bound. -/
def lowerUnit (t : SyntaxTree n) (I : Interner) (B : Binding n) (options : CompilerOptions) :
    Except Fault (Except LowerError (UnitOutput n)) :=
  lowerAll ⟨t, I, B.symbols.model, options.toLowerOptions⟩ (options.expanders B.symbols I)
    t.identifiers ⟨.empty, .empty⟩ .empty

/-- Binds a unit and lowers every identifier in it. The names known afterwards are returned along
with the outcome. -/
def compile (t : SyntaxTree n) (I : Interner) (options : CompilerOptions)
    (E : Enumeration := .bySpelling) :
    Except Fault (Except CompileError (UnitOutput n) × Interner) := do
  let (B, I) ← bind t I defaultGlobals E
  if B.errors = [] then return ((← lowerUnit t I B options).mapError .internal, I)
  else return (.error (.resolution B.errors), I)

end Compile

namespace UnitOutput

variable {n : Nat} (t : SyntaxTree n) (I : Interner) (out : UnitOutput n)

/-- The lowered form of a reference. -/
def expression? (i : Fin n) : Option Expression := out.expressions.get? i

/-- The spellings of a list of references; those without text are passed over. -/
def spellings (references : List (Fin n)) : Except Fault (List String) :=
  (references.filterMap t.text).mapM I.spelling

/-- The spellings of the references to announce in front of a statement. -/
def hoistedNames (statement : Fin n) : Except Fault (List String) :=
  spellings t I (out.hoists.hoistsFor statement)

/-- One line of the hoist plan: the kind and the range of a statement, then the names. -/
def renderEntry (entry : Fin n × List (Fin n)) : Except Fault String := do
  let names ← spellings t I entry.2
  return (t.kind entry.1).text ++ " " ++ (t.span entry.1).span.text ++ ": " ++
    String.intercalate ", " names ++ "\n"

/-- The hoist plan as text, one statement a line. -/
def renderHoists : Except Fault String := do
  return String.join (← out.hoists.entries.mapM (renderEntry t I))

end UnitOutput

end Predeclare
