import Predeclare.OrderedMap
import Predeclare.Tree.Basic

set_option relaxedAutoImplicit false
set_option autoImplicit false

/-!
# Symbols

A symbol stands for one declaration; equal symbols mean the same binding. A symbol table numbers
the symbols of a unit in the order in which they are declared, and records which symbol each
reference is bound to. Globals are symbols without a declaration, one for each name. The first
symbol of every table is the one global that stands for the undefined value.

Lowering reads the bindings of a unit through three questions, whoever answers them. A symbol table
answers from what has been recorded in it. A table may know more nodes than one tree has, since
nodes are numbers to it; for lowering that tree, only what it says about the nodes of the tree
counts.

## Main definitions

* `SymbolTable` — symbols, references and globals, with `declareGlobal`, `declare` and
  `recordReference`.
* `SymbolTable.isUndefined`, `SymbolTable.valueDeclaration`, `SymbolTable.reference?` — what a
  table knows about symbols and references.
* `SemanticModel` — the questions that lowering asks about bindings.
* `SymbolTable.model` — the answers that a symbol table gives.
* `SemanticModel.restrict` — the answers about the nodes of one tree.
-/

namespace Predeclare

/-! ## Symbol tables -/

/-- A numbered symbol. -/
structure SymbolId where
  index : Nat
  deriving DecidableEq, Repr

/-- What introduces a symbol. -/
inductive SymbolKind where
  | variable
  | function
  | «class»
  | parameter
  | module
  | global
  | undefined
  deriving DecidableEq, Repr

/-- A declared name; `ν` denotes nodes. Globals have no declaration. -/
structure Symbol (ν : Type) where
  name : Name
  kind : SymbolKind
  declaration : Option ν
  deriving DecidableEq, Repr

/-- The symbols of a unit and the references bound to them. -/
structure SymbolTable (ν : Type) where
  symbols : Array (Symbol ν)
  references : OrderedMap ν SymbolId
  globals : OrderedMap Name SymbolId

namespace SymbolTable

variable {ν : Type}

/-- The symbol of the undefined value, the first of every table. -/
def undefinedSymbol : SymbolId := ⟨0⟩

/-- The table that holds only the symbol of the undefined value, under the given name. -/
def new (name : Name) : SymbolTable ν where
  symbols := #[⟨name, .undefined, none⟩]
  references := .empty
  globals := OrderedMap.empty.insert name undefinedSymbol

/-- The data of a symbol. -/
def symbol? (T : SymbolTable ν) (s : SymbolId) : Option (Symbol ν) := T.symbols[s.index]?

/-- The global symbol of a name. -/
def global? (T : SymbolTable ν) (name : Name) : Option SymbolId := T.globals.get? name

/-- The global symbol of a name, declared if there is none yet. -/
def declareGlobal (T : SymbolTable ν) (name : Name) : SymbolId × SymbolTable ν :=
  match T.global? name with
  | some s => (s, T)
  | none =>
    let s : SymbolId := ⟨T.symbols.size⟩
    (s, { T with
      symbols := T.symbols.push ⟨name, .global, none⟩
      globals := T.globals.insert name s })

/-- A new symbol for a declaration. -/
def declare (T : SymbolTable ν) (name : Name) (kind : SymbolKind) (declaration : ν) :
    SymbolId × SymbolTable ν :=
  (⟨T.symbols.size⟩, { T with symbols := T.symbols.push ⟨name, kind, some declaration⟩ })

/-- Whether a symbol stands for the undefined value. -/
def isUndefined (T : SymbolTable ν) (s : SymbolId) : Bool :=
  s = undefinedSymbol || (T.symbol? s).any fun data => data.kind = .undefined

/-- The declaration of a symbol. -/
def valueDeclaration (T : SymbolTable ν) (s : SymbolId) : Option ν :=
  (T.symbol? s).bind Symbol.declaration

section References

variable [DecidableEq ν]

/-- Binds a reference to a symbol; a later binding of the same reference replaces it. -/
def recordReference (T : SymbolTable ν) (reference : ν) (s : SymbolId) : SymbolTable ν :=
  { T with references := T.references.insert reference s }

/-- The symbol a reference is bound to. -/
def reference? (T : SymbolTable ν) (reference : ν) : Option SymbolId :=
  T.references.get? reference

end References

end SymbolTable

/-! ## Semantic models -/

/-- What lowering asks about the bindings of a unit. -/
structure SemanticModel (ν : Type) where
  /-- The symbol that a reference denotes. -/
  symbolAt : ν → Option SymbolId
  /-- Whether a symbol stands for the undefined value. -/
  isUndefined : SymbolId → Bool
  /-- The node that declares a symbol. -/
  valueDeclaration : SymbolId → Option ν

/-- A symbol table answers from what it has recorded. -/
def SymbolTable.model {ν : Type} [DecidableEq ν] (T : SymbolTable ν) : SemanticModel ν where
  symbolAt := T.reference?
  isUndefined := T.isUndefined
  valueDeclaration := T.valueDeclaration

namespace SemanticModel

/-- What a model says about a tree over `n` nodes. A symbol that is declared outside the tree has
no declaration in it. -/
def restrict (n : Nat) (M : SemanticModel Nat) : SemanticModel (Fin n) where
  symbolAt i := M.symbolAt i.val
  isUndefined := M.isUndefined
  valueDeclaration s := (M.valueDeclaration s).bind (below? n)

end SemanticModel

end Predeclare
