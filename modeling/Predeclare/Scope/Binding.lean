import Predeclare.Scope.Declaration

set_option relaxedAutoImplicit false
set_option autoImplicit false

/-!
# Binding

Binding walks the tree once, top down. At a node that introduces a scope it creates the scope and
declares all its names before it looks below the node; at an identifier it looks the name up from
the innermost scope outwards and records the symbol it finds. A name that is declared again keeps
its first definition, although the later declaration gets a symbol too. Errors are collected and
do not stop the walk.

## Main definitions

* `Binding` — the symbols, the scopes and the errors of a unit.
* `Binding.declare`, `Binding.openScope`, `Binding.bindReference` — the steps of the walk.
* `bindNode`, `bind` — the walk below one node, and the binding of a whole unit.

## Main results

* `bindNode_eq` — the walk below a node in terms of the walks below its children.
-/

namespace Predeclare

/-- What binding a unit gives. -/
structure Binding (n : Nat) where
  symbols : SymbolTable (Fin n)
  scopes : ScopeTree (Fin n)
  errors : List ResolutionError

namespace Binding

variable {n : Nat}

/-- Nothing is bound yet; the undefined value goes by the given name. -/
def new (undefinedName : Name) : Binding n := ⟨.new undefinedName, .new, []⟩

/-- Defines a name in a scope, or reports that the scope defines it already. -/
def define (B : Binding n) (scope : ScopeId) (name : Name) (symbol : SymbolId) (span : FileSpan) :
    Except Fault (Binding n) :=
  match B.scopes.define scope name symbol span with
  | .error fault => .error fault
  | .ok (.error e) => .ok { B with errors := B.errors ++ [e] }
  | .ok (.ok scopes) => .ok { B with scopes }

/-- Makes a name known everywhere in a file, unless it is already. -/
def declareGlobal (file : FileId) (B : Binding n) (name : Name) : Except Fault (Binding n) :=
  match B.scopes.lookup ScopeTree.globalScope name with
  | some _ => .ok B
  | none =>
    let (s, symbols) := B.symbols.declareGlobal name
    { B with symbols }.define ScopeTree.globalScope name s ⟨file, .origin⟩

/-- Gives a declaration a symbol and defines its name in a scope. -/
def declare (t : SyntaxTree n) (scope : ScopeId) (B : Binding n) (d : Declaration n) :
    Except Fault (Binding n) :=
  if (t.kind d.node).isDeclaration then
    let (s, symbols) := B.symbols.declare d.name d.kind d.node
    { B with symbols }.define scope d.name s (t.span d.node)
  else .error (.cannotDeclare (t.kind d.node))

/-- Opens the scope of a node inside a scope and declares its names; for a node that introduces
no scope, what lies below it belongs to the scope around it. -/
def openScope (t : SyntaxTree n) (scope : ScopeId) (i : Fin n) (B : Binding n) :
    Except Fault (ScopeId × Binding n) :=
  match t.scopeKind? i with
  | none => .ok (scope, B)
  | some kind => do
    let (inner, scopes) ← B.scopes.createChild scope kind i
    let B ← (t.scopeDeclarations i).foldlM (declare t inner) { B with scopes }
    return (inner, B)

/-- Binds a reference to what its name means in a scope, or reports that it means nothing. A
reference without a name is left alone. -/
def bindReference (t : SyntaxTree n) (I : Interner) (E : Enumeration) (scope : ScopeId) (i : Fin n)
    (B : Binding n) : Except Fault (Binding n) :=
  match t.text i with
  | none => .ok B
  | some name =>
    match B.scopes.resolve I scope name (t.span i) E with
    | .error fault => .error fault
    | .ok (.error e) => .ok { B with errors := B.errors ++ [e] }
    | .ok (.ok definition) =>
      .ok { B with symbols := B.symbols.recordReference i definition.symbol }

end Binding

section Walk

variable {n : Nat} (t : SyntaxTree n) (I : Interner) (E : Enumeration)

/-- Binds what lies at and below a node. What lies below an identifier is not looked at. -/
def bindNode (scope : ScopeId) (i : Fin n) (B : Binding n) : Except Fault (Binding n) :=
  if t.kind i = .identifier then B.bindReference t I E scope i
  else do
    let (inner, B) ← B.openScope t scope i
    (t.children i).attach.foldlM (fun B ⟨c, _⟩ => bindNode inner c B) B
termination_by i.val
decreasing_by exact SyntaxTree.lt_of_mem_children ‹_›

theorem bindNode_eq (scope : ScopeId) (i : Fin n) (B : Binding n) :
    bindNode t I E scope i B =
      if t.kind i = .identifier then B.bindReference t I E scope i
      else B.openScope t scope i >>= fun (inner, B) =>
        (t.children i).foldlM (fun B c => bindNode t I E inner c B) B := by
  rw [bindNode]
  split
  · rfl
  · refine congrArg _ (funext fun (inner, B) => ?_)
    exact (List.foldlM_subtype (g := fun B c => bindNode t I E inner c B) fun _ _ _ => rfl).trans
      (by rw [List.unattach_attach])

end Walk

/-- Binds a unit. The undefined value and the given names are known everywhere in it. Names to
suggest are listed as the enumeration says. -/
def bind {n : Nat} (t : SyntaxTree n) (I : Interner) (globals : List String)
    (E : Enumeration := .bySpelling) : Except Fault (Binding n × Interner) := do
  let (undefinedName, I) := I.intern "undefined"
  let (names, I) := I.internAll globals
  let B ← (undefinedName :: names).foldlM (Binding.declareGlobal t.file) (.new undefinedName)
  let B ← bindNode t I E ScopeTree.globalScope t.root B
  return (B, I)

/-- The names that every unit may use without declaring them. -/
def defaultGlobals : List String := ["print", "error", "Promise", "PKG_VERSION"]

end Predeclare
