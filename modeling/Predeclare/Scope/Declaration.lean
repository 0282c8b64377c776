import Predeclare.Scope.Tree
import Predeclare.Tree.Builder

set_option relaxedAutoImplicit false
set_option autoImplicit false

/-!
# Declarations of a scope

Which nodes introduce a scope, and which names such a node declares, is read off the tree. Source
files, blocks and module blocks declare what their statements declare; the clauses of a switch
share one scope, which belongs to their case block; a function declares its parameters and, if it
is an expression with a name, that name. A statement declares names wherever it stands in its list,
so a name is visible in front of its declaration.

## Main definitions

* `Declaration` — a name, what kind of symbol it gets, and the node that declares it.
* `SyntaxTree.scopeKind?` — the kind of scope that a node introduces.
* `SyntaxTree.statementDeclarations` — what one statement declares.
* `SyntaxTree.scopeDeclarations` — what the scope of a node declares, in order.
-/

namespace Predeclare

/-- A name declared by a node. -/
structure Declaration (n : Nat) where
  name : Name
  kind : SymbolKind
  node : Fin n
  deriving DecidableEq, Repr

namespace SyntaxTree

variable {n : Nat} (t : SyntaxTree n)

/-- The text of a node as a name that the node declares; a node without text declares nothing. -/
def namedDeclaration (kind : SymbolKind) (i : Fin n) : Option (Declaration n) :=
  (t.text i).map fun name => ⟨name, kind, i⟩

/-- The names that a binding pattern takes out of a value. -/
def patternDeclarations (pattern : Fin n) : List (Declaration n) :=
  match t.kind pattern with
  | .objectBindingPattern | .arrayBindingPattern =>
    (t.children pattern).filterMap (t.namedDeclaration .variable)
  | _ => []

/-- The names of one declarator: its own or, if it has none, those of the pattern that is its
first child. -/
def declaratorDeclarations (declarator : Fin n) : List (Declaration n) :=
  match t.namedDeclaration .variable declarator with
  | some d => [d]
  | none =>
    match t.children declarator with
    | [] => []
    | pattern :: _ => t.patternDeclarations pattern

/-- The names that a statement declares in the list it stands in. -/
def statementDeclarations (statement : Fin n) : List (Declaration n) :=
  match t.kind statement with
  | .variableStatement =>
    (t.children statement).flatMap fun declarators =>
      (t.children declarators).flatMap t.declaratorDeclarations
  | .functionDeclaration => (t.namedDeclaration .function statement).toList
  | .classDeclaration => (t.namedDeclaration .class statement).toList
  | .moduleDeclaration => (t.namedDeclaration .module statement).toList
  | _ => []

/-- The names that the statement list of a node declares. -/
def listDeclarations (i : Fin n) : List (Declaration n) :=
  (t.statements i).flatMap t.statementDeclarations

/-- The name of a function expression, declared inside the function itself. -/
def selfDeclarations (i : Fin n) : List (Declaration n) :=
  if t.kind i = .functionExpression then (t.namedDeclaration .function i).toList else []

/-- The parameters of a function. -/
def parameterDeclarations (i : Fin n) : List (Declaration n) :=
  ((t.children i).filter fun c => t.kind c = .parameter).filterMap (t.namedDeclaration .parameter)

/-- The kind of scope that a node introduces, if it introduces one. -/
def scopeKind? (i : Fin n) : Option ScopeKind :=
  match t.kind i with
  | .sourceFile => some .sourceFile
  | .block => some .block
  | .moduleBlock => some .module
  | .caseBlock => some .caseBlock
  | kind => if kind.isFunctionLike then some .function else none

/-- The names declared in the scope of a node, in the order in which they are declared. -/
def scopeDeclarations (i : Fin n) : List (Declaration n) :=
  match t.scopeKind? i with
  | some .sourceFile | some .block | some .module => t.listDeclarations i
  | some .caseBlock => (t.children i).flatMap t.listDeclarations
  | some .function => t.selfDeclarations i ++ t.parameterDeclarations i
  | some .global | none => []

/-- What the scopes of `const {a, b} = o; let [c] = o; class K {} namespace N { let d; }`
declare. -/
example :
    ((Source.build ⟨0⟩ .empty
        [.bindingElement "a" none, .bindingElement "b" none, .objectBindingPattern [0, 1],
          .identifier "o", .destructuringDeclaration 2 3, .variableStatement [4],
          .bindingElement "c" none, .arrayBindingPattern [6], .identifier "o",
          .destructuringDeclaration 7 8, .variableStatement [9], .classDeclaration "K" [],
          .letStatement "d" none, .moduleDeclaration "N" [12]]
        [5, 10, 11, 13]).map fun src => (List.finRange src.size).flatMap fun i =>
          (src.tree.scopeDeclarations i).map fun d =>
            (src.tree.kind i, src.interner.spellings.getD d.name.index "", d.kind)) =
      .ok [(.moduleBlock, "d", .variable), (.sourceFile, "a", .variable),
        (.sourceFile, "b", .variable), (.sourceFile, "c", .variable), (.sourceFile, "K", .class),
        (.sourceFile, "N", .module)] := rfl

/-- A parameter and a class with the name of a builtin, and two clauses that share a scope:
`(function self(Promise, x) { class Promise {} }); switch (1) { case 2: let y; default: let y;
}`. -/
example :
    ((Source.build ⟨0⟩ .empty
        [.parameter "Promise", .parameter "x", .classDeclaration "Promise" [],
          .functionExpression (some "self") [0, 1] [2], .expressionStatement 3, .literal "1",
          .literal "2", .letStatement "y" none, .caseClause 6 [7], .letStatement "y" none,
          .defaultClause [9], .switchStatement 5 [8, 10]]
        [4, 11]).map fun src => (List.finRange src.size).flatMap fun i =>
          (src.tree.scopeDeclarations i).map fun d =>
            (src.tree.kind i, src.interner.spellings.getD d.name.index "", d.kind)) =
      .ok [(.block, "Promise", .class), (.functionExpression, "self", .function),
        (.functionExpression, "Promise", .parameter), (.functionExpression, "x", .parameter),
        (.caseBlock, "y", .variable), (.caseBlock, "y", .variable)] := rfl

end SyntaxTree

end Predeclare
