import Predeclare.Tree.Kind

set_option relaxedAutoImplicit false
set_option autoImplicit false

/-!
# Syntactic forms

A form says which nodes to add to a tree for one piece of syntax: either one node whose children
exist already, or a node around a smaller form, with existing nodes on either side of it. A form
is laid out from the inside to the outside, so that children come before their parents.

## Main definitions

* `Form` — one node over existing nodes, or a node around a smaller form.
* `Form.mapRefs` — replaces the references to existing nodes.
* `Form.identifier`, `Form.letStatement`, `Form.switchStatement`, … — the forms of the language.
-/

namespace Predeclare

/-- What to add to a tree; `ν` denotes nodes that exist already. -/
inductive Form (ν : Type) where
  /-- A node over existing nodes. -/
  | node (kind : SyntaxKind) (text : Option String) (children : List ν)
  /-- A node over existing nodes and, between them, a form of its own. -/
  | around (kind : SyntaxKind) (text : Option String) (before : List ν) (inner : Form ν)
      (after : List ν)
  deriving DecidableEq, Repr

namespace Form

variable {ν μ ε : Type}

/-- Replaces the references to existing nodes, or fails as soon as one replacement does. -/
def mapRefs (f : ν → Except ε μ) : Form ν → Except ε (Form μ)
  | node kind text children => do return node kind text (← children.mapM f)
  | around kind text before inner after => do
    return around kind text (← before.mapM f) (← inner.mapRefs f) (← after.mapM f)

/-! ### Expressions -/

/-- A reference by name. -/
def identifier (name : String) : Form ν := node .identifier (some name) []

/-- A literal in its source spelling. -/
def literal (text : String) : Form ν := node .literal (some text) []

/-- A call of an expression. -/
def call (callee : ν) (arguments : List ν) : Form ν :=
  node .callExpression none (callee :: arguments)

/-- A call of a name. -/
def callNamed (callee : String) (arguments : List ν) : Form ν :=
  around .callExpression none [] (identifier callee) arguments

/-- An operator between two operands. -/
def binary (left : ν) (operator : String) (right : ν) : Form ν :=
  node .binaryExpression (some operator) [left, right]

/-- Access to a property by name. -/
def propertyAccess (object : ν) (name : String) : Form ν :=
  node .propertyAccessExpression (some name) [object]

/-- A function whose body is one node. -/
def arrowFunction (parameters : List ν) (body : ν) : Form ν :=
  node .arrowFunction none (parameters ++ [body])

/-! ### Statements -/

/-- A list of statements in braces. -/
def block (statements : List ν) : Form ν := node .block none statements

/-- An expression in statement position. -/
def expressionStatement (expression : ν) : Form ν := node .expressionStatement none [expression]

/-- A return, with or without a value. -/
def returnStatement (value : Option ν) : Form ν := node .returnStatement none value.toList

/-- A condition with one or two branches. -/
def ifStatement (condition thenBranch : ν) (elseBranch : Option ν) : Form ν :=
  node .ifStatement none (condition :: thenBranch :: elseBranch.toList)

/-- A loop with its condition in front. -/
def whileStatement (condition body : ν) : Form ν := node .whileStatement none [condition, body]

/-- A switch over its clauses, which it keeps in a case block. -/
def switchStatement (scrutinee : ν) (clauses : List ν) : Form ν :=
  around .switchStatement none [scrutinee] (node .caseBlock none clauses) []

/-- A clause with its test, the test in front of the statements. -/
def caseClause (test : ν) (statements : List ν) : Form ν :=
  node .caseClause none (test :: statements)

/-- The clause without a test. -/
def defaultClause (statements : List ν) : Form ν := node .defaultClause none statements

/-! ### Declarations -/

/-- A named parameter. -/
def parameter (name : String) : Form ν := node .parameter (some name) []

/-- A function of some kind: its parameters, then its body in a block. -/
def function (kind : SyntaxKind) (name : Option String) (parameters body : List ν) : Form ν :=
  around kind name parameters (block body) []

/-- A function in expression position; a name is visible inside it only. -/
def functionExpression (name : Option String) (parameters body : List ν) : Form ν :=
  function .functionExpression name parameters body

/-- A function in statement position. -/
def functionDeclaration (name : String) (parameters body : List ν) : Form ν :=
  function .functionDeclaration (some name) parameters body

/-- A function in a class. -/
def methodDeclaration (name : String) (parameters body : List ν) : Form ν :=
  function .methodDeclaration (some name) parameters body

/-- A declarator that gives a name. -/
def variableDeclaration (name : String) (initializer : Option ν) : Form ν :=
  node .variableDeclaration (some name) initializer.toList

/-- A declarator that takes a value apart by a pattern. -/
def destructuringDeclaration (pattern initializer : ν) : Form ν :=
  node .variableDeclaration none [pattern, initializer]

/-- A pattern that selects by property. -/
def objectBindingPattern (elements : List ν) : Form ν := node .objectBindingPattern none elements

/-- A pattern that selects by position. -/
def arrayBindingPattern (elements : List ν) : Form ν := node .arrayBindingPattern none elements

/-- A name in a pattern, with or without a default. -/
def bindingElement (name : String) (default : Option ν) : Form ν :=
  node .bindingElement (some name) default.toList

/-- The statement around a list of declarators. -/
def variableStatement (declarations : List ν) : Form ν :=
  around .variableStatement none [] (node .variableDeclarationList none declarations) []

/-- The statement around a single named declarator. -/
def letStatement (name : String) (initializer : Option ν) : Form ν :=
  around .variableStatement none []
    (around .variableDeclarationList none [] (variableDeclaration name initializer) []) []

/-- A class over its members. -/
def classDeclaration (name : String) (members : List ν) : Form ν :=
  node .classDeclaration (some name) members

/-- A namespace, which keeps its statements in a module block. -/
def moduleDeclaration (name : String) (statements : List ν) : Form ν :=
  around .moduleDeclaration (some name) [] (node .moduleBlock none statements) []

end Form

end Predeclare
