set_option relaxedAutoImplicit false
set_option autoImplicit false

/-!
# Kinds of syntax nodes

Every node of a syntax tree has one of these kinds. Four classes of kinds decide what the rest
of the library does with a node: statements stand in statement lists, block-like nodes own such a
list, function-like nodes own parameters, and declarations may introduce a symbol.

## Main definitions

* `SyntaxKind` — the kinds, and `SyntaxKind.text`, the word used for each in messages.
* `SyntaxKind.isStatement`, `isBlockLike`, `isFunctionLike`, `isDeclaration` — the four classes.
-/

namespace Predeclare

/-- The kind of a syntax node. -/
inductive SyntaxKind where
  | sourceFile
  | block
  | moduleDeclaration
  | moduleBlock
  | switchStatement
  | caseBlock
  | caseClause
  | defaultClause
  | variableStatement
  | variableDeclarationList
  | variableDeclaration
  | objectBindingPattern
  | arrayBindingPattern
  | bindingElement
  | functionDeclaration
  | classDeclaration
  | methodDeclaration
  | expressionStatement
  | returnStatement
  | ifStatement
  | whileStatement
  | parameter
  | identifier
  | callExpression
  | binaryExpression
  | propertyAccessExpression
  | arrowFunction
  | functionExpression
  | literal
  deriving DecidableEq, Repr

namespace SyntaxKind

/-- The word for a kind in messages and reports. -/
def text : SyntaxKind → String
  | sourceFile => "source_file"
  | block => "block"
  | moduleDeclaration => "module_declaration"
  | moduleBlock => "module_block"
  | switchStatement => "switch_statement"
  | caseBlock => "case_block"
  | caseClause => "case_clause"
  | defaultClause => "default_clause"
  | variableStatement => "variable_statement"
  | variableDeclarationList => "variable_declaration_list"
  | variableDeclaration => "variable_declaration"
  | objectBindingPattern => "object_binding_pattern"
  | arrayBindingPattern => "array_binding_pattern"
  | bindingElement => "binding_element"
  | functionDeclaration => "function_declaration"
  | classDeclaration => "class_declaration"
  | methodDeclaration => "method_declaration"
  | expressionStatement => "expression_statement"
  | returnStatement => "return_statement"
  | ifStatement => "if_statement"
  | whileStatement => "while_statement"
  | parameter => "parameter"
  | identifier => "identifier"
  | callExpression => "call_expression"
  | binaryExpression => "binary_expression"
  | propertyAccessExpression => "property_access_expression"
  | arrowFunction => "arrow_function"
  | functionExpression => "function_expression"
  | literal => "literal"

/-- Kinds that may stand in a statement list. -/
def isStatement : SyntaxKind → Bool
  | block | moduleDeclaration | switchStatement | variableStatement | functionDeclaration
  | classDeclaration | expressionStatement | returnStatement | ifStatement | whileStatement => true
  | _ => false

/-- Kinds that own a statement list. -/
def isBlockLike : SyntaxKind → Bool
  | sourceFile | block | moduleBlock | caseClause | defaultClause => true
  | _ => false

/-- Kinds that own parameters and a body. -/
def isFunctionLike : SyntaxKind → Bool
  | functionDeclaration | methodDeclaration | arrowFunction | functionExpression => true
  | _ => false

/-- Kinds that may introduce a symbol. -/
def isDeclaration : SyntaxKind → Bool
  | variableDeclaration | bindingElement | functionDeclaration | functionExpression
  | classDeclaration | moduleDeclaration | parameter => true
  | _ => false

end SyntaxKind

end Predeclare
