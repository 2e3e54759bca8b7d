/-!
# Rules of the script grammar

The names of the phrases that refer to one another. Words, numbers and other things without inner
phrases have no rule of their own; `Script.Token` describes them directly.
-/

namespace EventMarkup.Script

/-- The phrases of the script language. -/
inductive Rule where
  /-- What may follow the word `return` in a function. -/
  | body
  | statement
  /-- A semicolon that stands for a statement without content. -/
  | emptyStatement
  | block
  | ifStatement
  | whileStatement
  | doStatement
  | forStatement
  | forHead
  /-- A semicolon between the parts of a loop head. -/
  | headSeparator
  | forBinding
  | switchStatement
  | caseClause
  | tryStatement
  | catchClause
  | finallyClause
  | simpleStatement
  /-- A semicolon that ends the statement before it. -/
  | terminator
  | declaration
  | bindingTarget
  | bindingElement
  | patternItem
  | patternProperty
  | expression
  | assignment
  | arrowFunction
  | formalParams
  | param
  | conditional
  | binary
  | unary
  | callMember
  | suffix
  | index
  | arguments
  | argument
  | primary
  | arrayElement
  | property
  | propertyKey
  | functionExpression
  | templateLiteral
  | templateHole
  deriving DecidableEq, Repr

end EventMarkup.Script
