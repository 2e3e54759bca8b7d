import EventMarkup.Peg.Match
import EventMarkup.Script.Token

/-!
# The script grammar

A best-effort grammar of script phrases. It is generous where a full grammar would need more
context, and its purpose is to tell whether a text can stand behind `return` in a function body:
an expression, or nothing, and then statements behind semicolons. Statements that are separated by
line breaks alone are the business of `Script.Body`.
-/

namespace EventMarkup.Script

open Peg Peg.Pattern

def row (ps : List (Pattern Rule)) : Pattern Rule := spaced gap ps

/-- The pattern as often as it matches, with gaps between the rounds. -/
def many (p : Pattern Rule) : Pattern Rule := starSpaced gap p

def commaSeparated (p : Pattern Rule) : Pattern Rule := row [p, many (row [lit ",", p])]

/-- Patterns separated by commas, with an optional comma at the end, or nothing at all. -/
def commaList (p : Pattern Rule) : Pattern Rule :=
  optional (row [p, many (row [lit ",", p]), optional (lit ",")])

/-- A list with commas in which places may be left empty. -/
def holedList (p : Pattern Rule) : Pattern Rule :=
  row [optional p, many (row [lit ",", optional p])]

def parenthesized : Pattern Rule := row [lit "(", .rule .expression, lit ")"]

def braced : Pattern Rule := row [lit "\x7b", many (.rule .statement), lit "\x7d"]

/-- A word that starts a declaration. -/
def declarator : Pattern Rule := oneOf [word "var", word "let", word "const"]

/-- The operators that assign. -/
def assignOperator : Pattern Rule :=
  oneOf
    (([">>>=", "<<=", ">>=", "**=", "&&=", "||=", "??=", "+=", "-=", "*=", "/=", "%=",
        "&=", "|=", "^="].map lit) ++
      [row [lit "=", .notAhead (.either (lit "=") (lit ">"))]])

/-- The operators between two operands. The first that matches is taken, so a shorter operator
stands behind the longer ones that begin with it. -/
def binaryOperator : Pattern Rule :=
  oneOf
    ((["===", "!==", "==", "!=", "**", "<=", ">=", "<<", ">>>", ">>", "&&", "||", "??", "<", ">",
        "+", "-", "*", "/", "%", "&", "|", "^"].map lit) ++
      [word "instanceof", word "in"])

def frontOperator : Pattern Rule :=
  oneOf
    ((["++", "--", "!", "~", "+", "-"].map lit) ++ [word "typeof", word "void", word "delete"])

def Rule.pattern : Rule → Pattern Rule
  /- Statements -/
  | .body =>
    .both gap (row
      [optional (.rule .expression), optional (row [lit ";", many (.rule .statement)]),
        endOfScript])
  | .statement =>
    oneOf
      [.rule .emptyStatement, .rule .block, .rule .ifStatement, .rule .forStatement,
        .rule .whileStatement, .rule .doStatement, .rule .switchStatement, .rule .tryStatement,
        .rule .simpleStatement]
  | .emptyStatement => lit ";"
  | .block => braced
  | .ifStatement =>
    row [word "if", parenthesized, .rule .statement,
      optional (row [word "else", .rule .statement])]
  | .whileStatement => row [word "while", parenthesized, .rule .statement]
  | .doStatement =>
    row [word "do", .rule .statement, word "while", parenthesized, optional (.rule .terminator)]
  | .forStatement =>
    row [word "for", lit "(", .rule .forHead, lit ")", .rule .statement]
  | .forHead =>
    .either
      (row
        [optional (.either (.rule .declaration) (.rule .expression)), .rule .headSeparator,
          optional (.rule .expression), .rule .headSeparator, optional (.rule .expression)])
      (row [.rule .forBinding, .either (word "of") (word "in"), .rule .expression])
  | .headSeparator => lit ";"
  | .forBinding => .either (row [declarator, .rule .bindingTarget]) (.rule .callMember)
  | .switchStatement =>
    row [word "switch", parenthesized, lit "\x7b", many (.rule .caseClause), lit "\x7d"]
  | .caseClause =>
    row
      [.either (row [word "case", .rule .expression]) (word "default"), lit ":",
        many (.rule .statement)]
  | .tryStatement =>
    row
      [word "try", .rule .block,
        .either
          (row [.rule .catchClause, optional (.rule .finallyClause)])
          (.rule .finallyClause)]
  | .catchClause =>
    row [word "catch", optional (row [lit "(", .rule .bindingTarget, lit ")"]), .rule .block]
  | .finallyClause => row [word "finally", .rule .block]
  | .simpleStatement =>
    row
      [oneOf
        [row [word "return", optional (.rule .expression)],
          row [word "throw", .rule .expression], word "break", word "continue",
          .rule .declaration, .rule .expression],
        oneOf [.rule .terminator, .ahead (lit "\x7d"), .ahead endOfScript]]
  | .terminator => lit ";"
  /- Declarations and parameters -/
  | .declaration => row [declarator, commaSeparated (.rule .bindingElement)]
  | .bindingTarget =>
    oneOf
      [identifier, row [lit "[", holedList (.rule .patternItem), lit "]"],
        row [lit "\x7b", commaList (.rule .patternProperty), lit "\x7d"]]
  | .bindingElement =>
    row [.rule .bindingTarget, optional (row [lit "=", .rule .assignment])]
  | .patternItem => .either (row [lit "...", .rule .bindingTarget]) (.rule .bindingElement)
  | .patternProperty =>
    oneOf
      [row [lit "...", identifier],
        row [.rule .propertyKey, lit ":", .rule .bindingElement],
        row [identifier, optional (row [lit "=", .rule .assignment])]]
  | .formalParams => row [lit "(", commaList (.rule .param), lit ")"]
  | .param => .either (row [lit "...", .rule .bindingTarget]) (.rule .bindingElement)
  /- Expressions -/
  | .expression => .phrase (commaSeparated (.rule .assignment))
  | .assignment =>
    .either
      (.either (row [word "async", .rule .arrowFunction]) (.rule .arrowFunction))
      (row [.rule .conditional, optional (row [assignOperator, .rule .assignment])])
  | .arrowFunction =>
    row
      [.either identifier (.rule .formalParams), lit "=>", .either braced (.rule .assignment)]
  | .conditional =>
    row
      [.rule .binary,
        optional (row [lit "?", .rule .assignment, lit ":", .rule .assignment])]
  | .binary => row [.rule .unary, many (row [binaryOperator, .rule .unary])]
  | .unary =>
    row [many frontOperator, .rule .callMember, optional (.either (lit "++") (lit "--"))]
  | .callMember => row [many (word "new"), .rule .primary, many (.rule .suffix)]
  | .suffix =>
    oneOf
      [row [lit "?.", oneOf [.rule .arguments, .rule .index, name]], row [lit ".", name],
        .rule .index, .rule .arguments, .rule .templateLiteral]
  | .index => row [lit "[", .rule .expression, lit "]"]
  | .arguments => row [lit "(", commaList (.rule .argument), lit ")"]
  | .argument => row [optional (lit "..."), .rule .assignment]
  | .primary =>
    oneOf
      [parenthesized, row [lit "[", holedList (.rule .arrayElement), lit "]"],
        row [lit "\x7b", commaList (.rule .property), lit "\x7d"], .rule .functionExpression,
        .rule .templateLiteral, stringLiteral, numberLiteral, regexLiteral, word "this",
        word "true", word "false", word "null", identifier]
  | .arrayElement => row [optional (lit "..."), .rule .assignment]
  | .property =>
    oneOf
      [row [lit "...", .rule .assignment],
        row [.rule .propertyKey, lit ":", .rule .assignment],
        row [optional (word "async"), .rule .propertyKey, .rule .formalParams, braced],
        identifier]
  | .propertyKey =>
    oneOf [name, stringLiteral, numberLiteral, row [lit "[", .rule .assignment, lit "]"]]
  | .functionExpression =>
    row
      [optional (word "async"), word "function", optional identifier, .rule .formalParams, braced]
  | .templateLiteral =>
    .phrase (joined
      [lit "\x60", .star (.either templateChars (.rule .templateHole)), lit "\x60"])
  | .templateHole => .phrase (row [lit "$\x7b", .rule .expression, lit "\x7d"])

def grammar : Grammar Rule where
  body := Rule.pattern
  depth := 1000

end EventMarkup.Script
