import EventMarkup.Script.Grammar

/-!
# Shapes of rules

A shape is a pattern of the script grammar whose tokens are named and not spelled out. What is
proved about all patterns of the grammar is proved about shapes, token by token and combinator by
combinator; `Shape.pattern_ofRule` says that every rule has a shape.
-/

namespace EventMarkup.Script

open Peg

/-- The punctuation that opens, closes or separates. -/
inductive Mark where
  | openRound
  | closeRound
  | openSquare
  | closeSquare
  | openCurly
  | closeCurly
  | comma
  | semicolon
  | colon
  | question
  /-- A question mark and a dot. -/
  | chain
  | dot
  /-- Three dots. -/
  | spread
  | backquote
  /-- A dollar sign and a curly brace. -/
  | hole
  deriving DecidableEq, Repr

def Mark.text : Mark → String
  | .openRound => "("
  | .closeRound => ")"
  | .openSquare => "["
  | .closeSquare => "]"
  | .openCurly => "\x7b"
  | .closeCurly => "\x7d"
  | .comma => ","
  | .semicolon => ";"
  | .colon => ":"
  | .question => "?"
  | .chain => "?."
  | .dot => "."
  | .spread => "..."
  | .backquote => "\x60"
  | .hole => "$\x7b"

/-- The tokens of the grammar, and the gap between two of them. -/
inductive Leaf where
  | mark (m : Mark)
  /-- An operator, by how it is written. -/
  | operator (s : String)
  /-- The place behind an equal sign where no other operator goes on. -/
  | assigned
  | word (w : String)
  | identifier
  | name
  | string
  | number
  | regex
  | templateText
  | gap
  /-- The place where a statement ends without a semicolon. -/
  | pause
  deriving DecidableEq, Repr

/-- The pattern of a token. -/
def Leaf.pattern : Leaf → Pattern Rule
  | .mark m => .lit m.text
  | .operator s => .lit s
  | .assigned => .notAhead (.either (.lit "=") (.lit ">"))
  | .word w => Script.word w
  | .identifier => Script.identifier
  | .name => Script.name
  | .string => stringLiteral
  | .number => numberLiteral
  | .regex => regexLiteral
  | .templateText => templateChars
  | .gap => Script.gap
  | .pause => .either (.ahead (.lit "\x7d")) (.ahead endOfScript)

/-- A pattern over named tokens. -/
inductive Shape where
  | nothing
  | leaf (l : Leaf)
  | rule (r : Rule)
  | both (a b : Shape)
  | either (a b : Shape)
  | star (a : Shape)
  | phrase (a : Shape)
  deriving DecidableEq, Repr

namespace Shape

/-- The pattern that a shape stands for. -/
def pattern : Shape → Pattern Rule
  | .nothing => .nothing
  | .leaf l => l.pattern
  | .rule r => .rule r
  | .both a b => .both a.pattern b.pattern
  | .either a b => .either a.pattern b.pattern
  | .star a => .star a.pattern
  | .phrase a => .phrase a.pattern

def mark (m : Mark) : Shape := .leaf (.mark m)

def word (w : String) : Shape := .leaf (.word w)

def optional (a : Shape) : Shape := .either a .nothing

def oneOf : List Shape → Shape
  | [] => .nothing
  | [a] => a
  | a :: more => .either a (oneOf more)

def row : List Shape → Shape
  | [] => .nothing
  | [a] => a
  | a :: more => .both a (.both (.leaf .gap) (row more))

def many (a : Shape) : Shape := optional (.both a (.star (.both (.leaf .gap) a)))

def commaSeparated (a : Shape) : Shape := row [a, many (row [mark .comma, a])]

/-- Shapes separated by commas, with an optional comma at the end, or nothing at all. -/
def commaList (a : Shape) : Shape :=
  optional (row [a, many (row [mark .comma, a]), optional (mark .comma)])

def holedList (a : Shape) : Shape := row [optional a, many (row [mark .comma, optional a])]

def parenthesized : Shape := row [mark .openRound, .rule .expression, mark .closeRound]

def braced : Shape := row [mark .openCurly, many (.rule .statement), mark .closeCurly]

def declarator : Shape := oneOf [word "var", word "let", word "const"]

def assignOperator : Shape :=
  oneOf
    (([">>>=", "<<=", ">>=", "**=", "&&=", "||=", "??=", "+=", "-=", "*=", "/=", "%=",
        "&=", "|=", "^="].map fun s => leaf (.operator s)) ++
      [row [leaf (.operator "="), leaf .assigned]])

def binaryOperator : Shape :=
  oneOf
    ((["===", "!==", "==", "!=", "**", "<=", ">=", "<<", ">>>", ">>", "&&", "||", "??", "<", ">",
        "+", "-", "*", "/", "%", "&", "|", "^"].map fun s => leaf (.operator s)) ++
      [word "instanceof", word "in"])

def frontOperator : Shape :=
  oneOf
    ((["++", "--", "!", "~", "+", "-"].map fun s => leaf (.operator s)) ++
      [word "typeof", word "void", word "delete"])

/-- The operators behind an operand. -/
def endOperator : Shape := .either (leaf (.operator "++")) (leaf (.operator "--"))

/-- The front of a loop head that declares its variable. -/
def declaredBinding : Shape := row [declarator, .rule .bindingTarget]

/-- The shape of each rule but the whole body, which looks at the end of the text. -/
def ofRule : Rule → Shape
  | .body => .nothing
  | .statement =>
    oneOf
      [rule .emptyStatement, rule .block, rule .ifStatement, rule .forStatement,
        rule .whileStatement, rule .doStatement, rule .switchStatement, rule .tryStatement,
        rule .simpleStatement]
  | .emptyStatement => mark .semicolon
  | .block => braced
  | .ifStatement =>
    row [word "if", parenthesized, rule .statement,
      optional (row [word "else", rule .statement])]
  | .whileStatement => row [word "while", parenthesized, rule .statement]
  | .doStatement =>
    row [word "do", rule .statement, word "while", parenthesized, optional (rule .terminator)]
  | .forStatement =>
    row [word "for", mark .openRound, rule .forHead, mark .closeRound, rule .statement]
  | .forHead =>
    either
      (row
        [optional (either (rule .declaration) (rule .expression)), rule .headSeparator,
          optional (rule .expression), rule .headSeparator, optional (rule .expression)])
      (row [rule .forBinding, either (word "of") (word "in"), rule .expression])
  | .headSeparator => mark .semicolon
  | .forBinding => either declaredBinding (rule .callMember)
  | .switchStatement =>
    row [word "switch", parenthesized, mark .openCurly, many (rule .caseClause),
      mark .closeCurly]
  | .caseClause =>
    row
      [either (row [word "case", rule .expression]) (word "default"), mark .colon,
        many (rule .statement)]
  | .tryStatement =>
    row
      [word "try", rule .block,
        either (row [rule .catchClause, optional (rule .finallyClause)]) (rule .finallyClause)]
  | .catchClause =>
    row
      [word "catch", optional (row [mark .openRound, rule .bindingTarget, mark .closeRound]),
        rule .block]
  | .finallyClause => row [word "finally", rule .block]
  | .simpleStatement =>
    row
      [oneOf
        [row [word "return", optional (rule .expression)],
          row [word "throw", rule .expression], word "break", word "continue",
          rule .declaration, rule .expression],
        either (rule .terminator) (leaf .pause)]
  | .terminator => mark .semicolon
  | .declaration => row [declarator, commaSeparated (rule .bindingElement)]
  | .bindingTarget =>
    oneOf
      [leaf .identifier, row [mark .openSquare, holedList (rule .patternItem), mark .closeSquare],
        row [mark .openCurly, commaList (rule .patternProperty), mark .closeCurly]]
  | .bindingElement =>
    row [rule .bindingTarget, optional (row [leaf (.operator "="), rule .assignment])]
  | .patternItem => either (row [mark .spread, rule .bindingTarget]) (rule .bindingElement)
  | .patternProperty =>
    oneOf
      [row [mark .spread, leaf .identifier],
        row [rule .propertyKey, mark .colon, rule .bindingElement],
        row [leaf .identifier, optional (row [leaf (.operator "="), rule .assignment])]]
  | .formalParams => row [mark .openRound, commaList (rule .param), mark .closeRound]
  | .param => either (row [mark .spread, rule .bindingTarget]) (rule .bindingElement)
  | .expression => phrase (commaSeparated (rule .assignment))
  | .assignment =>
    either
      (either (row [word "async", rule .arrowFunction]) (rule .arrowFunction))
      (row [rule .conditional, optional (row [assignOperator, rule .assignment])])
  | .arrowFunction =>
    row
      [either (leaf .identifier) (rule .formalParams), leaf (.operator "=>"),
        either braced (rule .assignment)]
  | .conditional =>
    row
      [rule .binary,
        optional (row [mark .question, rule .assignment, mark .colon, rule .assignment])]
  | .binary => row [rule .unary, many (row [binaryOperator, rule .unary])]
  | .unary => row [many frontOperator, rule .callMember, optional endOperator]
  | .callMember => row [many (word "new"), rule .primary, many (rule .suffix)]
  | .suffix =>
    oneOf
      [row [mark .chain, oneOf [rule .arguments, rule .index, leaf .name]],
        row [mark .dot, leaf .name], rule .index, rule .arguments, rule .templateLiteral]
  | .index => row [mark .openSquare, rule .expression, mark .closeSquare]
  | .arguments => row [mark .openRound, commaList (rule .argument), mark .closeRound]
  | .argument => row [optional (mark .spread), rule .assignment]
  | .primary =>
    oneOf
      [parenthesized, row [mark .openSquare, holedList (rule .arrayElement), mark .closeSquare],
        row [mark .openCurly, commaList (rule .property), mark .closeCurly],
        rule .functionExpression, rule .templateLiteral, leaf .string, leaf .number, leaf .regex,
        word "this", word "true", word "false", word "null", leaf .identifier]
  | .arrayElement => row [optional (mark .spread), rule .assignment]
  | .property =>
    oneOf
      [row [mark .spread, rule .assignment],
        row [rule .propertyKey, mark .colon, rule .assignment],
        row [optional (word "async"), rule .propertyKey, rule .formalParams, braced],
        leaf .identifier]
  | .propertyKey =>
    oneOf
      [leaf .name, leaf .string, leaf .number,
        row [mark .openSquare, rule .assignment, mark .closeSquare]]
  | .functionExpression =>
    row
      [optional (word "async"), word "function", optional (leaf .identifier),
        rule .formalParams, braced]
  | .templateLiteral =>
    phrase (both (mark .backquote)
      (both (star (either (leaf .templateText) (rule .templateHole))) (mark .backquote)))
  | .templateHole => phrase (row [mark .hole, rule .expression, mark .closeCurly])

theorem pattern_ofRule {r : Rule} (h : r ≠ .body) : (ofRule r).pattern = r.pattern := by
  cases r with
  | body => exact absurd rfl h
  | _ => rfl

end Shape

end EventMarkup.Script
