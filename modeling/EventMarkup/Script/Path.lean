import EventMarkup.Peg.Match
import EventMarkup.Text.Blank
import EventMarkup.Text.NameChar

/-!
# Paths

A path names something that can be called: an ASCII name, followed by any number of accesses such
as `.name`, `[0]`, `[name]`, `['text']` and `["text"]`, with blanks allowed at either end. The text
between quotes holds no line break, and it ends at the first closing mark behind which the rest is
in order; so the access in `a['b']c']` is to `b']c`.
-/

namespace EventMarkup.Script

open Peg Peg.Pattern Text

inductive PathRule where
  /-- A whole path. -/
  | path
  /-- An ASCII name. -/
  | name
  /-- A name and nothing else. -/
  | bareName
  /-- The accesses behind the name, the blanks behind them and the end of the text. -/
  | tail
  /-- The rest of a path from inside single quotes. -/
  | singleQuoted
  /-- The rest of a path from inside double quotes. -/
  | doubleQuoted
  deriving DecidableEq, Repr

namespace PathRule

/-- The blanks that may surround a path. -/
def space : Pattern PathRule := .one fun c => isBlank c || c == '\uFEFF'

/-- The rest of a path from inside quotes that end with the given mark. -/
def quotedRest (mark : String) (again : PathRule) : Pattern PathRule :=
  .either (.both (lit mark) (.rule .tail)) (.both (.one fun c => !isLineEnd c) (.rule again))

def pattern : PathRule → Pattern PathRule
  | .path => joined [.star space, .rule .name, .rule .tail]
  | .name => .both (.one isWordStart) (.star (.one isWordRest))
  | .bareName => .both (.rule .name) .atEnd
  | .tail =>
    oneOf
      [joined [lit ".", .rule .name, .rule .tail],
        .both (lit "['") (.rule .singleQuoted),
        .both (lit "[\"") (.rule .doubleQuoted),
        joined [lit "[", plus (.one Char.isDigit), lit "]", .rule .tail],
        joined [lit "[", .rule .name, lit "]", .rule .tail],
        .both (.star space) .atEnd]
  | .singleQuoted => quotedRest "']" .singleQuoted
  | .doubleQuoted => quotedRest "\"]" .doubleQuoted

end PathRule

def pathGrammar : Grammar PathRule where
  body := PathRule.pattern
  depth := 100

/-- Whether a text is a path. -/
def isPath (text : String) : Bool := (pathGrammar.run .path text.toList).isMatch

def isIdentifier (text : String) : Bool := (pathGrammar.run .bareName text.toList).isMatch

end EventMarkup.Script
