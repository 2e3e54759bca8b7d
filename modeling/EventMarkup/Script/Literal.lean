import EventMarkup.Peg.Match

/-!
# Literals of a script

A second, smaller grammar sees a script as code with literals in it: strings in single or double
quotes, which may run over several lines, and templates between backquotes, whose text alternates
with holes that hold code again. Every other character is code, so every text has a reading.
`withoutLiterals` puts one space in the place of each string and of each stretch of template text,
and keeps the code, also that of the holes.
-/

namespace EventMarkup.Script

open Peg Peg.Pattern

/-- The parts of a script as seen by its literals. -/
inductive LiteralRule where
  /-- A whole script. -/
  | script
  /-- A string in single or double quotes. -/
  | string
  /-- A template between backquotes. -/
  | template
  /-- A stretch of template text without a hole. -/
  | templateText
  /-- The code in a hole of a template, in which braces are balanced. -/
  | hole
  deriving DecidableEq, Repr

namespace LiteralRule

def escape : Pattern LiteralRule := .both (lit "\\") anyChar

def stringBetween (mark : Char) : Pattern LiteralRule :=
  joined [.text [mark],
    .star (.either escape (.one fun c => !(c == mark || c == '\\'))),
    .text [mark]]

def pattern : LiteralRule → Pattern LiteralRule
  | .script =>
    .both (.star (oneOf [.rule .string, .rule .template, anyChar])) .atEnd
  | .string => .either (stringBetween '\'') (stringBetween '"')
  | .template =>
    joined
      [lit "\x60",
        .star (.either (.rule .templateText) (joined [lit "$\x7b", .rule .hole, lit "\x7d"])),
        lit "\x60"]
  | .templateText =>
    plus (oneOf
      [escape, .both (lit "$") (.notAhead (lit "\x7b")),
        .one fun c => !(c == '\x60' || c == '\\' || c == '$')])
  | .hole =>
    .star (oneOf
      [.rule .string, .rule .template, joined [lit "\x7b", .rule .hole, lit "\x7d"],
        .one fun c => !(c == '\x7b' || c == '\x7d')])

/-- Whether a part is literal text and not code. -/
def isText : LiteralRule → Bool
  | .string => true
  | .templateText => true
  | _ => false

end LiteralRule

def literalGrammar : Grammar LiteralRule where
  body := LiteralRule.pattern
  depth := 100

/-- A script with one space in the place of each string and of each stretch of template text. -/
def withoutLiterals (s : List Char) : List Char :=
  match literalGrammar.run .script s with
  | .matched trees _ _ _ => Tree.coveredAll LiteralRule.isText ' ' trees
  | _ => s

def stripLiterals (text : String) : String := String.ofList (withoutLiterals text.toList)

end EventMarkup.Script
