import EventMarkup.Text.Blank
import EventMarkup.Text.NameChar
import EventMarkup.Peg.Pattern
import EventMarkup.Script.Rule

/-!
# Tokens of the script grammar

The parts of a script that hold no phrases: the gap of blanks and comments between two tokens,
names and keywords, and the literals. Each of them but the gap is reported as one thing when it
fails.
-/

namespace EventMarkup.Script

open Peg Peg.Pattern Text

/-- The blanks that the grammar skips between tokens. -/
def isGapBlank (c : Char) : Bool :=
  c == ' ' || c == '\t' || c == '\n' || c == '\x0B' || c == '\x0C' || c == '\r' ||
    c == '\u00A0' || c == '\uFEFF' || c == '\u2028' || c == '\u2029'

/-- A comment: up to the first closing mark, or up to the end of the line. -/
def comment : Pattern Rule :=
  .either
    (joined [lit "/*", .star (anyBut (lit "*/")), lit "*/"])
    (joined [lit "//", .star (.one fun c => !isLineEnd c)])

/-- The blanks and comments between two tokens. -/
def gap : Pattern Rule :=
  .both (.star (.one isGapBlank)) (.star (.both comment (.star (.one isGapBlank))))

/-- The end of the script. -/
def endOfScript : Pattern Rule := .token .atEnd

/-! ## Words -/

def wordEnd : Pattern Rule := .notAhead (.one isNameRest)

def nameChars : Pattern Rule := .both (.one isNameStart) (.star (.one isNameRest))

/-- A name, which may be a word of the language. -/
def name : Pattern Rule := .token nameChars

/-- A word of the language. -/
def word (w : String) : Pattern Rule := .token (.both (lit w) wordEnd)

/-- The words that cannot name a variable. A word stands behind those that begin with it. -/
def reservedWords : List String :=
  ["break", "case", "catch", "class", "const", "continue", "debugger", "default", "delete", "do",
    "else", "enum", "export", "extends", "false", "finally", "for", "function", "if", "import",
    "instanceof", "in", "new", "null", "return", "super", "switch", "this", "throw", "true", "try",
    "typeof", "var", "void", "while", "with"]

/-- A word that cannot name a variable. -/
def reservedWord : Pattern Rule := .both (oneOf (reservedWords.map lit)) wordEnd

def identifier : Pattern Rule := .token (.both (.notAhead reservedWord) nameChars)

/-! ## Literals -/

def escape : Pattern Rule := .both (lit "\\") anyChar

def stringBetween (mark : Char) : Pattern Rule :=
  joined [.text [mark],
    .star (.either escape (.one fun c => !(c == mark || c == '\\' || isLineEnd c))),
    .text [mark]]

def stringLiteral : Pattern Rule := .token (.either (stringBetween '\'') (stringBetween '"'))

/-- A stretch of template text without a hole. -/
def templateChars : Pattern Rule :=
  .token (plus (oneOf
    [escape, .both (lit "$") (.notAhead (lit "\x7b")),
      .one fun c => !(c == '\x60' || c == '\\' || c == '$')]))

def digits : Pattern Rule := plus (.one Char.isDigit)

def isHexDigit (c : Char) : Bool :=
  c.isDigit || ('a' ≤ c && c ≤ 'f') || ('A' ≤ c && c ≤ 'F')

def basedNumber (lower upper : String) (isDigit : Char → Bool) : Pattern Rule :=
  .both (.either (lit lower) (lit upper)) (plus (.one isDigit))

def exponent : Pattern Rule :=
  joined [.either (lit "e") (lit "E"), optional (.either (lit "+") (lit "-")), digits]

def decimalNumber : Pattern Rule :=
  .both
    (.either
      (.both digits (optional (.both (lit ".") (.star (.one Char.isDigit)))))
      (.both (lit ".") digits))
    (optional exponent)

/-- A number, which no name may follow directly. -/
def numberLiteral : Pattern Rule :=
  .token (joined
    [oneOf
      [basedNumber "0x" "0X" isHexDigit,
        basedNumber "0b" "0B" fun c => c == '0' || c == '1',
        basedNumber "0o" "0O" fun c => '0' ≤ c && c ≤ '7',
        decimalNumber],
      optional (lit "n"), wordEnd])

/-- A regular expression with its flags, all on one line. -/
def regexLiteral : Pattern Rule :=
  .token (joined
    [lit "/", .notAhead (.either (lit "/") (lit "*")),
      plus (oneOf
        [escape,
          joined [lit "[",
            .star (.either escape (.one fun c => !(c == ']' || isLineEnd c))), lit "]"],
          .one fun c => !(c == '/' || isLineEnd c)]),
      lit "/", .star (.one isNameRest)])

end EventMarkup.Script
