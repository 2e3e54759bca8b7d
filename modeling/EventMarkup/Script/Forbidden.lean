import EventMarkup.Script.Literal
import EventMarkup.Text.Pieces

/-!
# Forbidden words

Some words of the language never make sense in an expression of a template. `forbiddenWord?` finds
the first of them that stands as a whole word in the code of a script; what its literals hold does
not count. The operators `typeof`, `instanceof` and `in` are allowed.
-/

namespace EventMarkup.Script

open Text

/-- The words that never make sense in an expression of a template. -/
def forbiddenWords : List String :=
  ["do", "if", "for", "let", "new", "try", "var", "case", "else", "with", "await", "break", "catch",
    "class", "const", "super", "throw", "while", "yield", "delete", "export", "import", "return",
    "switch", "default", "extends", "finally", "continue", "debugger", "function", "arguments"]

/-- The characters of which words are made when forbidden words are looked for. -/
def isWordChar (c : Char) : Bool := c.isAlphanum || c == '_'

/-- The words of a text, among them an empty one between any two adjacent separators. -/
def words (s : List Char) : List String := (pieces (fun c => !isWordChar c) s).map String.ofList

/-- The first forbidden word in the code of a script. -/
def forbiddenWord? (text : String) : Option String :=
  (words (withoutLiterals text.toList)).find? (forbiddenWords.contains ·)

end EventMarkup.Script
