import EventMarkup.Script.Grammar

/-!
# Function bodies

`isBody` tells whether a text can stand behind `return` in a function body. The grammar wants a
semicolon between two statements. Where it stops at the first token of a line, a semicolon is put
in front of that token and the text is judged again; so statements may be separated by line breaks
alone. Every such semicolon uses up a line break, which bounds the number of rounds.
-/

namespace EventMarkup.Script

open Peg Text

/-- What the grammar says of a text as a function body. -/
inductive Verdict where
  /-- The text is a function body. -/
  | accepted
  /-- The text is no function body, and this many characters of it are not to blame. -/
  | stopped (place : Nat)
  deriving DecidableEq, Repr

/-- Reads a text as a function body by the grammar alone. -/
def verdict (s : List Char) : Verdict :=
  match grammar.run .body s with
  | .matched _ _ _ _ => .accepted
  | .failed reach => .stopped (reach.getD 0)
  | .exhausted => .stopped 0

/-- Whether a line starts at the given place: something follows that is no semicolon, and there
are only blanks, a line break among them, between it and something before. -/
def startsLine (s : List Char) (place : Nat) : Bool :=
  let before := (s.take place).reverse
  let follows := match s.drop place with
    | [] => false
    | c :: _ => c != ';'
  follows && (before.takeWhile isBlank).any isLineEnd && !(before.dropWhile isBlank).isEmpty

def withSemicolon (s : List Char) (place : Nat) : List Char :=
  s.take place ++ ';' :: s.drop place

/-- Whether the text becomes a function body after at most `rounds` semicolons have been put in
front of lines where the grammar stopped. -/
def isBodyWithin : Nat → List Char → Bool
  | rounds, s =>
    match verdict s with
    | .accepted => true
    | .stopped place =>
      match rounds with
      | 0 => false
      | rounds + 1 => startsLine s place && isBodyWithin rounds (withSemicolon s place)

/-- Whether a text can stand behind `return` in a function body. -/
def isBody (text : String) : Bool :=
  let s := text.toList
  isBodyWithin (s.countP isLineEnd) s

end EventMarkup.Script
