import EventMarkup.Peg.Match
import EventMarkup.Text.Blank

/-!
# Iterations

An iteration binds names to the elements of a source: `item in items`, `(item, index) of items`,
`(value, key, index) in object`. `Iteration.read?` splits a text at the first `in` or `of` that has
blanks on both sides. What stands before it is one name, or a list of two or three items in
parentheses, of which the first may be a pattern in braces that holds commas of its own.
-/

namespace EventMarkup

open Peg Peg.Pattern Text

/-- What an iteration binds, and to the elements of what. -/
structure Iteration where
  /-- The expression whose elements are taken. -/
  source : String
  /-- The name of an element. -/
  item : String
  /-- The second name of the list, if there is one. -/
  iterator1 : Option String
  /-- The third name of the list, if there is one. -/
  iterator2 : Option String
  deriving DecidableEq, Repr

namespace Iteration

/-! ## The two grammars -/

inductive Rule where
  /-- A whole iteration. -/
  | iteration
  /-- What stands before the separator. -/
  | left
  /-- The separator with the blanks around it. -/
  | separator
  /-- What stands behind the separator. -/
  | right
  /-- Names in parentheses. -/
  | list
  /-- One item of a list. -/
  | item
  deriving DecidableEq, Repr

def Rule.pattern : Rule → Pattern Rule
  | .iteration => joined [.rule .left, .rule .separator, .rule .right, .atEnd]
  | .left => .star (anyBut (.rule .separator))
  | .separator =>
    joined [plus (.one isBlank), .either (lit "in") (lit "of"), plus (.one isBlank)]
  | .right => .star anyChar
  | .list =>
    joined
      [lit "(", .rule .item, lit ",", .rule .item, optional (.both (lit ",") (.rule .item)),
        lit ")", .atEnd]
  | .item =>
    .either
      (joined [lit "\x7b", .star (.one (· != '\x7d')), lit "\x7d"])
      (.star (.one fun c => !(c == ',' || c == ')')))

def grammar : Grammar Rule where
  body := Rule.pattern
  depth := 100

/-! ## Reading -/

/-- What the nodes of one rule matched when the text is read by another, if it can be. -/
def partsOf (whole part : Rule) (s : List Char) : Option (List (List Char)) :=
  ((grammar.run whole s).trees?).map (Tree.partsAll (· == part))

/-- The bindings that stand before the separator, which has no blanks around it: a list in
parentheses, or else one name. -/
def bind (source : String) (left : List Char) : Iteration :=
  match partsOf .list .item left with
  | some (first :: second :: more) =>
    { source
      item := String.ofList (trim first)
      iterator1 := some (String.ofList (trim second))
      iterator2 := (more.head?.filter (!·.isEmpty)).map (String.ofList ∘ trim) }
  | _ => { source, item := String.ofList left, iterator1 := none, iterator2 := none }

/-- Reads an iteration; there is none where no `in` or `of` stands between blanks. -/
def read? (text : String) : Option Iteration :=
  let s := text.toList
  match partsOf .iteration .left s, partsOf .iteration .right s with
  | some [left], some [right] => some (bind (String.ofList (trim right)) (trim left))
  | _, _ => none

end Iteration

end EventMarkup
