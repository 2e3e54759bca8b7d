import EventMarkup.Text.Blank
import EventMarkup.Text.Front
import EventMarkup.Text.Quoted

/-!
# Interpolations

A text may hold interpolations: script expressions between double braces. `segments` cuts a text
into its static parts and its interpolations, each from the leftmost opening mark to the next
closing one; an opening mark that is never closed is static. `expressionOf?` joins the segments to
one script expression, with the static parts quoted and the interpolations turned into text.
-/

namespace EventMarkup.Markup

open Text

def openMark : List Char := ['\x7b', '\x7b']

def closeMark : List Char := ['\x7d', '\x7d']

/-- A part of a text. -/
inductive Segment where
  /-- Characters that stand for themselves. -/
  | static (text : List Char)
  /-- The script between two marks. -/
  | script (text : List Char)
  deriving DecidableEq, Repr

/-- The segments of a text. A static part stands before each interpolation and at the end, and may
be empty. -/
def segments (s : List Char) : List Segment :=
  match _opened : cutAt? openMark s with
  | none => [.static s]
  | some (before, after) =>
    match _closed : cutAt? closeMark after with
    | none => [.static s]
    | some (inside, rest) => .static before :: .script inside :: segments rest
termination_by s.length
decreasing_by
  have h := length_le_of_cutAt? _closed
  have e := congrArg List.length (eq_append_of_cutAt? _opened)
  simp [openMark] at e
  omega

/-- The script term of a segment; an empty static part needs none. -/
def Segment.term? : Segment → Option String
  | .static text => if text.isEmpty then none else some (String.ofList (quoted text))
  | .script text => some ("_s(" ++ String.ofList (trim text) ++ ")")

/-- The script expression of a text, if an interpolation opens in it. -/
def expressionOf? (text : String) : Option String :=
  let s := text.toList
  if (cutAt? openMark s).isSome then
    some ("+".intercalate ((segments s).filterMap Segment.term?))
  else none

end EventMarkup.Markup
