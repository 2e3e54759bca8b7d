import EventMarkup.Markup.Step

/-!
# Forests

The steps of a template are put together to a forest with a stack of open elements. A node goes
into the innermost open element, and outside all elements it is a root. A closing tag ends the
innermost open element of its name together with everything opened in it, and does nothing if no
element of that name is open. At the end of the template all open elements end.

`Forest.read` reads a whole template, and tells by name or by place what it cannot read.
-/

namespace EventMarkup

open Markup

namespace Markup

/-- An open element and the children that it has so far. -/
structure Frame where
  /-- The element. -/
  element : Element
  /-- Its children so far. -/
  children : List Node
  deriving Repr

/-- The node of an element that ends now. -/
def Frame.node (f : Frame) : Node := .element f.element f.children

/-- A forest in the making. -/
structure Draft where
  /-- The roots so far. -/
  roots : List Node
  /-- The open elements, innermost first. -/
  opened : List Frame
  deriving Repr

namespace Draft

def empty : Draft := ⟨[], []⟩

/-- Adds a node to the innermost open element, or to the roots. -/
def add (d : Draft) (n : Node) : Draft :=
  match d.opened with
  | [] => { d with roots := d.roots ++ [n] }
  | f :: outer => { d with opened := { f with children := f.children ++ [n] } :: outer }

def endInnermost (d : Draft) : Draft :=
  match d.opened with
  | [] => d
  | f :: outer => { d with opened := outer }.add f.node

/-- Ends as many open elements as told, from the innermost outwards. -/
def endMany : Nat → Draft → Draft
  | 0, d => d
  | n + 1, d => endMany n d.endInnermost

/-- Ends the innermost open element of a name and everything opened in it. -/
def close (d : Draft) (tag : String) : Draft :=
  match d.opened.findIdx? (·.element.tag == tag) with
  | some depth => d.endMany (depth + 1)
  | none => d

/-- Ends all open elements. -/
def finish (d : Draft) : List Node := (d.endMany d.opened.length).roots

def step (d : Draft) : Step → Draft
  | .opens e => { d with opened := ⟨e, []⟩ :: d.opened }
  | .empty e => d.add (.element e [])
  | .text n => d.add n
  | .blank => if d.opened.isEmpty then d else d.add (.text " ")
  | .closes tag => d.close tag

end Draft

/-- The forest that a sequence of steps makes up. -/
def forestOf (steps : List Step) : List Node := (steps.foldl Draft.step .empty).finish

end Markup

/-! ## Reading -/

/-- Why a text is no template. -/
inductive ReadError where
  /-- An interpolation that opens after this many bytes is not closed. -/
  | openInterpolation (offset : Nat)
  /-- The quoted value of an attribute is not closed. -/
  | openAttribute (name : String)
  deriving DecidableEq, Repr

def ReadError.message : ReadError → String
  | .openInterpolation offset =>
    "unterminated interpolation starting at byte " ++ toString offset
  | .openAttribute name => "unterminated value for attribute \x60" ++ name ++ "\x60"

def byteLength : List Char → Nat
  | [] => 0
  | c :: s => c.utf8Size + byteLength s

/-- The error for a fault in a text. -/
def ReadError.ofFault (s : List Char) : Fault → ReadError
  | .interpolation rest => .openInterpolation (byteLength s - byteLength rest)
  | .attribute name => .openAttribute (String.ofList name)

/-- Reads a template as a forest. -/
def readForest (source : String) : Except ReadError (List Node) :=
  let s := source.toList
  match Step.read s with
  | .ok steps => .ok (forestOf steps)
  | .error fault => .error (.ofFault s fault)

/-- A template is read as the forest that its steps make up. -/
theorem readForest_eq_ok_iff {source : String} {forest : List Node} :
    readForest source = .ok forest ↔
      ∃ steps, Step.read source.toList = .ok steps ∧ forestOf steps = forest := by
  unfold readForest
  dsimp only
  cases Step.read source.toList <;> simp

end EventMarkup
