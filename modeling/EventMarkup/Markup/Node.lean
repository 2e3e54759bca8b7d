import EventMarkup.Event.Binding
import EventMarkup.Iteration
import EventMarkup.Markup.Attribute

/-!
# Nodes

The tree that a template spells. An element keeps its attributes as written, and besides them what
they say: the events that they bind and the iteration that they ask for. `Element.ofAttributes`
derives the one from the other, attribute by attribute.
-/

namespace EventMarkup

/-- An element by itself, without its children. -/
structure Element where
  /-- The name of the tag. -/
  tag : String
  /-- The attributes in the order in which they are written. -/
  attributes : List Attribute := []
  /-- Whether the tag ends the element itself. -/
  selfClosing : Bool := false
  /-- The iteration that repeats the element. -/
  iteration : Option Iteration := none
  /-- The events that are bound. -/
  events : EventTable := .empty
  /-- The events that are bound at the rendered element itself. -/
  nativeEvents : EventTable := .empty
  deriving DecidableEq, Repr

/-- A node of the tree. -/
inductive Node where
  /-- An element with its children. -/
  | element (element : Element) (children : List Node)
  /-- A text with interpolations, and the script expression for it. -/
  | interpolation (expression text : String)
  /-- A text without interpolations. -/
  | text (text : String)
  deriving Repr

namespace Element

def hasHandlers (e : Element) : Bool := !e.events.isEmpty || !e.nativeEvents.isEmpty

/-- Binds the event that a binding name tells to a script text. -/
def listen (e : Element) (bindingName value : String) : Element :=
  let b := Binding.ofName bindingName
  let l : Listener := { value, modifiers := b.modifiers }
  if b.native then { e with nativeEvents := e.nativeEvents.listen b.event l }
  else { e with events := e.events.listen b.event l }

/-- Takes in what one attribute says. The last readable iteration counts. -/
def apply (e : Element) (a : Attribute) : Element :=
  if a.kind = .on then e.listen a.bindingName (a.value.getD "")
  else if a.name = iterationName then
    match Iteration.read? (a.value.getD "") with
    | some i => { e with iteration := some i }
    | none => e
  else e

/-- An element with attributes and all that they say. -/
def ofAttributes (tag : String) (attributes : List Attribute) (selfClosing : Bool) : Element :=
  attributes.foldl apply { tag, attributes, selfClosing }

end Element

namespace Node

mutual

/-- The node and all nodes below it, each before the nodes below it. -/
def preorder : Node → List Node
  | .element e children => .element e children :: preorderAll children
  | n => [n]

def preorderAll : List Node → List Node
  | [] => []
  | n :: ns => preorder n ++ preorderAll ns

end

end Node

end EventMarkup
