import EventMarkup.Text.Front

/-!
# Attributes

The front of an attribute's name tells its kind: `:` and `v-bind:` bind a property, `@` and
`v-on:` bind an event, any other name in `v-` is a directive, and the rest is static. All but the
static attributes carry script.
-/

namespace EventMarkup

open Text

inductive AttributeKind where
  /-- A fixed value. -/
  | static
  /-- A property bound to an expression. -/
  | bind
  /-- A listener for an event. -/
  | on
  /-- Any other directive. -/
  | directive
  deriving DecidableEq, Repr

structure Attribute where
  /-- The name. -/
  name : String
  /-- The value, if the attribute has one. -/
  value : Option String
  deriving DecidableEq, Repr

def iterationName : String := "v-for"

/-- Whether the attribute of a name carries script. -/
def isDirective (name : String) : Bool :=
  startsWith name "v-" || startsWith name "@" || startsWith name ":"

namespace Attribute

def kind (a : Attribute) : AttributeKind :=
  if startsWith a.name ":" || startsWith a.name "v-bind:" then .bind
  else if startsWith a.name "@" || startsWith a.name "v-on:" then .on
  else if startsWith a.name "v-" then .directive
  else .static

/-- The name of the event binding, without the mark that makes it one. -/
def bindingName (a : Attribute) : String :=
  match dropFront? ['@'] a.name.toList with
  | some rest => String.ofList rest
  | none =>
    match dropFront? "v-on:".toList a.name.toList with
    | some rest => String.ofList rest
    | none => a.name

/-- The script that an attribute carries: the value of a directive, if it is not empty. -/
def script? (a : Attribute) : Option String :=
  if isDirective a.name then a.value.filter (!·.isEmpty) else none

end Attribute

end EventMarkup
