import EventMarkup.Event.Handler
import EventMarkup.Text.Pieces

/-!
# Event bindings

The name of a binding, `keyup.enter.native` for instance, is the name of an event followed by
modifiers, each behind a point. Two modifiers are not passed on to the listener: `capture` puts an
exclamation mark before the name of the event, and `native` binds the event of the rendered element
itself. Empty modifiers do not count.
-/

namespace EventMarkup

/-- What the name of a binding says. -/
structure Binding where
  /-- The event. -/
  event : String
  /-- Whether the event of the rendered element itself is bound. -/
  native : Bool
  /-- The modifiers for the listener, if the name has any modifiers. -/
  modifiers : Option Modifiers
  deriving DecidableEq, Repr

namespace Binding

/-- The parts of a name between its points, of which there is at least one. -/
def parts (name : String) : List String :=
  (Text.pieces (· == '.') name.toList).map String.ofList

def withModifiers (event : String) (m : Modifiers) : Binding :=
  if m.isEmpty then { event, native := false, modifiers := none }
  else
    { event := if "capture" ∈ m then "!" ++ event else event
      native := decide ("native" ∈ m)
      modifiers := some ((m.erase "capture").erase "native") }

def ofName (name : String) : Binding :=
  match parts name with
  | [] => withModifiers "" .empty
  | event :: modifiers => withModifiers event (.ofList (modifiers.filter (!·.isEmpty)))

end Binding

end EventMarkup
