import EventMarkup.Event.Callback
import EventMarkup.Markup.Node

/-!
# Fragments

A fragment is the code that binds the events of one element, together with the path of tags that
leads to the element. Fragments stand in the order of the document.
-/

namespace EventMarkup

/-- The code for the events of one element. -/
structure Fragment where
  /-- The tags from a root down to the element. -/
  path : String
  /-- The entries that bind the events. -/
  code : String
  deriving DecidableEq, Repr

/-- The entries that bind the events of an element, if it binds any. -/
def Element.code? (e : Element) : Option String :=
  if e.hasHandlers then
    some (",".intercalate
      ((if e.events.isEmpty then [] else [e.events.source "on"]) ++
        (if e.nativeEvents.isEmpty then [] else [e.nativeEvents.source "nativeOn"])))
  else none

def Node.code? : Node → Option String
  | .element e _ => e.code?
  | _ => none

namespace Fragment

/-- The path of an element below the given path; the empty path leads nowhere. -/
def below (path tag : String) : String := if path.isEmpty then tag else path ++ " > " ++ tag

def ofElement (path : String) (e : Element) : List Fragment := e.code?.toList.map (⟨path, ·⟩)

mutual

/-- The fragments of a tree below a path. -/
def ofNode (path : String) : Node → List Fragment
  | .element e children =>
    ofElement (below path e.tag) e ++ ofForest (below path e.tag) children
  | _ => []

def ofForest (path : String) : List Node → List Fragment
  | [] => []
  | n :: ns => ofNode path n ++ ofForest path ns

end

end Fragment

end EventMarkup
