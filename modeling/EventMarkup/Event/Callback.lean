import EventMarkup.Event.Handler
import EventMarkup.Event.Key
import EventMarkup.Script.Path

/-!
# Callbacks

The code that a listener becomes. Without modifiers a path stands for itself, and any other script
text becomes the body of a function. With modifiers there is always a function: first a guard that
lets only the listed keys through, then the structural modifiers `stop`, `prevent` and `self` in
this order, and at last the script text, called with the event if it is a path. A modifier that is
not structural is a key token.

Code is a list of statements with a meaning of their own; only `source` turns it into text.
-/

namespace EventMarkup

/-- The statements of a callback. -/
inductive Statement where
  /-- Ends the callback unless the code of the key equals one of the operands. -/
  | keyGuard (operands : List Operand)
  /-- Keeps the event from the elements around. -/
  | stopPropagation
  /-- Keeps the event from its usual effect. -/
  | preventDefault
  /-- Ends the callback unless the event arose at the element itself. -/
  | selfGuard
  /-- Calls what a path names, with the event. -/
  | call (path : String)
  /-- Runs a script text. -/
  | script (text : String)
  deriving DecidableEq, Repr

/-- The code of a listener. -/
inductive Callback where
  /-- What a path names. -/
  | path (text : String)
  /-- A function of the event. -/
  | function (body : List Statement)
  deriving DecidableEq, Repr

/-! ## From listeners to statements -/

/-- The structural modifiers and their statements, in the order in which these are run. -/
def structuralModifiers : List (String × Statement) :=
  [("stop", .stopPropagation), ("prevent", .preventDefault), ("self", .selfGuard)]

/-- Whether a modifier has a statement of its own. -/
def isStructural (name : String) : Bool := structuralModifiers.any (·.1 == name)

namespace Modifiers

/-- The statements of the structural modifiers. -/
def prologue (m : Modifiers) : List Statement :=
  (structuralModifiers.filter (·.1 ∈ m)).map (·.2)

/-- The names that are not structural, which are key tokens. -/
def keys (m : Modifiers) : List String := m.names.filter fun name => !isStructural name

end Modifiers

/-- The guard that lets only the listed keys through; no keys at all need no guard. -/
def keyGuard (tokens : List String) : List Statement :=
  if tokens.isEmpty then [] else [.keyGuard (tokens.flatMap fun t => (Key.ofToken t).operands)]

namespace Listener

/-- What remains of a listener once its modifiers have let the event through. -/
def action (l : Listener) : Statement :=
  if Script.isPath l.value then .call l.value else .script l.value

/-- The code of a listener. -/
def callback (l : Listener) : Callback :=
  match l.modifiers with
  | none => if Script.isPath l.value then .path l.value else .function [.script l.value]
  | some m => .function (keyGuard m.keys ++ m.prologue ++ [l.action])

end Listener

/-! ## Writing code -/

def Operand.mismatch (o : Operand) : String := "$event.keyCode!==" ++ o.source

def Statement.source : Statement → String
  | .keyGuard operands => "if(" ++ "&&".intercalate (operands.map Operand.mismatch) ++ ")return;"
  | .stopPropagation => "$event.stopPropagation();"
  | .preventDefault => "$event.preventDefault();"
  | .selfGuard => "if($event.target !== $event.currentTarget)return;"
  | .call path => path ++ "($event)"
  | .script text => text

def sourceOf (body : List Statement) : String := String.join (body.map Statement.source)

def Callback.source : Callback → String
  | .path text => text
  | .function body => "function($event)\x7b" ++ sourceOf body ++ "\x7d"

/-- How a handler is written: one callback, or a list of them. -/
def Handler.source : Handler → String
  | .single l => l.callback.source
  | .multiple ls => "[" ++ ",".intercalate (ls.map fun l => l.callback.source) ++ "]"

/-- What is written where a handler is missing. -/
def missingHandler : String := "function()\x7b\x7d"

namespace EventTable

def entrySource (entry : String × Handler) : String :=
  Text.quote entry.1 ++ ":" ++ entry.2.source

/-- How a table is written under a key. -/
def source (key : String) (t : EventTable) : String :=
  key ++ ":\x7b" ++ ",".intercalate (t.entries.map entrySource) ++ "\x7d"

end EventTable

end EventMarkup
