import EventMarkup.Markup.Node
import EventMarkup.Script.Body
import EventMarkup.Script.Forbidden
import EventMarkup.Script.Path

/-!
# Diagnostics

The problems of the scripts in a tree, in the order of the document. Every directive with a value
and every interpolation is judged as a function body; an iteration is judged by its source and by
the names that it binds. No problem is fatal, and each cites the text that it was found in.
-/

namespace EventMarkup

/-- What a name of an iteration is for. -/
inductive NameRole where
  /-- The name of an element. -/
  | item
  /-- One of the further names. -/
  | iterator
  deriving DecidableEq, Repr

def NameRole.label : NameRole → String
  | .item => "v-for alias"
  | .iterator => "v-for iterator"

/-- A problem of a script, with the text that it was found in. -/
inductive Diagnostic where
  /-- An iteration binds something that is no name. -/
  | invalidIdentifier (role : NameRole) (name text : String)
  /-- The script is no function body, and it holds a forbidden word. -/
  | forbiddenWord (word text : String)
  /-- The script is no function body. -/
  | invalidExpression (text : String)
  deriving DecidableEq, Repr

namespace Diagnostic

/-- How a problem is reported. -/
def message : Diagnostic → String
  | .invalidIdentifier role name text =>
    "- invalid " ++ role.label ++ " \"" ++ name ++ "\" in expression: " ++ text
  | .forbiddenWord word text =>
    "- avoid using JavaScript keyword as property name: \"" ++ word ++ "\" in expression " ++ text
  | .invalidExpression text => "- invalid expression: " ++ text

/-! ## Judging scripts -/

/-- The problem of a script, if it has one. -/
def ofScript (script text : String) : List Diagnostic :=
  if Script.isBody script then []
  else match Script.forbiddenWord? script with
    | some word => [.forbiddenWord word text]
    | none => [.invalidExpression text]

/-- The problem of a name that an iteration binds, if it has one; an empty name has none. -/
def ofName (role : NameRole) (name text : String) : List Diagnostic :=
  if name.isEmpty || Script.isIdentifier name then [] else [.invalidIdentifier role name text]

/-- The problems of an iteration, if there is one. -/
def ofIteration (iteration : Option Iteration) (text : String) : List Diagnostic :=
  match iteration with
  | none => []
  | some i =>
    ofScript i.source text ++ ofName .item i.item text ++
      ofName .iterator (i.iterator1.getD "") text ++ ofName .iterator (i.iterator2.getD "") text

/-! ## Judging trees -/

def citation (name value : String) : String := name ++ "=\"" ++ value ++ "\""

/-- The problems of an attribute of an element. -/
def ofAttribute (e : Element) (a : Attribute) : List Diagnostic :=
  match a.script? with
  | none => []
  | some script =>
    let text := citation a.name script
    if a.name = iterationName then ofIteration e.iteration text else ofScript script text

mutual

def ofNode : Node → List Diagnostic
  | .element e children => e.attributes.flatMap (ofAttribute e) ++ ofForest children
  | .interpolation expression text => ofScript expression text
  | .text _ => []

def ofForest : List Node → List Diagnostic
  | [] => []
  | n :: ns => ofNode n ++ ofForest ns

end

end Diagnostic

/-! ## Iterations that cannot be read -/

def Element.unreadIterations (e : Element) : List String :=
  (e.attributes.filter (·.name = iterationName)).filterMap fun a =>
    a.value.filter fun value => !value.isEmpty && (Iteration.read? value).isNone

def Node.unreadIterations : Node → List String
  | .element e _ => e.unreadIterations
  | _ => []

/-- What is said about the iteration values in a forest that cannot be read. -/
def iterationWarnings (forest : List Node) : List String :=
  (Node.preorderAll forest).flatMap fun n =>
    n.unreadIterations.map ("invalid v-for expression: " ++ ·)

end EventMarkup
