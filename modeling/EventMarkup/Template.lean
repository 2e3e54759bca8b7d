import EventMarkup.Diagnostic
import EventMarkup.Fragment
import EventMarkup.Markup.Forest

/-!
# Templates

Everything that is derived from the source of a template: its forest, the problems of its scripts,
and the code that binds its events. The problems do not keep the code from being made.
-/

namespace EventMarkup

/-- What is derived from the source of a template. -/
structure Template where
  /-- The forest that the source spells. -/
  roots : List Node
  /-- The problems of the scripts, in the order of the document. -/
  diagnostics : List Diagnostic
  /-- The code of the elements that bind events, in the order of the document. -/
  fragments : List Fragment

namespace Template

/-- What is reported of a template. -/
def errors (t : Template) : List String := t.diagnostics.map Diagnostic.message

def ofForest (roots : List Node) : Template where
  roots := roots
  diagnostics := Diagnostic.ofForest roots
  fragments := Fragment.ofForest "" roots

/-- Compiles a template. -/
def compile (source : String) : Except ReadError Template := (readForest source).map ofForest

theorem compile_eq_ok_iff {source : String} {t : Template} :
    compile source = .ok t ↔ ∃ forest, readForest source = .ok forest ∧ ofForest forest = t := by
  unfold compile
  cases readForest source <;> simp [Except.map]

end Template

end EventMarkup
