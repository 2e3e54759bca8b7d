/-!
# Modifiers

The modifiers of an event binding form a set of names that remembers in which order they came.
-/

namespace EventMarkup

/-- Distinct modifier names, in the order in which they were first given. -/
structure Modifiers where
  /-- The names in order. -/
  names : List String
  /-- No name stands twice. -/
  nodup : names.Nodup
  deriving DecidableEq, Repr

namespace Modifiers

def empty : Modifiers := ⟨[], List.nodup_nil⟩

instance : Inhabited Modifiers := ⟨empty⟩

instance : Membership String Modifiers := ⟨fun m name => name ∈ m.names⟩

instance (name : String) (m : Modifiers) : Decidable (name ∈ m) :=
  inferInstanceAs (Decidable (name ∈ m.names))

def insert (m : Modifiers) (name : String) : Modifiers :=
  if h : name ∈ m.names then m
  else ⟨m.names ++ [name], by
    refine List.nodup_append.2 ⟨m.nodup, by simp, ?_⟩
    rintro a ha b hb rfl
    exact h (List.mem_singleton.1 hb ▸ ha)⟩

/-- The set of the names of a list, each at its first place. -/
def ofList (names : List String) : Modifiers := names.foldl insert empty

/-- Takes a name away and keeps the order of the others. -/
def erase (m : Modifiers) (name : String) : Modifiers := ⟨m.names.erase name, m.nodup.erase name⟩

def isEmpty (m : Modifiers) : Bool := m.names.isEmpty

end Modifiers

end EventMarkup
