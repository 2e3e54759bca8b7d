import EventMarkup.Event.Modifiers

/-!
# Listeners, handlers and event tables

A listener is what one binding of an event asks for: a script text, and modifiers if the binding
names any. All listeners of one event form its handler, and an event table gives the events of an
element their handlers, in the order in which the events were first bound.
-/

namespace EventMarkup

/-- What one binding of an event asks for. -/
structure Listener where
  /-- The script text of the binding. -/
  value : String
  /-- The modifiers, if the binding names any; a set from which all names were taken away is not
  the same as none. -/
  modifiers : Option Modifiers
  deriving DecidableEq, Repr

/-- All listeners of one event. -/
inductive Handler where
  /-- One listener by itself. -/
  | single (listener : Listener)
  /-- A list of listeners. -/
  | multiple (listeners : List Listener)
  deriving DecidableEq, Repr

namespace Handler

def listeners : Handler → List Listener
  | .single l => [l]
  | .multiple ls => ls

/-- The handler with one more listener at its end; it becomes a list if it was none. -/
def push (h : Handler) (l : Listener) : Handler := .multiple (h.listeners ++ [l])

def size (h : Handler) : Nat := h.listeners.length

def isEmpty (h : Handler) : Bool := h.listeners.isEmpty

@[simp] theorem listeners_push (h : Handler) (l : Listener) :
    (h.push l).listeners = h.listeners ++ [l] := rfl

end Handler

/-! ## Event tables -/

/-- The entries of a table in which the handler of one event is changed; an event that has no entry
gets one behind the others. -/
def alterEntries (event : String) (change : Option Handler → Handler) :
    List (String × Handler) → List (String × Handler)
  | [] => [(event, change none)]
  | (name, h) :: more =>
    if name = event then (name, change (some h)) :: more
    else (name, h) :: alterEntries event change more

theorem map_fst_alterEntries (event : String) (change : Option Handler → Handler)
    (entries : List (String × Handler)) :
    (alterEntries event change entries).map (·.1) =
      if event ∈ entries.map (·.1) then entries.map (·.1) else entries.map (·.1) ++ [event] := by
  induction entries with
  | nil => simp [alterEntries]
  | cons entry more ih =>
    obtain ⟨name, h⟩ := entry
    by_cases hn : name = event
    · simp [alterEntries, hn]
    · have hn' : ¬ event = name := fun e => hn e.symm
      simp only [alterEntries, hn, if_false, List.map_cons, ih, List.mem_cons, hn', false_or]
      split <;> simp

/-- Handlers by event, in the order in which the events were first bound. -/
structure EventTable where
  /-- The events and their handlers in order. -/
  entries : List (String × Handler)
  /-- No event has two entries. -/
  nodup : (entries.map (·.1)).Nodup
  deriving DecidableEq, Repr

namespace EventTable

def empty : EventTable := ⟨[], List.nodup_nil⟩

instance : Inhabited EventTable := ⟨empty⟩

/-- The table in which the handler of one event is changed. -/
def alter (t : EventTable) (event : String) (change : Option Handler → Handler) : EventTable :=
  ⟨alterEntries event change t.entries, by
    rw [map_fst_alterEntries]
    split
    · exact t.nodup
    · rename_i h
      refine List.nodup_append.2 ⟨t.nodup, by simp, ?_⟩
      rintro a ha b hb rfl
      exact h (List.mem_singleton.1 hb ▸ ha)⟩

def insert (t : EventTable) (event : String) (h : Handler) : EventTable := t.alter event fun _ => h

/-- The table in which an event has one more listener. -/
def listen (t : EventTable) (event : String) (l : Listener) : EventTable :=
  t.alter event fun
    | none => .single l
    | some h => h.push l

/-- The table of a list of events and handlers; of two entries for one event the later handler
counts, at the earlier place. -/
def ofList (entries : List (String × Handler)) : EventTable :=
  entries.foldl (fun t entry => t.insert entry.1 entry.2) empty

def isEmpty (t : EventTable) : Bool := t.entries.isEmpty

end EventTable

end EventMarkup
