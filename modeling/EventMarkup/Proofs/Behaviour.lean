import EventMarkup.Proofs.Statements
import Mathlib.Data.List.Nodup

/-!
# Modifiers at work

A listener with modifiers becomes a function that does what its modifiers say, whatever the event
and in whatever order the modifiers are written (`behaviour_of_source`). The instructions of the
function come from the modifiers one by one: each name gives one instruction or takes part in the
guard of the keys, and none does both (`exists_isFunction_source`). The value of the listener is
written into the function as it is, so the script language has to take it at this place
(`IsAction`); where it does not, the code is no function at all (`exists_no_function`).
-/

namespace EventMarkup

open Text

/-- The modifiers that are not key tokens. -/
def structuralNames : List String := ["stop", "prevent", "self"]

/-- The instruction that a structural modifier asks for. -/
def structuralInstruction (name : String) : Instruction :=
  if name = "stop" then .invoke "stopPropagation"
  else if name = "prevent" then .invoke "preventDefault"
  else .leaveIf [(.field "target", .field "currentTarget")]

def keyPairs (token : String) : List (Term × Term) :=
  (Key.ofToken token).operands.map fun o => (.field "keyCode", o.term)

/-- The guard of the keys; no keys at all need no guard. -/
def guardInstructions (tokens : List String) : List Instruction :=
  if tokens = [] then [] else [.leaveIf (tokens.flatMap keyPairs)]

/-- What the value of a listener asks for: a path is called, any other script text is run. -/
def actionInstructions (value : String) : List Instruction :=
  if Script.isPath value then [.apply value] else instructions value.toList

namespace Situation

variable {α : Type} (e : Situation α)

def effects (body : List Char) : List Effect := e.run (instructions body)

/-- The source is a function of the event, and these are its effects. -/
def Does (d : Dialect) (source : String) (effects : List Effect) : Prop :=
  ∃ body, d.IsFunction source body ∧ e.effects body.toList = effects

/-- The event does not pass the guard of the key tokens of a set of modifiers: there are some, and
the code of the key differs from every operand of each. -/
def FailsKeys (m : Modifiers) : Prop :=
  (∃ name ∈ m.names, name ∉ structuralNames) ∧
    ∀ name ∈ m.names, name ∉ structuralNames → ∀ o ∈ (Key.ofToken name).operands,
      e.same (e.event "keyCode") (e.value o.term) = false

instance (m : Modifiers) : Decidable (e.FailsKeys m) := by
  unfold FailsKeys
  infer_instance

/-- What a listener with modifiers is to do. An event that does not pass the keys is left alone. Any
other is stopped and kept from its usual effect, each if a modifier asks for it, and then the value
is run, unless the event arose elsewhere and a modifier asks for those that did not. -/
def response (value : String) (m : Modifiers) : List Effect :=
  if e.FailsKeys m then []
  else
    (if "stop" ∈ m then [.invoked "stopPropagation"] else []) ++
    (if "prevent" ∈ m then [.invoked "preventDefault"] else []) ++
    if "self" ∈ m ∧ e.same (e.event "target") (e.event "currentTarget") = false then []
    else if Script.isPath value then [.applied value] else e.effects value.toList

end Situation

/-- What is written for the value of a listener may end the body of a function, and what is called
there is a member. -/
structure IsAction (d : Dialect) (value : String) : Prop where
  body : d.IsBody (if Script.isPath value then value ++ "($event)" else value)
  member : Script.isPath value = true → Instruction.isMember value = true

theorem Listener.source_action (l : Listener) :
    l.action.source = if Script.isPath l.value then l.value ++ "($event)" else l.value := by
  unfold action
  split <;> rfl

/-! ## The instructions of a listener -/

theorem isStructural_iff {name : String} : isStructural name = true ↔ name ∈ structuralNames := by
  have hnames : structuralNames = structuralModifiers.map (·.1) := rfl
  simp [isStructural, hnames]

theorem map_instruction_keyGuard (tokens : List String) :
    (keyGuard tokens).map Statement.instruction = guardInstructions tokens := by
  unfold keyGuard guardInstructions keyPairs
  cases tokens with
  | nil => rfl
  | cons t ts => simp [Statement.instruction, List.map_flatMap]

theorem map_instruction_prologue (m : Modifiers) :
    m.prologue.map Statement.instruction =
      (structuralNames.filter (· ∈ m)).map structuralInstruction := by
  have hnames : structuralNames = structuralModifiers.map (·.1) := rfl
  have hinstructions : ∀ entry ∈ structuralModifiers,
      entry.2.instruction = structuralInstruction entry.1 := by decide
  rw [hnames, List.filter_map, List.map_map, Modifiers.prologue, List.map_map]
  exact List.map_congr_left fun entry h => hinstructions entry (List.mem_of_mem_filter h)

theorem instructions_action {d : Dialect} {value : String} (h : IsAction d value)
    (m : Option Modifiers) :
    instructions (Listener.action ⟨value, m⟩).source.toList = actionInstructions value := by
  unfold Listener.action actionInstructions
  split
  · rename_i hpath
    have hcall : (Statement.call value).source.toList =
        value.toList ++ "($event)".toList := by simp [Statement.source]
    rw [hcall, instructions_call hpath (h.member hpath)]
  · rfl

/-- A listener with modifiers becomes a function, and these are its instructions. -/
theorem exists_isFunction_source {d : Dialect} {value : String} (h : IsAction d value)
    (m : Modifiers) :
    ∃ body, d.IsFunction (Handler.single ⟨value, some m⟩).source body ∧
      instructions body.toList = guardInstructions m.keys ++
        (structuralNames.filter (· ∈ m)).map structuralInstruction ++ actionInstructions value := by
  have hprelude : ∀ s ∈ keyGuard m.keys ++ m.prologue, s.isPrelude = true :=
    fun s hs => isPrelude_of_mem hs
  have hbody : (sourceOf (keyGuard m.keys ++ m.prologue ++
      [Listener.action ⟨value, some m⟩])).toList =
      (sourceOf (keyGuard m.keys ++ m.prologue)).toList ++
        (Listener.action ⟨value, some m⟩).source.toList := by
    simp [sourceOf]
  have haction : d.IsBody (Listener.action ⟨value, some m⟩).source := by
    rw [Listener.source_action]
    exact h.body
  refine ⟨_, ⟨rfl, d.isBody_sourceOf hprelude haction⟩, ?_⟩
  rw [hbody, instructions_sourceOf hprelude, instructions_action h, List.map_append,
    map_instruction_keyGuard, map_instruction_prologue]

theorem keys_append_perm (m : Modifiers) :
    (m.keys ++ structuralNames.filter (· ∈ m)).Perm m.names := by
  have hstructural : (structuralNames.filter (· ∈ m)).Perm (m.names.filter isStructural) := by
    refine (List.perm_ext_iff_of_nodup (List.Nodup.filter _ (by decide))
      (m.nodup.filter _)).2 fun name => ?_
    simp only [List.mem_filter, decide_eq_true_eq, isStructural_iff]
    exact and_comm
  exact (hstructural.append_left _).trans
    ((List.perm_append_comm).trans (List.filter_append_perm isStructural m.names))

/-! ## What a listener does -/

namespace Situation

variable {α : Type} (e : Situation α)

theorem all_keyPairs_iff (tokens : List String) :
    (tokens.flatMap keyPairs).all e.differs = true ↔
      ∀ t ∈ tokens, ∀ o ∈ (Key.ofToken t).operands,
        e.same (e.event "keyCode") (e.value o.term) = false := by
  have hdiffers : ∀ o : Operand, e.differs (.field "keyCode", o.term) = true ↔
      e.same (e.event "keyCode") (e.value o.term) = false := by
    intro o
    rw [differs, Bool.not_eq_true']
    rfl
  simp only [List.all_flatMap, List.all_eq_true, keyPairs, List.forall_mem_map, hdiffers]

theorem run_guardInstructions (m : Modifiers) (more : List Instruction) :
    e.run (guardInstructions m.keys ++ more) = if e.FailsKeys m then [] else e.run more := by
  have hkeys : ∀ t, t ∈ m.keys ↔ t ∈ m.names ∧ t ∉ structuralNames := by
    intro t
    simp [Modifiers.keys, ← isStructural_iff]
  have hfails : e.FailsKeys m ↔
      m.keys ≠ [] ∧ (m.keys.flatMap keyPairs).all e.differs = true := by
    have hne : m.keys ≠ [] ↔ ∃ t, t ∈ m.keys :=
      ⟨List.exists_mem_of_ne_nil _, fun ⟨_, ht⟩ => List.ne_nil_of_mem ht⟩
    rw [all_keyPairs_iff, hne]
    simp only [FailsKeys, hkeys, and_imp]
  unfold guardInstructions
  by_cases hnil : m.keys = []
  · rw [if_pos hnil, if_neg (fun h => (hfails.1 h).1 hnil)]
    rfl
  · rw [if_neg hnil]
    simp only [List.cons_append, List.nil_append, run, hfails, ne_eq, hnil, not_false_eq_true,
      true_and]

theorem run_structuralInstructions (m : Modifiers) (more : List Instruction) :
    e.run ((structuralNames.filter (· ∈ m)).map structuralInstruction ++ more) =
      (if "stop" ∈ m then [.invoked "stopPropagation"] else []) ++
      (if "prevent" ∈ m then [.invoked "preventDefault"] else []) ++
      if "self" ∈ m ∧ e.same (e.event "target") (e.event "currentTarget") = false then []
      else e.run more := by
  -- Each of the three names is there or not, and each is run on its own.
  by_cases hstop : "stop" ∈ m <;> by_cases hprevent : "prevent" ∈ m <;>
    by_cases hself : "self" ∈ m <;>
    simp [structuralNames, hstop, hprevent, hself, structuralInstruction, run, differs, value]

end Situation

theorem does_source_iff {d : Dialect} {value : String} (h : IsAction d value) (m : Modifiers)
    {α : Type} (e : Situation α) {effects : List Effect} :
    e.Does d (Handler.single ⟨value, some m⟩).source effects ↔ effects = e.response value m := by
  obtain ⟨body, hfunction, hinstructions⟩ := exists_isFunction_source h m
  have haction : e.run (actionInstructions value) =
      if Script.isPath value then [.applied value] else e.effects value.toList := by
    unfold actionInstructions
    split
    · rfl
    · rfl
  have heffects : e.effects body.toList = e.response value m := by
    rw [Situation.effects, hinstructions, List.append_assoc, e.run_guardInstructions,
      e.run_structuralInstructions, haction]
    rfl
  refine ⟨?_, ?_⟩
  · rintro ⟨body', hfunction', rfl⟩
    rw [hfunction'.body_eq hfunction.1, heffects]
  · rintro rfl
    exact ⟨body, hfunction, heffects⟩

/-- In every script language that takes the value as the end of a function body, a listener with
modifiers becomes a function of the event that does nothing if its key tokens do not let the event
through, and otherwise stops the event, prevents its usual effect, and runs the value unless the
event arose elsewhere, each of these if a modifier asks for it. -/
theorem behaviour_of_source (d : Dialect) (value : String) (h : IsAction d value) (m : Modifiers) :
    (∀ (α : Type) (e : Situation α) (effects : List Effect),
      e.Does d (Handler.single ⟨value, some m⟩).source effects ↔ effects = e.response value m) ∧
    (∃ keys structural : List String, ∃ body : String, (keys ++ structural).Perm m.names ∧
      (∀ name ∈ keys, name ∉ structuralNames) ∧ structural.Sublist structuralNames ∧
      d.IsFunction (Handler.single ⟨value, some m⟩).source body ∧
      instructions body.toList = guardInstructions keys ++
        structural.map structuralInstruction ++ actionInstructions value) ∧
    ∀ m' : Modifiers, m'.names.Perm m.names → ∀ (α : Type) (e : Situation α)
      (effects : List Effect), e.Does d (Handler.single ⟨value, some m'⟩).source effects ↔
        e.Does d (Handler.single ⟨value, some m⟩).source effects := by
  obtain ⟨body, hfunction, hinstructions⟩ := exists_isFunction_source h m
  refine ⟨fun α e effects => does_source_iff h m e, ⟨m.keys, structuralNames.filter (· ∈ m), body,
    keys_append_perm m, ?_, List.filter_sublist, hfunction, hinstructions⟩, ?_⟩
  · intro name hname
    rw [← isStructural_iff]
    simpa [Modifiers.keys] using (List.mem_filter.1 hname).2
  · intro m' hperm α e effects
    have hmem : ∀ name, name ∈ m' ↔ name ∈ m := fun name => hperm.mem_iff
    have hfails : e.FailsKeys m' ↔ e.FailsKeys m := by
      simp only [Situation.FailsKeys, hperm.mem_iff]
    simp only [does_source_iff h, Situation.response, hmem, hfails]

/-- A press of a key at the element itself, with no codes registered. -/
def keyPress (code : Int) : Situation Int where
  number n := n
  registered _ := 0
  event name := if name = "keyCode" then code else 0
  same a b := a == b

theorem behaviour_of_source_submit :
    IsAction .script "this.form['on save'].submit" ∧
    (Modifiers.ofList ["self", "enter", "stop"]).names.Perm
      (Modifiers.ofList ["enter", "stop", "self"]).names ∧
    (keyPress 13).Does .script (Handler.single
      ⟨"this.form['on save'].submit", some (.ofList ["self", "enter", "stop"])⟩).source
        [.invoked "stopPropagation", .applied "this.form['on save'].submit"] ∧
    (keyPress 27).Does .script (Handler.single
      ⟨"this.form['on save'].submit", some (.ofList ["self", "enter", "stop"])⟩).source [] := by
  have haction : IsAction .script "this.form['on save'].submit" := by
    have hpath : Script.isPath "this.form['on save'].submit" = true := by decide +kernel
    refine ⟨?_, fun _ => by decide +kernel⟩
    rw [if_pos hpath]
    exact Script.isBlock_of_foresee (n := 300) rfl (by decide) (by decide) (by decide +kernel)
  have h := behaviour_of_source .script "this.form['on save'].submit" haction
    (.ofList ["enter", "stop", "self"])
  have hperm : (Modifiers.ofList ["self", "enter", "stop"]).names.Perm
      (Modifiers.ofList ["enter", "stop", "self"]).names := by decide
  refine ⟨haction, hperm, ?_, ?_⟩
  · rw [h.2.2 _ hperm, h.1]
    decide +kernel
  · rw [h.2.2 _ hperm, h.1]
    decide +kernel

/-- A value that closes a brace closes the function early, and what is written is no function. -/
theorem exists_no_function :
    ¬ ∀ (value : String) (m : Modifiers) (α : Type) (e : Situation α),
      e.Does .script (Handler.single ⟨value, some m⟩).source (e.response value m) := by
  intro h
  obtain ⟨body, hfunction, -⟩ := h "\x7d" (.ofList ["stop"]) Int (keyPress 13)
  have hbody : body = "$event.stopPropagation();\x7d" := hfunction.body_eq (by decide +kernel)
  subst hbody
  -- The statements end in front of the first of the two braces.
  obtain ⟨r, hr, hend⟩ := hfunction.2 []
  have hread := (Script.reads_read? (by decide +kernel)).takes_iff.1 hr
  have hfirst : Script.read? (Script.many (.rule .statement))
      (Script.skipGap ("$event.stopPropagation();\x7d".toList ++ ['\x7d'])) =
        some ['\x7d', '\x7d'] := by
    decide +kernel
  cases hread.symm.trans hfirst
  exact absurd hend (by decide +kernel)

end EventMarkup
