import EventMarkup.Proofs.Behaviour

/-!
# The guard of the keys

A listener with key tokens starts with a guard: one comparison for each operand of each token, and
an early return if the code of the key differs from all of them. One key with one operand may be
written without joining anything, and the text is the same (`keyFilter_eq`). So an event passes the
guard of several tokens if and only if it passes the guard of one of them, and neither the order of
the tokens nor a repetition makes a difference (`passes_keyGuard`).
-/

namespace EventMarkup

open Text

variable {tokens : List String}

/-! ## Two ways to write a guard -/

/-- What the code of the key is compared with, for each token in turn. -/
def operandsOf (tokens : List String) : List Operand :=
  tokens.flatMap fun t => (Key.ofToken t).operands

def joinedGuard (keys : List Key) : String :=
  "if(" ++ "&&".intercalate ((keys.flatMap Key.operands).map Operand.mismatch) ++ ")return;"

def singleGuard (key : Key) : String :=
  "if($event.keyCode!==" ++ String.join (key.operands.map Operand.source) ++ ")return;"

/-- The guard of key tokens, where a key with one operand that stands alone is written as such. -/
def keyFilter (tokens : List String) : String :=
  match tokens.map Key.ofToken with
  | [] => ""
  | [key] => if key.isSingle then singleGuard key else joinedGuard [key]
  | keys => joinedGuard keys

theorem Key.exists_operand_of_isSingle {key : Key} (h : key.isSingle = true) :
    ∃ o, key.operands = [o] := by
  cases key with
  | known code others =>
    obtain rfl := List.isEmpty_iff.1 h
    exact ⟨_, rfl⟩
  | custom name => exact ⟨_, rfl⟩

theorem singleGuard_eq {key : Key} (h : key.isSingle = true) :
    singleGuard key = joinedGuard [key] := by
  obtain ⟨o, ho⟩ := Key.exists_operand_of_isSingle h
  have hoperands : [key].flatMap Key.operands = [o] := by
    rw [List.flatMap_singleton, ho]
  have hjoin : String.join ([o].map Operand.source) = o.source := by simp
  have hmismatch : "&&".intercalate ([o].map Operand.mismatch) = o.mismatch := by simp
  have hopen : "if($event.keyCode!==" = "if(" ++ "$event.keyCode!==" := by decide +kernel
  calc singleGuard key
    _ = "if($event.keyCode!==" ++ o.source ++ ")return;" := by
      unfold singleGuard
      rw [ho, hjoin]
    _ = "if(" ++ "$event.keyCode!==" ++ o.source ++ ")return;" :=
      congrArg (fun a => a ++ o.source ++ ")return;") hopen
    _ = "if(" ++ o.mismatch ++ ")return;" := congrArg (· ++ ")return;") (String.append_assoc ..)
    _ = joinedGuard [key] := by
      unfold joinedGuard
      rw [hoperands, hmismatch]

theorem sourceOf_keyGuard (h : tokens ≠ []) :
    sourceOf (keyGuard tokens) = joinedGuard (tokens.map Key.ofToken) := by
  have hguard : keyGuard tokens = [.keyGuard (operandsOf tokens)] :=
    if_neg (by simpa using h)
  have hoperands : (tokens.map Key.ofToken).flatMap Key.operands = operandsOf tokens := by
    rw [operandsOf, List.flatMap_map]
  rw [hguard, joinedGuard, hoperands]
  simp [sourceOf, Statement.source]

theorem keyFilter_eq (tokens : List String) : keyFilter tokens = sourceOf (keyGuard tokens) := by
  cases tokens with
  | nil => rfl
  | cons t ts =>
    rw [sourceOf_keyGuard (List.cons_ne_nil t ts)]
    cases ts with
    | nil =>
      show (if (Key.ofToken t).isSingle then _ else _) = _
      split
      · rename_i hsingle
        exact singleGuard_eq hsingle
      · rfl
    | cons u us => rfl

theorem operandsOf_ne_nil (h : tokens ≠ []) : operandsOf tokens ≠ [] := by
  obtain ⟨t, ts, rfl⟩ := List.exists_cons_of_ne_nil h
  simp [operandsOf, Key.operands_ne_nil]

/-! ## Events at the guard -/

namespace Situation

variable {α : Type} (e : Situation α)

/-- The guard returns: nothing that stands behind it is run. -/
def Leaves (guard : String) : Prop := ∀ k, e.effects (guard.toList ++ k) = []

/-- The guard lets the event through: what stands behind it is run as if it stood alone. -/
def Passes (guard : String) : Prop := ∀ k, e.effects (guard.toList ++ k) = e.effects k

def Misses (operands : List Operand) : Prop :=
  ∀ o ∈ operands, e.same (e.event "keyCode") (e.value o.term) = false

instance (operands : List Operand) : Decidable (e.Misses operands) := by
  unfold Misses
  infer_instance

theorem effects_keyGuard (h : tokens ≠ []) (k : List Char) :
    e.effects ((sourceOf (keyGuard tokens)).toList ++ k) =
      if e.Misses (operandsOf tokens) then [] else e.effects k := by
  have hprelude : ∀ s ∈ keyGuard tokens, s.isPrelude = true := by
    intro s hs
    have hguard : keyGuard tokens = [.keyGuard (operandsOf tokens)] := if_neg (by simpa using h)
    rw [hguard, List.mem_singleton] at hs
    subst hs
    simp [Statement.isPrelude, operandsOf_ne_nil h]
  have hmisses : (tokens.flatMap keyPairs).all e.differs = true ↔ e.Misses (operandsOf tokens) := by
    rw [e.all_keyPairs_iff, Misses, operandsOf, List.forall_mem_flatMap]
  rw [effects, instructions_sourceOf hprelude, map_instruction_keyGuard, guardInstructions,
    if_neg h]
  simp only [List.cons_append, List.nil_append, run, hmisses]
  rfl

theorem effects_name : e.effects ['f'] = [.ran "f"] := by
  have hread : instructions ['f'] = [.other "f"] := by decide +kernel
  rw [effects, hread]
  rfl

theorem leaves_keyGuard (h : tokens ≠ []) :
    e.Leaves (sourceOf (keyGuard tokens)) ↔ e.Misses (operandsOf tokens) := by
  refine ⟨fun hleaves => ?_, fun hmisses k => ?_⟩
  · have hname := hleaves ['f']
    rw [e.effects_keyGuard h, e.effects_name] at hname
    by_contra hmisses
    rw [if_neg hmisses] at hname
    cases hname
  · rw [e.effects_keyGuard h, if_pos hmisses]

theorem passes_iff_not_leaves (h : tokens ≠ []) :
    e.Passes (sourceOf (keyGuard tokens)) ↔ ¬ e.Leaves (sourceOf (keyGuard tokens)) := by
  rw [e.leaves_keyGuard h]
  refine ⟨fun hpasses hmisses => ?_, fun hmisses k => ?_⟩
  · have hname := hpasses ['f']
    rw [e.effects_keyGuard h, if_pos hmisses, e.effects_name] at hname
    cases hname
  · rw [e.effects_keyGuard h, if_neg hmisses]

theorem passes_iff_exists (h : tokens ≠ []) :
    e.Passes (sourceOf (keyGuard tokens)) ↔ ∃ t ∈ tokens, e.Passes (sourceOf (keyGuard [t])) := by
  have hone : ∀ t, e.Passes (sourceOf (keyGuard [t])) ↔ ¬ e.Misses (Key.ofToken t).operands := by
    intro t
    have hoperands : operandsOf [t] = (Key.ofToken t).operands := by simp [operandsOf]
    rw [e.passes_iff_not_leaves (List.cons_ne_nil t []), e.leaves_keyGuard (List.cons_ne_nil t []),
      hoperands]
  have hall : e.Misses (operandsOf tokens) ↔ ∀ t ∈ tokens, e.Misses (Key.ofToken t).operands := by
    simp only [Misses, operandsOf, List.forall_mem_flatMap]
  simp only [e.passes_iff_not_leaves h, e.leaves_keyGuard h, hone, hall, not_forall, exists_prop]

end Situation

/-- The guard of key tokens compares the code of the key with every operand of every token, in
order, and returns early if and only if it differs from all of them. So the events that pass are
those that pass for one of the tokens, however often and in whatever order these are listed. -/
theorem passes_keyGuard (tokens : List String) (h : tokens ≠ []) :
    (sourceOf (keyGuard tokens) =
        "if(" ++ "&&".intercalate ((operandsOf tokens).map fun o => "$event.keyCode!==" ++ o.source) ++
          ")return;" ∧
      operandsOf tokens ≠ []) ∧
    (∀ key : Key, key.isSingle = true → singleGuard key = joinedGuard [key]) ∧
    (keyFilter tokens = sourceOf (keyGuard tokens) ∧ keyFilter [] = "" ∧
      sourceOf (keyGuard []) = "") ∧
    ∀ (α : Type) (e : Situation α),
      (e.Leaves (sourceOf (keyGuard tokens)) ↔ ∀ t ∈ tokens, ∀ o ∈ (Key.ofToken t).operands,
        e.same (e.event "keyCode") (e.value o.term) = false) ∧
      (e.Passes (sourceOf (keyGuard tokens)) ↔ ¬ e.Leaves (sourceOf (keyGuard tokens))) ∧
      (e.Passes (sourceOf (keyGuard tokens)) ↔
        ∃ t ∈ tokens, e.Passes (sourceOf (keyGuard [t]))) ∧
      ∀ tokens' : List String, (∀ t, t ∈ tokens' ↔ t ∈ tokens) →
        (e.Passes (sourceOf (keyGuard tokens')) ↔ e.Passes (sourceOf (keyGuard tokens))) := by
  refine ⟨⟨?_, operandsOf_ne_nil h⟩, fun key => singleGuard_eq,
    ⟨keyFilter_eq tokens, rfl, rfl⟩, fun α e => ⟨?_, e.passes_iff_not_leaves h,
      e.passes_iff_exists h, fun tokens' hsame => ?_⟩⟩
  · rw [sourceOf_keyGuard h, joinedGuard, List.flatMap_map]
    rfl
  · rw [e.leaves_keyGuard h]
    simp only [Situation.Misses, operandsOf, List.forall_mem_flatMap]
  · have h' : tokens' ≠ [] := by
      obtain ⟨t, ht⟩ := List.exists_mem_of_ne_nil tokens h
      exact List.ne_nil_of_mem ((hsame t).2 ht)
    simp only [e.passes_iff_exists h, e.passes_iff_exists h', hsame]

theorem passes_keyGuard_delete :
    sourceOf (keyGuard ["delete", "f2", "46"]) =
      "if($event.keyCode!==8&&$event.keyCode!==46&&$event.keyCode!==_k(\"f2\")&&" ++
        "$event.keyCode!==46)return;" ∧
    (keyPress 46).Passes (sourceOf (keyGuard ["delete", "f2", "46"])) ∧
    (keyPress 46).Passes (sourceOf (keyGuard ["f2", "46", "delete", "f2"])) ∧
    (keyPress 13).Leaves (sourceOf (keyGuard ["delete", "f2", "46"])) := by
  obtain ⟨⟨htext, -⟩, -, -, hevents⟩ := passes_keyGuard ["delete", "f2", "46"] (by decide)
  obtain ⟨-, hpasses, -, hsame⟩ := hevents Int (keyPress 46)
  have hpass : (keyPress 46).Passes (sourceOf (keyGuard ["delete", "f2", "46"])) := by
    rw [hpasses, (hevents Int (keyPress 46)).1]
    decide +kernel
  refine ⟨htext.trans (by decide +kernel), hpass, (hsame _ ?_).2 hpass, ?_⟩
  · intro t
    simp only [List.mem_cons, List.not_mem_nil, or_false]
    tauto
  · rw [(hevents Int (keyPress 13)).1]
    decide +kernel

end EventMarkup
