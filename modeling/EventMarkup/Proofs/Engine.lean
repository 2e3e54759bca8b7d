import EventMarkup.Event.Callback
import EventMarkup.Proofs.Literal
import EventMarkup.Proofs.Script.Chain
import EventMarkup.Proofs.Script.Path

/-!
# What callbacks do

A small script engine. A function body is read as a list of instructions, and of these the engine
knows only what it needs for the code that guards a listener: comparisons of the event with numbers
and with registered codes, returning early, calling a method of the event, and handing the event to
a member. Whatever it does not know is one instruction that stands for the rest of the text.
`instructions_sourceOf` says how it reads the statements of a callback.
-/

namespace EventMarkup

open Text

/-- A value that a condition looks at. -/
inductive Term where
  /-- What the event has under a name. -/
  | field (name : String)
  /-- A number. -/
  | number (n : Int)
  /-- What is registered under a name. -/
  | registered (name : String)
  deriving DecidableEq, Repr

/-- An instruction of a function body. -/
inductive Instruction where
  /-- Returns if the two values of every pair differ. -/
  | leaveIf (pairs : List (Term × Term))
  /-- Calls a method of the event, without arguments. -/
  | invoke (method : String)
  /-- Calls what a path names, with the event. -/
  | apply (path : String)
  /-- Any other script text. -/
  | other (text : String)
  deriving DecidableEq, Repr

/-! ## Running instructions -/

/-- What a callback finds when it is called. -/
structure Situation (α : Type) where
  /-- The values of numbers. -/
  number : Int → α
  /-- The values that are registered under names. -/
  registered : String → α
  /-- What the event has under names. -/
  event : String → α
  /-- Whether two values are strictly equal. -/
  same : α → α → Bool

/-- What a callback does to its surroundings. -/
inductive Effect where
  /-- A method of the event was called. -/
  | invoked (method : String)
  /-- What a path names was called with the event. -/
  | applied (path : String)
  /-- A script text was run. -/
  | ran (text : String)
  deriving DecidableEq, Repr

namespace Situation

variable {α : Type} (e : Situation α)

def value : Term → α
  | .field name => e.event name
  | .number n => e.number n
  | .registered name => e.registered name

def differs (pair : Term × Term) : Bool := !e.same (e.value pair.1) (e.value pair.2)

def run : List Instruction → List Effect
  | [] => []
  | .leaveIf pairs :: more => if pairs.all e.differs then [] else run more
  | .invoke method :: more => .invoked method :: run more
  | .apply path :: more => .applied path :: run more
  | .other text :: more => .ran text :: run more

end Situation

/-! ## Reading instructions -/

namespace Instruction

def readName? (s : List Char) : Option (String × List Char) :=
  if s.head?.any isWordStart then
    some (String.ofList (s.takeWhile isWordRest), s.dropWhile isWordRest)
  else none

def readTerm? (s : List Char) : Option (Term × List Char) :=
  match dropFront? "$event.".toList s with
  | some s => (readName? s).map fun (name, s) => (.field name, s)
  | none =>
    match dropFront? "_k(".toList s with
    | some s => do
      let (name, s) ← unquote? s
      (dropFront? [')'] s).map fun s => (.registered (String.ofList name), s)
    | none => (readInteger? s).map fun (n, s) => (.number n, s)

/-- The pair of values at the front that a condition says to differ, and what stands behind it. -/
def readPair? (s : List Char) : Option ((Term × Term) × List Char) := do
  let (a, s) ← readTerm? s
  let s ← dropFront? "!==".toList (s.dropWhile (· == ' '))
  let (b, s) ← readTerm? (s.dropWhile (· == ' '))
  some ((a, b), s)

/-- The pairs of a condition, of which there is at least one, and what stands behind it. -/
def readPairs? (s : List Char) : Option (List (Term × Term) × List Char) :=
  match readPair? s with
  | none => none
  | some (pair, t) =>
    match dropFront? "&&".toList t with
    | none => some ([pair], t)
    | some u =>
      -- A pair is never empty, so this always holds.
      if u.length < s.length then
        (readPairs? u).map fun (pairs, rest) => (pair :: pairs, rest)
      else none
termination_by s.length

/-- The instruction at the front if others may follow it, and what stands behind it. -/
def read? (s : List Char) : Option (Instruction × List Char) := do
  let (before, s) ← cutAt? ['('] s
  if before = "if".toList then
    let (pairs, s) ← readPairs? s
    (dropFront? ")return;".toList s).map fun s => (.leaveIf pairs, s)
  else
    match readName? (← dropFront? "$event.".toList before) with
    | some (method, []) => (dropFront? ");".toList s).map fun s => (.invoke method, s)
    | _ => none

/-- Whether a text is a member and nothing else. -/
def isMember (text : String) : Bool :=
  (Script.read? Script.member (Script.skipGap text.toList)).any (Script.skipGap · == [])

/-- The last instruction, which is the whole text. -/
def last (s : List Char) : List Instruction :=
  let path := String.ofList (s.take (s.length - "($event)".length))
  if s = [] then []
  else if isMember path ∧ path.toList ++ "($event)".toList = s then [.apply path]
  else [.other (String.ofList s)]

end Instruction

/-- The instructions of a function body. -/
def instructions (s : List Char) : List Instruction :=
  match Instruction.read? s with
  | none => Instruction.last s
  | some (instruction, t) =>
    if t.length < s.length then instruction :: instructions t else Instruction.last s
termination_by s.length

/-! ## How the code of callbacks is read -/

def Operand.term : Operand → Term
  | .code n => .number n
  | .registered name => .registered name

namespace Instruction

theorem readTerm?_registered (name k : List Char) :
    readTerm? ("_k(".toList ++ (quoted name ++ ')' :: k)) =
      some (.registered (String.ofList name), k) := by
  have hread : readTerm? ("_k(".toList ++ (quoted name ++ ')' :: k)) =
      (unquote? (quoted name ++ ')' :: k)).bind fun (name, s) =>
        (dropFront? [')'] s).map fun s => (.registered (String.ofList name), s) := rfl
  rw [hread, unquote?_quoted]
  rfl

theorem readTerm?_number (n : Int) {k : List Char} (hk : ∀ c ∈ k.head?, c.isDigit = false) :
    readTerm? ((toString n).toList ++ k) = some (.number n, k) := by
  obtain ⟨c, s, h, hc⟩ := exists_toString_eq n
  have hfield : '$' ≠ c := by
    rintro rfl
    exact absurd hc (by decide)
  have hregistered : '_' ≠ c := by
    rintro rfl
    exact absurd hc (by decide)
  have hread : readTerm? (c :: (s ++ k)) =
      (readInteger? (c :: (s ++ k))).map fun (n, s) => (.number n, s) := by
    simp [readTerm?, dropFront?, hfield, hregistered]
  have htext : (toString n).toList ++ k = c :: (s ++ k) := by rw [h, List.cons_append]
  rw [htext, hread, ← htext, readInteger?_toString n hk]
  rfl

theorem readTerm?_operand (o : Operand) {k : List Char} (hk : ∀ c ∈ k.head?, c.isDigit = false) :
    readTerm? (o.source.toList ++ k) = some (o.term, k) := by
  cases o with
  | code n => exact readTerm?_number n hk
  | registered name =>
    have hsource : (Operand.registered name).source.toList ++ k =
        "_k(".toList ++ (quoted name.toList ++ (')' :: k)) := by
      simp [Operand.source, quote]
    rw [hsource, readTerm?_registered, String.ofList_toList]
    rfl

theorem exists_source_eq (o : Operand) : ∃ c s, o.source.toList = c :: s ∧ c ≠ ' ' := by
  cases o with
  | code n =>
    obtain ⟨c, s, h, hc⟩ := exists_toString_eq n
    refine ⟨c, s, h, ?_⟩
    rintro rfl
    exact absurd hc (by decide)
  | registered name => exact ⟨'_', _, by simp [Operand.source]; rfl, by decide⟩

theorem readPair?_mismatch (o : Operand) {k : List Char} (hk : ∀ c ∈ k.head?, c.isDigit = false) :
    readPair? (o.mismatch.toList ++ k) = some ((.field "keyCode", o.term), k) := by
  obtain ⟨c, s, h, hc⟩ := exists_source_eq o
  have hread := readTerm?_operand o hk
  have hmismatch : o.mismatch.toList = "$event.keyCode!==".toList ++ o.source.toList :=
    String.toList_append
  have hsource : o.mismatch.toList ++ k = "$event.keyCode!==".toList ++ (c :: (s ++ k)) := by
    rw [hmismatch, h, List.append_assoc, List.cons_append]
  have hspace : (c :: (s ++ k)).dropWhile (· == ' ') = c :: (s ++ k) := by
    simp [hc]
  have hpair : readPair? ("$event.keyCode!==".toList ++ (c :: (s ++ k))) =
      (readTerm? ((c :: (s ++ k)).dropWhile (· == ' '))).bind fun (b, s) =>
        some ((.field "keyCode", b), s) := rfl
  rw [h, List.cons_append] at hread
  rw [hsource, hpair, hspace, hread]
  rfl

theorem readPairs?_single {s t : List Char} {pair : Term × Term} (h : readPair? s = some (pair, t))
    (ht : dropFront? "&&".toList t = none) : readPairs? s = some ([pair], t) := by
  rw [readPairs?, h]
  dsimp only
  rw [ht]

theorem readPairs?_and {s t : List Char} {pair : Term × Term}
    (h : readPair? s = some (pair, "&&".toList ++ t)) (hlt : t.length < s.length) :
    readPairs? s = (readPairs? t).map fun (pairs, rest) => (pair :: pairs, rest) := by
  rw [readPairs?, h]
  dsimp only
  rw [dropFront?_append]
  dsimp only
  rw [if_pos hlt]

theorem readPairs?_mismatches (o : Operand) (os : List Operand) (k : List Char) :
    readPairs? (("&&".intercalate ((o :: os).map Operand.mismatch)).toList ++ ')' :: k) =
      some ((o :: os).map fun o => (.field "keyCode", o.term), ')' :: k) := by
  induction os generalizing o with
  | nil =>
    have htext : ("&&".intercalate ([o].map Operand.mismatch)).toList = o.mismatch.toList := by
      simp
    rw [htext]
    exact readPairs?_single (readPair?_mismatch o (by simp)) rfl
  | cons p os ih =>
    have htext : ("&&".intercalate ((o :: p :: os).map Operand.mismatch)).toList ++ ')' :: k =
        o.mismatch.toList ++ ("&&".toList ++
          (("&&".intercalate ((p :: os).map Operand.mismatch)).toList ++ ')' :: k)) := by
      simp only [String.toList_intercalate, List.map_cons, List.intercalate_cons_cons,
        List.append_assoc]
    have hread := ih p
    rw [htext]
    generalize ("&&".intercalate ((p :: os).map Operand.mismatch)).toList ++ ')' :: k = t
      at hread ⊢
    have hlt : t.length < (o.mismatch.toList ++ ("&&".toList ++ t)).length := by
      have hmark : "&&".toList.length = 2 := rfl
      rw [List.length_append, List.length_append]
      omega
    rw [readPairs?_and (readPair?_mismatch o fun d hd => by cases hd; rfl) hlt, hread]
    rfl

end Instruction

namespace Statement

def instruction : Statement → Instruction
  | .keyGuard operands => .leaveIf (operands.map fun o => (.field "keyCode", o.term))
  | .stopPropagation => .invoke "stopPropagation"
  | .preventDefault => .invoke "preventDefault"
  | .selfGuard => .leaveIf [(.field "target", .field "currentTarget")]
  | .call path => .apply path
  | .script text => .other text

/-- Whether a statement may stand before others. -/
def isPrelude : Statement → Bool
  | .keyGuard operands => !operands.isEmpty
  | .stopPropagation | .preventDefault | .selfGuard => true
  | .call _ | .script _ => false

theorem read?_source {s : Statement} (h : s.isPrelude = true) (k : List Char) :
    Instruction.read? (s.source.toList ++ k) = some (s.instruction, k) := by
  have hread : ∀ t, Instruction.read? ("if(".toList ++ t) =
      (Instruction.readPairs? t).bind fun (pairs, s) =>
        (dropFront? ")return;".toList s).map fun s => (.leaveIf pairs, s) := fun _ => rfl
  cases s with
  | keyGuard operands =>
    cases operands with
    | nil => cases h
    | cons o os =>
      have hsource : (keyGuard (o :: os)).source.toList ++ k = "if(".toList ++
          (("&&".intercalate ((o :: os).map Operand.mismatch)).toList ++
            ')' :: ("return;".toList ++ k)) := by
        simp [source]
      rw [hsource, hread, Instruction.readPairs?_mismatches]
      rfl
  | stopPropagation => rfl
  | preventDefault => rfl
  | selfGuard =>
    have hpair : Instruction.readPair? ("$event.target !== $event.currentTarget".toList ++
        (")return;".toList ++ k)) =
          some ((.field "target", .field "currentTarget"), ")return;".toList ++ k) := rfl
    have hsource : selfGuard.source.toList ++ k = "if(".toList ++
        ("$event.target !== $event.currentTarget".toList ++ (")return;".toList ++ k)) := rfl
    rw [hsource, hread, Instruction.readPairs?_single hpair rfl]
    rfl
  | call path => cases h
  | script text => cases h

theorem source_length_pos {s : Statement} (h : s.isPrelude = true) :
    0 < s.source.toList.length := by
  cases s with
  | keyGuard operands => simp [source]
  | stopPropagation | preventDefault | selfGuard => decide
  | call path | script text => cases h

end Statement

theorem instructions_of_read? {s t : List Char} {c : Instruction}
    (h : Instruction.read? s = some (c, t)) (hlt : t.length < s.length) :
    instructions s = c :: instructions t := by
  rw [instructions, h]
  dsimp only
  rw [if_pos hlt]

theorem instructions_sourceOf {body : List Statement} (h : ∀ s ∈ body, s.isPrelude = true)
    (k : List Char) :
    instructions ((sourceOf body).toList ++ k) =
      body.map Statement.instruction ++ instructions k := by
  induction body with
  | nil => rfl
  | cons s body ih =>
    obtain ⟨hs, hbody⟩ := List.forall_mem_cons.1 h
    have htext : (sourceOf (s :: body)).toList ++ k =
        s.source.toList ++ ((sourceOf body).toList ++ k) := by
      simp [sourceOf]
    have hlt : ∀ t, t.length < (s.source.toList ++ t).length := by
      intro t
      have := Statement.source_length_pos hs
      rw [List.length_append]
      omega
    rw [htext, instructions_of_read? (Statement.read?_source hs _) (hlt _), ih hbody]
    rfl

theorem Instruction.read?_of_openBracket_mem {w : List Char} (hw : '(' ∉ w) (h : '[' ∈ w)
    (r : List Char) : Instruction.read? (w ++ '(' :: r) = none := by
  have hname : ∀ {m method}, '[' ∈ m → readName? m ≠ some (method, []) := by
    intro m method hm hread
    unfold readName? at hread
    split at hread
    · simp only [Option.some.injEq, Prod.mk.injEq, List.dropWhile_eq_nil_iff] at hread
      exact absurd (hread.2 _ hm) (by decide)
    · cases hread
  have hif : w ≠ "if".toList := by
    rintro rfl
    exact absurd h (by decide)
  rw [read?, cutAt?_singleton r hw]
  simp only [Option.bind_eq_bind, Option.bind_some, if_neg hif]
  cases hd : dropFront? "$event.".toList w with
  | none => rfl
  | some m =>
    have hm : '[' ∈ m := by
      rw [eq_append_of_dropFront? hd, List.mem_append] at h
      exact h.resolve_left (by decide)
    simp only [Option.bind_some]
    split
    · rename_i hread
      exact absurd hread (hname hm)
    · rfl

theorem Instruction.read?_call {w : List Char} (hw : '(' ∉ w) :
    Instruction.read? (w ++ "($event)".toList) = none := by
  have hpairs : readPairs? "$event)".toList = none := by
    rw [readPairs?]
    rfl
  have hmethod : dropFront? ");".toList "$event)".toList = none := rfl
  have happend : w ++ "($event)".toList = w ++ '(' :: "$event)".toList := rfl
  rw [happend]
  generalize "$event)".toList = r at hpairs hmethod
  rw [read?, cutAt?_singleton r hw, Option.bind_eq_bind, Option.bind_some]
  dsimp only
  by_cases hif : w = "if".toList
  · rw [if_pos hif, hpairs]
    rfl
  · rw [if_neg hif]
    cases dropFront? "$event.".toList w with
    | none => rfl
    | some m =>
      rw [Option.bind_eq_bind, Option.bind_some]
      split
      · rw [hmethod]
        rfl
      · rfl

/-- A path that is called with the event is read as this and nothing else. -/
theorem instructions_call {path : String} (h : Script.isPath path = true)
    (hmember : Instruction.isMember path = true) :
    instructions (path.toList ++ "($event)".toList) = [.apply path] := by
  have hread : Instruction.read? (path.toList ++ "($event)".toList) = none := by
    by_cases hparen : '(' ∈ path.toList
    · obtain ⟨w, r, hpath, hw⟩ := List.eq_append_cons_of_mem hparen
      rw [hpath, List.append_assoc]
      exact Instruction.read?_of_openBracket_mem hw (Script.openBracket_mem_of_isPath h hpath) _
    · exact Instruction.read?_call hparen
  have htake : String.ofList ((path.toList ++ "($event)".toList).take
      ((path.toList ++ "($event)".toList).length - "($event)".length)) = path := by
    have hlength : (path.toList ++ "($event)".toList).length - "($event)".length =
        path.toList.length := by
      rw [List.length_append]
      exact Nat.add_sub_cancel ..
    rw [hlength, List.take_left, String.ofList_toList]
  rw [instructions, hread]
  dsimp only
  unfold Instruction.last
  simp only [htake]
  rw [if_neg (List.append_ne_nil_of_right_ne_nil _ (by decide)), if_pos ⟨hmember, trivial⟩]

end EventMarkup
