import EventMarkup.Proofs.Cursor.Bytes

/-!
# Reading by places

The reader of templates once more, as it goes over the bytes of a text: it keeps a place in them,
looks at one byte at a time, and takes a part of the text by the places of its two ends. Nothing
keeps it from a part that ends inside of a character or from a loop that stands still, but each such
step would stop it with an error of its own (`Stop`).

Characters that fit nowhere in a tag are passed over byte by byte. So between two attributes the
place may be inside of a character.
-/

namespace EventMarkup.Cursor

open Markup Text

/-- Why the reader stops. -/
inductive Stop where
  /-- The text is no template. -/
  | fault (error : ReadError)
  /-- A part is wanted whose ends are in the wrong order, or an end that is no boundary. -/
  | badSlice (first last : Nat)
  /-- A pass of a loop does not go forward within the bytes. -/
  | astray (place next : Nat)
  deriving DecidableEq, Repr

/-! ## Parts -/

def slice (b : List UInt8) (first last : Nat) : Except Stop String :=
  if first ≤ last ∧ isBoundary b first ∧ isBoundary b last then
    match String.fromUTF8? ((b.drop first).take (last - first)).toByteArray with
    | some part => .ok part
    | none => .error (.badSlice first last)
  else .error (.badSlice first last)

/-- The place of a mark in a text, if it occurs there. -/
def find (mark : List Char) (s : String) : Option Nat :=
  (cutAt? mark s.toList).map fun cut => byteLength cut.1

/-- How the bytes behind a place look. -/
def behind (b : List UInt8) (i : Nat) : List Char := (b.drop i).map Char.ofUInt8

/-- The place behind the bytes that have a property. -/
def pass (p : Char → Bool) (b : List UInt8) (i : Nat) : Nat :=
  i + ((behind b i).takeWhile p).length

/-- The place behind the mark that ends a tag, if it stands here. -/
def passEnd (b : List UInt8) (i : Nat) : Nat := if (behind b i).head? = some '>' then i + 1 else i

/-! ## Loops -/

/-- What one pass of a loop comes to. -/
inductive Pass (α β : Type) where
  /-- The loop goes on at the next place. -/
  | goes (found : List α) (next : Nat)
  /-- The loop ends. -/
  | ends (result : β) (last : Nat)

/-- Passes of a loop from a place on, each of which has to go forward. Gives what the passes have
found, the result of the last one, and the place where it ended. -/
def loop {α β : Type} (length : Nat) (once : Nat → Except Stop (Pass α β)) (i : Nat) :
    Except Stop ((List α × β) × Nat) :=
  match once i with
  | .error stop => .error stop
  | .ok (.ends result last) => .ok (([], result), last)
  | .ok (.goes found next) =>
    if _forward : i < next ∧ next ≤ length then
      match loop length once next with
      | .ok ((more, result), last) => .ok ((found ++ more, result), last)
      | .error stop => .error stop
    else .error (.astray i next)
termination_by length - i

section loop

variable {α β : Type} {length i : Nat} {once : Nat → Except Stop (Pass α β)}

theorem loop_ends {result : β} {last : Nat} (h : once i = .ok (.ends result last)) :
    loop length once i = .ok (([], result), last) := by
  rw [loop, h]

theorem loop_error {stop : Stop} (h : once i = .error stop) : loop length once i = .error stop := by
  rw [loop, h]

theorem loop_goes {found : List α} {next : Nat} (h : once i = .ok (.goes found next))
    (hlt : i < next) (hle : next ≤ length) :
    loop length once i = (loop length once next).map fun ((more, result), last) =>
      ((found ++ more, result), last) := by
  rw [loop, h]
  dsimp only
  rw [dif_pos ⟨hlt, hle⟩]
  cases loop length once next <;> rfl

theorem loop_goes_nil {next : Nat} (h : once i = .ok (.goes [] next)) (hlt : i < next)
    (hle : next ≤ length) : loop length once i = loop length once next := by
  rw [loop_goes h hlt hle]
  cases loop length once next <;> rfl

theorem loop_skip {j : Nat} (hij : i ≤ j) (hj : j ≤ length)
    (h : ∀ k, i ≤ k → k < j → once k = .ok (.goes [] (k + 1))) :
    loop length once i = loop length once j := by
  induction hij using Nat.decreasingInduction with
  | self => rfl
  | of_succ k hk ih =>
    rw [loop_goes_nil (h k le_rfl hk) k.lt_succ_self (by omega)]
    exact ih fun m hm hmj => h m (by omega) hmj

end loop

/-! ## Tags -/

def readName (b : List UInt8) (i : Nat) : Except Stop (String × Nat) := do
  let last := pass isTagChar b i
  let name ← slice b i last
  return (name, last)

def readValue (b : List UInt8) (name : String) (i : Nat) : Except Stop (String × Nat) :=
  match (behind b i).head? with
  | none => return ("", i)
  | some quote =>
    if quote = '"' ∨ quote = '\'' then
      let last := pass (· != quote) b (i + 1)
      if last < b.length then do
        let value ← slice b (i + 1) last
        return (value, last + 1)
      else throw (.fault (.openAttribute name))
    else do
      let last := pass isBareChar b i
      let value ← slice b i last
      return (value, last)

/-- Reads an attribute, if one stands here. -/
def readAttribute (b : List UInt8) (i : Nat) : Except Stop (Option Attribute × Nat) :=
  let last := pass isAttributeChar b i
  if last = i then return (none, i)
  else do
    let name ← slice b i last
    let next := pass isTagBlank b last
    if (behind b next).head? = some '=' then
      let (value, after) ← readValue b name (pass isTagBlank b (next + 1))
      return (some ⟨name, some value⟩, after)
    else return (some ⟨name, none⟩, next)

/-- One pass of the loop behind the name of a tag: an attribute, a byte that fits nowhere, or the
end of the tag. -/
def attributePass (b : List UInt8) (i : Nat) : Except Stop (Pass Attribute Bool) :=
  let first := pass isTagBlank b i
  match (behind b first).head? with
  | none => return .ends false first
  | some c =>
    if c = '/' then return .ends true (passEnd b (pass isTagBlank b (first + 1)))
    else if c = '>' then return .ends false (first + 1)
    else do
      let (found, next) ← readAttribute b first
      match found with
      | some a => return .goes [a] next
      | none => return .goes [] (next + 1)

def readComment (b : List UInt8) (i : Nat) : Except Stop (Option Step × Nat) := do
  let inside ← slice b (i + 4) b.length
  match find ['-', '-', '>'] inside with
  | some k => return (none, i + 4 + k + 3)
  | none => return (none, b.length)

def readDeclaration (b : List UInt8) (i : Nat) : Except Stop (Option Step × Nat) := do
  let inside ← slice b i b.length
  match find ['>'] inside with
  | some k => return (none, i + k + 1)
  | none => return (none, b.length)

def readClosingTag (b : List UInt8) (i : Nat) : Except Stop (Option Step × Nat) := do
  let (tag, last) ← readName b (i + 2)
  return (some (.closes tag), passEnd b (pass isTagBlank b last))

def readOpeningTag (b : List UInt8) (i : Nat) : Except Stop (Option Step × Nat) := do
  let (tag, last) ← readName b (i + 1)
  let ((attributes, selfClosing), next) ← loop b.length (attributePass b) last
  return (some (stepOfElement (.ofAttributes tag attributes selfClosing)), next)

def readTag (b : List UInt8) (i : Nat) : Except Stop (Option Step × Nat) := do
  let rest ← slice b i b.length
  if startsWith rest "<!--" then readComment b i
  else if (behind b (i + 1)).head? = some '!' then readDeclaration b i
  else if (behind b (i + 1)).head? = some '/' then readClosingTag b i
  else readOpeningTag b i

/-! ## Texts -/

/-- One pass of the loop over a text run that began at `start`: an interpolation, a byte, or the end
of the run. -/
def textPass (b : List UInt8) (start i : Nat) : Except Stop (Pass Empty Unit) :=
  if (dropFront? openMark (behind b i)).isSome then do
    let inside ← slice b (i + 2) b.length
    match find closeMark inside with
    | some k => return .goes [] (i + 2 + k + 2)
    | none => throw (.fault (.openInterpolation i))
  else if b.length ≤ i ∨ start < i ∧ isTagStart (behind b i) = true then return .ends () i
  else return .goes [] (i + 1)

def readRun (b : List UInt8) (i : Nat) : Except Stop (Option Step × Nat) := do
  let (_, last) ← loop b.length (textPass b i) i
  let run ← slice b i last
  return (some (stepOfRun run.toList), last)

/-! ## Templates -/

def readPart (b : List UInt8) (i : Nat) : Except Stop (Option Step × Nat) :=
  if isTagStart (behind b i) then readTag b i else readRun b i

def partPass (b : List UInt8) (i : Nat) : Except Stop (Pass Step Unit) :=
  if b.length ≤ i then return .ends () i
  else do
    let (step, next) ← readPart b i
    return .goes step.toList next

/-- Reads a template as a sequence of steps. -/
def read (b : List UInt8) : Except Stop (List Step) := do
  let ((steps, _), _) ← loop b.length (partPass b) 0
  return steps

end EventMarkup.Cursor
