import EventMarkup.Text.Blank
import EventMarkup.Text.Quoted

/-!
# Keys

A key token stands for one or several key codes. A token that starts with a number, after blanks
and a sign if it has them, stands for the code of that number, provided that it is not zero and
fits into 63 bits. A few names stand for codes of their own. Every other token is a custom key,
whose codes are looked up by name when an event arrives.
-/

namespace EventMarkup

open Text

/-- What a key token stands for. -/
inductive Key where
  /-- Key codes that are known beforehand, at least one. -/
  | known (code : Int) (others : List Int)
  /-- A name whose codes are looked up when an event arrives. -/
  | custom (name : String)
  deriving DecidableEq, Repr

/-- What the code of an arriving key is compared with. -/
inductive Operand where
  /-- A key code. -/
  | code (n : Int)
  /-- The codes that are registered for a name. -/
  | registered (name : String)
  deriving DecidableEq, Repr

def Operand.source : Operand → String
  | .code n => toString n
  | .registered name => "_k(" ++ quote name ++ ")"

namespace Key

/-! ## Numbers at the front of a token -/

def digitValue (c : Char) : Nat := c.toNat - 0x30

def decimalValue (digits : List Char) : Nat := digits.foldl (fun n c => 10 * n + digitValue c) 0

/-- The greatest key code, of 63 bits. -/
def maxCode : Nat := 0x7FFFFFFFFFFFFFFF

/-- The sign at the front of a text, as whether it is a minus, and what follows it. -/
def splitSign : List Char → Bool × List Char
  | '-' :: s => (true, s)
  | '+' :: s => (false, s)
  | s => (false, s)

/-- The number at the front of a token, after blanks and a sign, if there are digits and they
denote no more than the greatest key code. -/
def leadingNumber? (token : String) : Option Int :=
  let (negative, s) := splitSign (trimStart token.toList)
  let digits := s.takeWhile Char.isDigit
  let n := decimalValue digits
  if digits.isEmpty || maxCode < n then none
  else some (if negative then -(n : Int) else n)

/-! ## Tokens -/

/-- The codes of the key names that are known beforehand. -/
def named? (token : String) : Option Key :=
  match token with
  | "esc" => some (.known 27 [])
  | "tab" => some (.known 9 [])
  | "enter" => some (.known 13 [])
  | "space" => some (.known 32 [])
  | "up" => some (.known 38 [])
  | "left" => some (.known 37 [])
  | "right" => some (.known 39 [])
  | "down" => some (.known 40 [])
  | "delete" => some (.known 8 [46])
  | _ => none

/-- What a key token stands for: the number at its front, else what its name is known for, else
whatever is registered for it. -/
def ofToken (token : String) : Key :=
  match leadingNumber? token with
  | some n => if n = 0 then (named? token).getD (.custom token) else .known n []
  | none => (named? token).getD (.custom token)

/-- What the code of an arriving key is compared with. -/
def operands : Key → List Operand
  | .known code others => .code code :: others.map .code
  | .custom name => [.registered name]

def isSingle : Key → Bool
  | .known _ others => others.isEmpty
  | .custom _ => true

end Key

end EventMarkup
