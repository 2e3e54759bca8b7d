import EventMarkup.Text.NameTable

/-!
# Characters of names

A script name starts with a character of `isNameStart` and goes on with characters of
`isNameRest`: the Unicode identifier characters, the dollar sign and the underscore. After the
first place these include the two zero-width joiners. `isWordStart` and `isWordRest` are the ASCII
part of the two, which is all that paths and loop variables may use.
-/

namespace EventMarkup.Text

/-- Whether a code point lies in one of the ranges, which stand in ascending order. -/
def inRanges (n : Nat) : List (Nat × Nat) → Bool
  | [] => false
  | (low, high) :: more => low ≤ n && (n ≤ high || inRanges n more)

/-- The Unicode property `XID_Start`. -/
def isXidStart (c : Char) : Bool :=
  c.isAlpha || (0x80 ≤ c.toNat && inRanges c.toNat nameStartRanges)

/-- The Unicode property `XID_Continue`. -/
def isXidContinue (c : Char) : Bool :=
  c.isAlphanum || c == '_' ||
    (0x80 ≤ c.toNat && (inRanges c.toNat nameStartRanges || inRanges c.toNat nameRestRanges))

/-- The characters that start a script name. -/
def isNameStart (c : Char) : Bool := isXidStart c || c == '_' || c == '$'

/-- The characters that continue a script name. -/
def isNameRest (c : Char) : Bool := isXidContinue c || c == '$'

/-- The characters that start an ASCII name. -/
def isWordStart (c : Char) : Bool := c.isAlpha || c == '_' || c == '$'

/-- The characters that continue an ASCII name. -/
def isWordRest (c : Char) : Bool := c.isAlphanum || c == '_' || c == '$'

theorem isNameRest_of_isNameStart {c : Char} (h : isNameStart c = true) : isNameRest c = true := by
  simp only [isNameStart, isNameRest, isXidStart, isXidContinue, Char.isAlphanum,
    Bool.or_eq_true, Bool.and_eq_true] at h ⊢
  rcases h with (((h | h) | h) | h)
  · exact .inl (.inl (.inl (.inl h)))
  · exact .inl (.inr ⟨h.1, .inl h.2⟩)
  · exact .inl (.inl (.inr h))
  · exact .inr h

end EventMarkup.Text
