/-!
# Octets

Names and paths as the system keeps them, which are any bytes. A text is kept in UTF-8, and octets
that are no such text are still a name. In a message they are shown as a text all the same, with a
replacement character wherever no character can be read.
-/

namespace EventMarkup.Command

/-- Bytes of a name, a path or an argument. -/
abbrev Octets := List UInt8

/-- A text in UTF-8. -/
def octetsOf (text : String) : Octets := text.toUTF8.data.toList

instance : Coe String Octets := ⟨octetsOf⟩

/-- The text that octets are in UTF-8, if they are one. -/
def textOf? (o : Octets) : Option String := String.fromUTF8? ⟨o.toArray⟩

/-- The least and the greatest byte that may follow, place by place, on the first byte of a
character. -/
def followers (first : UInt8) : List (UInt8 × UInt8) :=
  if first < 0xC2 then []
  else if first < 0xE0 then [(0x80, 0xBF)]
  else if first = 0xE0 then [(0xA0, 0xBF), (0x80, 0xBF)]
  else if first = 0xED then [(0x80, 0x9F), (0x80, 0xBF)]
  else if first < 0xF0 then [(0x80, 0xBF), (0x80, 0xBF)]
  else if first = 0xF0 then [(0x90, 0xBF), (0x80, 0xBF), (0x80, 0xBF)]
  else if first < 0xF4 then [(0x80, 0xBF), (0x80, 0xBF), (0x80, 0xBF)]
  else if first = 0xF4 then [(0x80, 0x8F), (0x80, 0xBF), (0x80, 0xBF)]
  else []

/-- The characters of octets, with the replacement character for every longest front that no
character goes on with. -/
def lossyText : Octets → String
  | [] => ""
  | first :: more =>
    let taken := ((followers first).zip more).takeWhile fun (range, b) => range.1 ≤ b && b ≤ range.2
    (textOf? (first :: more.take taken.length)).getD "\uFFFD" ++ lossyText (more.drop taken.length)
termination_by o => o.length
decreasing_by simp only [List.length_drop, List.length_cons]; omega

/-- How octets are shown. -/
def shown (o : Octets) : String := (textOf? o).getD (lossyText o)

/-- Names are shown one by one. -/
instance : Coe (List Octets) (List String) := ⟨List.map shown⟩

end EventMarkup.Command
