/-!
# Double-quoted literals

`quote` writes a text as a double-quoted literal that both script engines and JSON readers
understand. A backslash and a quote are escaped by a backslash, line feed, carriage return and tab
have letters of their own, and every other control character, as well as the separators U+2028 and
U+2029, is written as `\u` and four hexadecimal digits. All other characters stand for themselves.
-/

namespace EventMarkup.Text

/-- The control characters: U+0000 to U+001F and U+007F to U+009F. -/
def isControl (c : Char) : Bool := c.toNat ≤ 0x1F || (0x7F ≤ c.toNat && c.toNat ≤ 0x9F)

def hexDigit (n : Nat) : Char := if n < 10 then Char.ofNat (0x30 + n) else Char.ofNat (0x57 + n)

def hexFour (n : Nat) : List Char :=
  [hexDigit (n / 4096 % 16), hexDigit (n / 256 % 16), hexDigit (n / 16 % 16), hexDigit (n % 16)]

/-- What one character becomes inside a double-quoted literal. -/
def escaped (c : Char) : List Char :=
  if c = '\\' then ['\\', '\\']
  else if c = '"' then ['\\', '"']
  else if c = '\n' then ['\\', 'n']
  else if c = '\r' then ['\\', 'r']
  else if c = '\t' then ['\\', 't']
  else if isControl c || c == '\u2028' || c == '\u2029' then '\\' :: 'u' :: hexFour c.toNat
  else [c]

def quoted (s : List Char) : List Char := '"' :: (s.flatMap escaped ++ ['"'])

def quote (s : String) : String := String.ofList (quoted s.toList)

end EventMarkup.Text
