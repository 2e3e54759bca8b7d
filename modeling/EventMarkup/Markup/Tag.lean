import EventMarkup.Markup.Attribute
import EventMarkup.Text.Blank

/-!
# Tags

The reader of what stands inside a tag: names, attributes and the end of the tag. It forgives much.
Characters that fit nowhere are passed over, and a tag may be cut off by the end of the text. The
one thing it cannot forgive is a quoted value without its closing quote.

Every reader here gives back what follows the part that it has read, which is a suffix of the text;
an attribute always takes at least one character.
-/

namespace EventMarkup.Markup

open Text

/-- Why a text is no template, with what is needed to tell where. -/
inductive Fault where
  /-- An interpolation is not closed; it opens at the front of this rest of the text. -/
  | interpolation (rest : List Char)
  /-- The quoted value of the attribute with this name is not closed. -/
  | attribute (name : List Char)
  deriving DecidableEq, Repr

def isTagChar (c : Char) : Bool := c.isAlphanum || c == '_' || c == '-'

def isAttributeChar (c : Char) : Bool :=
  c.isAlphanum || c == '_' || c == '-' || c == ':' || c == '@' || c == '.' || c == '#' || c == '$'

def isBareChar (c : Char) : Bool := !isTagBlank c && c != '>'

def skipBlanks (s : List Char) : List Char := s.dropWhile isTagBlank

/-- The text without the mark that ends a tag, if it starts with one. -/
def skipEnd : List Char → List Char
  | '>' :: s => s
  | s => s

/-! ## Attributes -/

/-- Reads the value of an attribute: up to the closing quote, or else up to a blank or the end of
the tag. -/
def readValue (name : List Char) : List Char → Except Fault (List Char × List Char)
  | [] => .ok ([], [])
  | c :: s =>
    if c = '"' ∨ c = '\'' then
      match cutAt? [c] s with
      | some (value, rest) => .ok (value, rest)
      | none => .error (.attribute name)
    else .ok ((c :: s).takeWhile isBareChar, (c :: s).dropWhile isBareChar)

/-- Reads an attribute: a name, and a value if an equals sign follows. -/
def readAttribute (s : List Char) : Except Fault (Attribute × List Char) :=
  let name := s.takeWhile isAttributeChar
  match skipBlanks (s.dropWhile isAttributeChar) with
  | '=' :: rest =>
    match readValue name (skipBlanks rest) with
    | .ok (value, rest) => .ok (⟨String.ofList name, some (String.ofList value)⟩, rest)
    | .error fault => .error fault
  | rest => .ok (⟨String.ofList name, none⟩, rest)

theorem skipBlanks_suffix (s : List Char) : skipBlanks s <:+ s := s.dropWhile_suffix isTagBlank

theorem skipEnd_suffix (s : List Char) : skipEnd s <:+ s := by
  unfold skipEnd
  split
  · exact List.suffix_cons _ _
  · exact List.suffix_refl _

theorem cutAt?_suffix {mark s before rest : List Char} (h : cutAt? mark s = some (before, rest)) :
    rest <:+ s := ⟨before ++ mark, (eq_append_of_cutAt? h).symm⟩

theorem readValue_suffix {name s value rest : List Char}
    (h : readValue name s = .ok (value, rest)) : rest <:+ s := by
  unfold readValue at h
  split at h
  · cases h; exact List.suffix_refl _
  · split at h
    · split at h
      · rename_i hc
        cases h
        exact (cutAt?_suffix hc).trans (List.suffix_cons _ _)
      · cases h
    · cases h
      exact List.dropWhile_suffix _

theorem readAttribute_suffix {s rest : List Char} {a : Attribute}
    (h : readAttribute s = .ok (a, rest)) : rest <:+ s.dropWhile isAttributeChar := by
  unfold readAttribute at h
  have hb := skipBlanks_suffix (s.dropWhile isAttributeChar)
  split at h
  · rename_i r hr
    dsimp only at h
    split at h
    · rename_i value rest' hv
      cases h
      exact (((readValue_suffix hv).trans (skipBlanks_suffix r)).trans
        (List.suffix_cons _ r)).trans (hr ▸ hb)
    · cases h
  · cases h
    exact hb

/-- What was read of a tag behind its name. -/
structure TagEnd where
  /-- The attributes in order. -/
  attributes : List Attribute
  /-- Whether the tag ends the element itself. -/
  selfClosing : Bool
  /-- What follows the tag. -/
  rest : List Char
  deriving DecidableEq, Repr

/-- Reads a tag behind its name: attributes up to `>`, to `/`, or to the end of the text. -/
def readTagEnd (s : List Char) : Except Fault TagEnd :=
  match _front : skipBlanks s with
  | [] => .ok ⟨[], false, []⟩
  | c :: rest =>
    if c = '/' then .ok ⟨[], true, skipEnd (skipBlanks rest)⟩
    else if c = '>' then .ok ⟨[], false, rest⟩
    else if _name : isAttributeChar c then
      match _read : readAttribute (c :: rest) with
      | .ok (a, after) =>
        match readTagEnd after with
        | .ok tag => .ok { tag with attributes := a :: tag.attributes }
        | .error fault => .error fault
      | .error fault => .error fault
    else readTagEnd rest
termination_by s.length
decreasing_by
  · have h := (readAttribute_suffix _read).length_le
    have hd := (rest.dropWhile_suffix isAttributeChar).length_le
    have hs := (skipBlanks_suffix s).length_le
    simp only [List.dropWhile_cons_of_pos _name] at h
    rw [_front] at hs
    simp at hs
    omega
  · have hs := (skipBlanks_suffix s).length_le
    rw [_front] at hs
    simp at hs
    omega

end EventMarkup.Markup
