/-!
# Patterns

A pattern says how the front of a text may look. Patterns are those of parsing expression
grammars: a choice takes the first alternative that matches, a repetition takes as much as it can,
and neither is revised when something later fails. A grammar gives each of its rules a pattern,
which may name rules in turn.

Two patterns say nothing about the text and only mark what is worth reporting when a match fails:
a `token` counts as one indivisible thing, a `phrase` counts besides the things inside it.
-/

namespace EventMarkup.Peg

/-- A description of the front of a text, over the rule names `ρ`. -/
inductive Pattern (ρ : Type) where
  /-- The empty text. -/
  | nothing
  /-- One character that satisfies the test. -/
  | one (ok : Char → Bool)
  /-- Exactly these characters. -/
  | text (cs : List Char)
  /-- The empty text, provided that nothing follows. -/
  | atEnd
  /-- What the grammar says of a rule. -/
  | rule (r : ρ)
  /-- The first pattern and right after it the second. -/
  | both (a b : Pattern ρ)
  /-- The first pattern, or else the second. -/
  | either (a b : Pattern ρ)
  /-- The pattern again and again, as often as it matches. -/
  | star (a : Pattern ρ)
  /-- The empty text, provided that the pattern matches what follows. -/
  | ahead (a : Pattern ρ)
  /-- The empty text, provided that the pattern does not match what follows. -/
  | notAhead (a : Pattern ρ)
  /-- The pattern, reported as a whole and not by its parts when it fails. -/
  | token (a : Pattern ρ)
  /-- The pattern, reported as a whole besides its parts when it fails. -/
  | phrase (a : Pattern ρ)

namespace Pattern

variable {ρ : Type}

def never : Pattern ρ := .one fun _ => false

def anyChar : Pattern ρ := .one fun _ => true

def lit (s : String) : Pattern ρ := .text s.toList

def optional (a : Pattern ρ) : Pattern ρ := .either a .nothing

def plus (a : Pattern ρ) : Pattern ρ := .both a (.star a)

/-- Any one character, provided that the pattern does not match here. -/
def anyBut (a : Pattern ρ) : Pattern ρ := .both (.notAhead a) anyChar

def oneOf : List (Pattern ρ) → Pattern ρ
  | [] => never
  | [a] => a
  | a :: more => .either a (oneOf more)

/-- The patterns one right after the other. -/
def joined : List (Pattern ρ) → Pattern ρ
  | [] => .nothing
  | [a] => a
  | a :: more => .both a (joined more)

/-- The patterns one after the other, with a gap between every two of them. -/
def spaced (gap : Pattern ρ) : List (Pattern ρ) → Pattern ρ
  | [] => .nothing
  | [a] => a
  | a :: more => .both a (.both gap (spaced gap more))

/-- The pattern as often as it matches, with a gap between every two rounds. -/
def starSpaced (gap a : Pattern ρ) : Pattern ρ := optional (.both a (.star (.both gap a)))

end Pattern

/-- A grammar: the pattern of each rule, and how deeply patterns may nest in it between two
characters of the text. -/
structure Grammar (ρ : Type) where
  /-- The pattern of a rule. -/
  body : ρ → Pattern ρ
  /-- A bound on the patterns that are open at once without a character between them. -/
  depth : Nat

end EventMarkup.Peg
