import EventMarkup.Text.Front
import EventMarkup.Peg.Pattern
import EventMarkup.Peg.Tree

/-!
# Matching

`attempt` runs a pattern against the front of a text. A match gives the derivation trees, the
number of characters taken and what is left of the text; a failure gives nothing of these. Either
way the reply tells its `Reach`: how far from the start the last reported pattern stood that
failed on the way. Recursion is bounded by a number of steps, and a reply of its own says that they
did not suffice; `Grammar.run` allows a number of steps in proportion to the length of the text.

Everything in a reply is counted from where the pattern started, so a reply depends on the text
from there on and on nothing before it.
-/

namespace EventMarkup.Peg

variable {ρ : Type}

/-- The distance from the start of a match to the farthest reported pattern that failed, if any
did. -/
abbrev Reach := Option Nat

namespace Reach

/-- The farther of two reaches from the same start. -/
def farther : Reach → Reach → Reach
  | none, b => b
  | a, none => a
  | some m, some n => some (Nat.max m n)

/-- The reach as seen from `w` characters earlier. -/
def shift (w : Nat) (a : Reach) : Reach := a.map (w + ·)

end Reach

/-- The outcome of a match. -/
inductive Reply (ρ : Type) where
  /-- The pattern matches: its trees, the number of characters taken, the rest of the text, and
  the reach. -/
  | matched (trees : List (Tree ρ)) (width : Nat) (rest : List Char) (reach : Reach)
  /-- The pattern does not match. -/
  | failed (reach : Reach)
  /-- The steps ran out. -/
  | exhausted

namespace Reply

/-- The reply of a pattern that ran right after one that matched. -/
def after (trees : List (Tree ρ)) (width : Nat) (reach : Reach) : Reply ρ → Reply ρ
  | .matched ts w rest far =>
    .matched (trees ++ ts) (width + w) rest (reach.farther (far.shift width))
  | .failed far => .failed (reach.farther (far.shift width))
  | .exhausted => .exhausted

/-- The reply of a pattern that ran after another had failed at the same place. -/
def noting (reach : Reach) : Reply ρ → Reply ρ
  | .matched ts w rest far => .matched ts w rest (reach.farther far)
  | .failed far => .failed (reach.farther far)
  | .exhausted => .exhausted

/-- The reply of a rule, from the reply of its pattern. -/
def named (r : ρ) : Reply ρ → Reply ρ
  | .matched ts w rest far => .matched [.node r ts] w rest far
  | .failed far => .failed far
  | .exhausted => .exhausted

/-- Reports a pattern as a whole: only that it failed, and where it started. -/
def asToken : Reply ρ → Reply ρ
  | .matched ts w rest _ => .matched ts w rest none
  | .failed _ => .failed (some 0)
  | .exhausted => .exhausted

/-- Reports a pattern as a whole besides its parts. -/
def asPhrase : Reply ρ → Reply ρ
  | .failed far => .failed (Reach.farther (some 0) far)
  | reply => reply

def isMatch : Reply ρ → Bool
  | .matched _ _ _ _ => true
  | _ => false

def trees? : Reply ρ → Option (List (Tree ρ))
  | .matched ts _ _ _ => some ts
  | _ => none

end Reply

/-- Matches a pattern against the front of a text, with rules read off `body`. -/
def attempt (body : ρ → Pattern ρ) : Nat → Pattern ρ → List Char → Reply ρ
  | 0, _, _ => .exhausted
  | steps + 1, p, s =>
    match p with
    | .nothing => .matched [] 0 s none
    | .one ok =>
      match s with
      | [] => .failed none
      | c :: rest => if ok c then .matched [.leaf c] 1 rest none else .failed none
    | .text cs =>
      match Text.dropFront? cs s with
      | some rest => .matched (cs.map .leaf) cs.length rest none
      | none => .failed none
    | .atEnd =>
      match s with
      | [] => .matched [] 0 [] none
      | _ :: _ => .failed none
    | .rule r => (attempt body steps (body r) s).named r
    | .both a b =>
      match attempt body steps a s with
      | .matched ts w rest far => (attempt body steps b rest).after ts w far
      | .failed far => .failed far
      | .exhausted => .exhausted
    | .either a b =>
      match attempt body steps a s with
      | .matched ts w rest far => .matched ts w rest far
      | .failed far => (attempt body steps b s).noting far
      | .exhausted => .exhausted
    | .star a =>
      match attempt body steps a s with
      | .matched ts w rest far => (attempt body steps (.star a) rest).after ts w far
      | .failed far => .matched [] 0 s far
      | .exhausted => .exhausted
    | .ahead a =>
      match attempt body steps a s with
      | .matched _ _ _ far => .matched [] 0 s far
      | .failed far => .failed far
      | .exhausted => .exhausted
    | .notAhead a =>
      match attempt body steps a s with
      | .matched _ _ _ _ => .failed none
      | .failed _ => .matched [] 0 s none
      | .exhausted => .exhausted
    | .token a => (attempt body steps a s).asToken
    | .phrase a => (attempt body steps a s).asPhrase

namespace Grammar

/-- The number of steps that a text of the given length is allowed. -/
def steps (g : Grammar ρ) (length : Nat) : Nat := g.depth * (length + 1)

/-- Matches a rule of the grammar against the front of a text. -/
def run (g : Grammar ρ) (r : ρ) (s : List Char) : Reply ρ :=
  attempt g.body (g.steps s.length) (.rule r) s

end Grammar

end EventMarkup.Peg
