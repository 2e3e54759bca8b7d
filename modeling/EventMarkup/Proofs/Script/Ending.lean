import EventMarkup.Proofs.Peg.Ending
import EventMarkup.Script.Grammar

/-!
# Matching scripts ends

The tables that show the script grammar to be orderly. Only the body of a function may be empty. A
rule ranks above every rule that may stand at its front, so the ranks end the descent.
-/

namespace EventMarkup.Script

open Peg

/-- The rank of a rule among the rules that may stand at each other's front. -/
def Rule.rank : Rule → Nat
  | .body => 10
  | .statement => 10
  | .simpleStatement => 9
  | .forHead => 9
  | .expression => 8
  | .argument => 8
  | .arrayElement => 8
  | .assignment => 7
  | .conditional => 6
  | .binary => 5
  | .unary => 4
  | .forBinding => 4
  | .callMember => 3
  | .patternItem => 3
  | .param => 3
  | .primary => 2
  | .suffix => 2
  | .arrowFunction => 2
  | .bindingElement => 2
  | .property => 2
  | .patternProperty => 2
  | _ => 1

def orderly : grammar.Orderly where
  empty := (· == .body)
  nest r := 60 * r.rank
  empty_body r := by cases r <;> decide +kernel
  nest_body r := by cases r <;> decide +kernel
  nest_lt r := by cases r <;> decide +kernel
  tame_body r := by cases r <;> decide +kernel

end EventMarkup.Script
