import EventMarkup.Proofs.Script.Lexeme
import EventMarkup.Script.Body

/-!
# Lines of a script

Names, numbers, strings and regular expressions stand on one line, unless a backslash takes a line
break with it (`backslash_mem_of_isLineEnd`). Where a line ends with a comment, a backslash at its
end stands in the comment. A regular expression may reach it all the same: a bracket in it that no
other closes on the line counts for itself, but with the backslash it is closed on a later line. So
line breaks do not separate all statements (`exists_unseparated_lines`).
-/

namespace EventMarkup.Script

open Peg Text

def lineTokens : List (Pattern Rule) :=
  [name, identifier, stringLiteral, numberLiteral, regexLiteral]

theorem ties_lineTokens : ∀ p ∈ lineTokens, ∀ c ∈ ['\n', '\r', '\u2028', '\u2029'],
    p.ties '\\' c = true := by
  have hall : (lineTokens.all fun p => ['\n', '\r', '\u2028', '\u2029'].all fun c =>
      p.ties '\\' c) = true := by decide +kernel
  simpa only [List.all_eq_true] using hall

/-- A token that takes a line break takes a backslash. -/
theorem backslash_mem_of_isLineEnd {p : Pattern Rule} {z rest : List Char} {c : Char}
    (hp : p ∈ lineTokens) (h : Takes p (z ++ rest) rest) (hc : c ∈ z) (hend : isLineEnd c = true) :
    '\\' ∈ z := by
  obtain ⟨ts, w, far, h⟩ := h
  have htaken : z = Tree.yieldAll ts := List.append_cancel_right (h.append rfl).1
  have hmem : c ∈ ['\n', '\r', '\u2028', '\u2029'] := by
    simpa [isLineEnd, or_assoc] using hend
  rw [htaken] at hc ⊢
  exact h.mem_of_ties rfl (ties_lineTokens p hp c hmem) hc

/-! ## Statements on lines of their own -/

/-- An expression on one line. -/
structure IsLine (s : List Char) : Prop where
  unbroken : ∀ c ∈ s, isLineEnd c = false
  whole : ∃ trees width reach, grammar.run .expression s = .matched trees width [] reach

/-- The text begins with an identifier, and it is not the one that may begin a declaration. -/
def StartsStatement (s : List Char) : Prop :=
  (identifier? s).isSome = true ∧ frontName s ≠ "let".toList

/-- Blanks and line breaks, one line break at least. -/
structure Separates (s : List Char) : Prop where
  blank : ∀ c ∈ s, c = ' ' ∨ c = '\t' ∨ isLineEnd c = true
  breaks : ∃ c ∈ s, isLineEnd c = true

/-- A line and further ones, each behind what separates it from the one before. -/
def joinLines (first : List Char) (more : List (List Char × List Char)) : List Char :=
  first ++ more.flatMap fun part => part.1 ++ part.2

/-- A bracket in a regular expression is closed on the next line, since the backslash at the end of
the comment takes the line break with it. -/
theorem exists_unseparated_lines :
    ¬ ∀ first more, IsLine first →
      (∀ part ∈ more, Separates part.1 ∧ IsLine part.2 ∧ StartsStatement part.2) →
      isBody (String.ofList (joinLines first more)) = true := by
  intro h
  have hline : ∀ {s : List Char}, (s.all fun c => !isLineEnd c) = true →
      read? (.rule .expression) s = some [] → IsLine s := fun hunbroken hread =>
    ⟨fun c hc => by simpa using List.all_eq_true.1 hunbroken c hc, exists_run_of_read? hread⟩
  have hbody := h "/[/ // \\".toList [(['\n'], "b[0]".toList)]
    (hline (by decide +kernel) (by decide +kernel)) fun part hpart => by
      cases List.mem_singleton.1 hpart
      have hseparates : Separates ['\n'] :=
        ⟨fun c hc => .inr (.inr (List.mem_singleton.1 hc ▸ rfl)), '\n', List.mem_cons_self, rfl⟩
      exact ⟨hseparates, hline (by decide +kernel) (by decide +kernel), by decide +kernel,
        by decide +kernel⟩
  exact absurd hbody (by decide +kernel)

end EventMarkup.Script
