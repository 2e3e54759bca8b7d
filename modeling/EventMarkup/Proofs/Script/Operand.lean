import EventMarkup.Proofs.Script.Call
import EventMarkup.Script.Body

/-!
# Operands

Where no operator follows, what the grammar takes as an operand it also takes as an assignment and
as an expression, and no operator follows where a mark ends an expression (`halts_cons`). A text on
one line is judged in one round, so whether it is a body is a matter of the grammar alone
(`isBody_iff_takes`).
-/

namespace EventMarkup.Script

open Peg Text

variable {s t v k : List Char}

/-! ## What ends an operand -/

theorem halts_nil : Halts [] where
  settled := skipGap_eq_self rfl rfl
  endOperator := (reads_read? (by decide)).refuses (by decide)
  binaryOperator := (reads_read? (by decide)).refuses (by decide +kernel)
  question := (reads_read? (by decide)).refuses (by decide)
  assignOperator := (reads_read? (by decide)).refuses (by decide +kernel)

/-- The marks that no operator begins with and that no operand goes on with, but a parenthesis. -/
def stopMarks : List Char := ['(', ')', ']', '\x7d', ',', ';', ':']

theorem halts_cons {c : Char} (hc : c ∈ stopMarks) (t : List Char) : Halts (c :: t) := by
  have hsettled : skipGap ([c] ++ t) = [c] ++ t := by
    have hall : (stopMarks.all fun c => !isGapBlank c && c != '/') = true := by decide
    have hspec := List.all_eq_true.1 hall c hc
    simp only [Bool.and_eq_true, Bool.not_eq_true', bne_iff_ne] at hspec
    exact skipGap_cons hspec.1 (comment?_eq_none hspec.2)
  have hall : (stopMarks.all fun c => [endOperator, binaryOperator, .lit "?", assignOperator].all
      fun p => foresee 100 p [c] == some none) = true := by decide
  exact halts_of_foresee hsettled (List.all_eq_true.1 hall c hc)

/-! ## Literals -/

theorem takes_primary_of_literal (before : List (Pattern Rule)) {after : List (Pattern Rule)}
    {literal : Pattern Rule} {c : Char}
    (hprimary : Rule.pattern .primary = .oneOf (before ++ literal :: after))
    (hfront : (before.all fun p => foresee 100 p [c] == some none) = true)
    (h : Takes literal (c :: s) t) : Takes (.rule .primary) (c :: s) t := by
  refine Takes.rule ?_
  rw [hprimary]
  exact takes_oneOf before after (fun q hq =>
    refuses_of_foresee (s := [c]) (beq_iff_eq.1 (List.all_eq_true.1 hfront q hq))) h

def beforeStrings : List (Pattern Rule) :=
  [parenthesized, row [.lit "[", holedList (.rule .arrayElement), .lit "]"],
    row [.lit "\x7b", commaList (.rule .property), .lit "\x7d"], .rule .functionExpression,
    .rule .templateLiteral]

/-! ## From operands to expressions -/

theorem takes_unary (hs : skipGap s = s) (hfront : Refuses frontOperator s)
    (hnew : Refuses (word "new") s) (hprimary : Takes (.rule .primary) s v)
    (hsuffix : Takes (many (.rule .suffix)) (skipGap v) k) (hk : skipGap k = k)
    (hend : Refuses endOperator k) : Takes (.rule .unary) s k := by
  refine Takes.rule (takes_row_iff.2 ⟨s, takes_many_iff.2 (.inr ⟨hfront, rfl⟩), ?_⟩)
  rw [hs]
  refine takes_row_iff.2 ⟨k, takes_callMember hnew hs hprimary hsuffix, ?_⟩
  rw [hk]
  exact takes_optional_iff.2 (.inr ⟨hend, rfl⟩)

theorem takes_assignment_of_binary (harrows : Refuses arrows s) (h : Takes (.rule .binary) s k)
    (hk : Halts k) : Takes (.rule .assignment) s k := by
  have hconditional : Takes (.rule .conditional) s k := by
    refine Takes.rule (takes_row_iff.2 ⟨k, h, ?_⟩)
    rw [hk.settled]
    exact takes_optional_iff.2 (.inr ⟨refuses_row hk.question, rfl⟩)
  refine Takes.rule (harrows.either_takes (takes_row_iff.2 ⟨k, hconditional, ?_⟩))
  rw [hk.settled]
  exact takes_optional_iff.2 (.inr ⟨refuses_row hk.assignOperator, rfl⟩)

theorem takes_expression_of_assignment (h : Takes (.rule .assignment) s k) (hk : skipGap k = k)
    (hcomma : k.head? ≠ some ',') : Takes (.rule .expression) s k := by
  have hrefuses : Refuses (.lit ",") k := by
    refine (reads_text _).refuses ?_
    cases k with
    | nil => rfl
    | cons c k =>
      have hc : ¬ ',' = c := fun h => hcomma (h ▸ rfl)
      simp [dropFront?, hc]
  refine Takes.rule (.phrase (takes_row_iff.2 ⟨k, h, ?_⟩))
  rw [hk]
  exact takes_many_iff.2 (.inr ⟨refuses_row hrefuses, rfl⟩)

/-! ## Bodies on one line -/

theorem takes_endOfScript_iff : Takes endOfScript s t ↔ s = [] ∧ t = [] := by
  constructor
  · intro h
    cases s with
    | nil => exact ⟨rfl, List.suffix_nil.1 h.suffix⟩
    | cons c s => exact absurd ⟨_, .token (.atEndFails c s) rfl⟩ h.not_refuses
  · rintro ⟨rfl, rfl⟩
    exact ⟨_, _, _, .token .atEnd rfl⟩

theorem takes_body_of_optional (h : Takes (.optional (.rule .expression)) (skipGap s) t)
    (ht : skipGap t = []) : Takes (.rule .body) s [] := by
  refine Takes.rule ((reads_gap.takes rfl).both (takes_row_iff.2 ⟨t, h, ?_⟩))
  rw [ht]
  refine takes_row_iff.2 ⟨[], takes_optional_iff.2 (.inr ⟨?_, rfl⟩), ?_⟩
  · exact refuses_row ((reads_text _).refuses rfl)
  · rw [halts_nil.settled]
    exact takes_endOfScript_iff.2 ⟨rfl, rfl⟩

theorem eq_nil_of_takes_body (h : Takes (.rule .body) s t) : t = [] := by
  obtain ⟨u, -, h⟩ := takes_both_iff.1 (takes_rule_iff.1 h)
  obtain ⟨v, -, h⟩ := takes_row_iff.1 h
  obtain ⟨w, -, h⟩ := takes_row_iff.1 h
  exact (takes_endOfScript_iff.1 h).2

/-- On one line no semicolon is put in. -/
theorem isBody_iff_takes {text : String} (hline : ∀ c ∈ text.toList, isLineEnd c = false) :
    isBody text = true ↔ Takes (.rule .body) text.toList [] := by
  have hcount : text.toList.countP isLineEnd = 0 := List.countP_eq_zero.2 fun c hc =>
    ne_true_of_eq_false (hline c hc)
  have hrun := orderly.runs_run .body text.toList
  simp only [isBody, hcount, isBodyWithin, verdict]
  cases hx : grammar.run .body text.toList with
  | matched ts w rest far =>
    rw [hx] at hrun
    have htakes : Takes (.rule .body) text.toList rest := ⟨ts, w, far, hrun⟩
    exact iff_of_true rfl (eq_nil_of_takes_body htakes ▸ htakes)
  | failed far =>
    rw [hx] at hrun
    exact iff_of_false Bool.false_ne_true fun h => h.not_refuses ⟨far, hrun⟩
  | exhausted => exact absurd hx (orderly.run_ne_exhausted .body text.toList)

theorem isBody_of_takes {text : String} (h : Takes (.rule .body) text.toList t) :
    isBody text = true := by
  obtain ⟨ts, w, far, h⟩ := h
  rw [isBody, isBodyWithin, verdict, orderly.run_eq_iff.2 h]

end EventMarkup.Script
