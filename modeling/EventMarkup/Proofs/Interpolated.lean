import EventMarkup.Proofs.Script.Operand
import EventMarkup.Proofs.TextRun
import EventMarkup.Diagnostic
import EventMarkup.Text.Pieces

/-!
# Interpolated text

The script expression of a text joins quoted literals and calls by plus signs. Literals are quoted
in such a way that the script grammar reads them as one string each, whatever they hold, and an
interpolation without slashes that is an expression by itself is one as the argument of its call. So
no problem is reported for a text with such interpolations (`ofNode_interpolation_eq_nil`).
-/

namespace EventMarkup

open Peg Text Script Markup

/-! ## Quoted literals -/

theorem not_stops_hexDigit (n : Nat) :
    stopsString '"' (hexDigit (n % 16)) = false := by
  have h : ∀ m < 16, stopsString '"' (hexDigit m) = false := by decide
  exact h _ (Nat.mod_lt n (by decide))

theorem stretch_of_not_stops {c : Char} {r : List Char} (h : stopsString '"' c = false) :
    stretch (stopsString '"') (c :: r) = stretch (stopsString '"') r := by
  have hc : c ≠ '\\' := by
    rintro rfl
    cases h
  rw [stretch_cons hc, h]
  rfl

theorem stretch_escaped (c : Char) (r : List Char) :
    stretch (stopsString '"') (escaped c ++ r) = stretch (stopsString '"') r := by
  by_cases hslash : c = '\\'
  · subst hslash
    rfl
  by_cases hquote : c = '"'
  · subst hquote
    rfl
  by_cases hfeed : c = '\n'
  · subst hfeed
    rfl
  by_cases hreturn : c = '\r'
  · subst hreturn
    rfl
  by_cases htab : c = '\t'
  · subst htab
    rfl
  simp only [escaped, if_neg hslash, if_neg hquote, if_neg hfeed, if_neg hreturn, if_neg htab]
  split
  · show stretch (stopsString '"') (hexFour c.toNat ++ r) = _
    simp only [hexFour, List.cons_append, List.nil_append,
      stretch_of_not_stops (not_stops_hexDigit _)]
  · rename_i hplain
    simp only [Bool.or_eq_true, beq_iff_eq, not_or] at hplain
    refine stretch_of_not_stops ?_
    simp [stopsString, isLineEnd, hslash, hquote, hfeed, hreturn, hplain]

theorem string?_quoted (s k : List Char) : string? (quoted s ++ k) = some k := by
  have hstretch : stretch (stopsString '"') (s.flatMap escaped ++ '"' :: k) = '"' :: k := by
    induction s with
    | nil => rfl
    | cons c s ih => rw [List.flatMap_cons, List.append_assoc, stretch_escaped, ih]
  have hquoted : quoted s ++ k = '"' :: (s.flatMap escaped ++ '"' :: k) := by
    simp [quoted]
  rw [hquoted, string?, enclosed?_eq_none (by decide), Option.none_or, enclosed?]
  simp [dropFront?, hstretch]

theorem takes_primary_quoted (s k : List Char) : Takes (.rule .primary) (quoted s ++ k) k := by
  have hstring := string?_quoted s k
  obtain ⟨t, ht⟩ : ∃ t, quoted s ++ k = '"' :: t := ⟨_, rfl⟩
  rw [ht] at hstring ⊢
  exact takes_primary_of_literal beforeStrings rfl (by decide) (reads_string.takes hstring)

/-! ## Operands and sums -/

/-- A text that ends a term of a sum: nothing, or a plus sign and a further term. -/
def EndsTerm (k : List Char) : Prop :=
  k = [] ∨ ∃ c t, k = '+' :: c :: t ∧ (c = '"' ∨ c = '_')

/-- The front of a literal or of the call of a function. -/
def BeginsTerm (x : List Char) : Prop := (∃ t, x = '"' :: t) ∨ ∃ t, x = '_' :: 's' :: '(' :: t

/-- A literal or the call of a function, in front of the end of a term. -/
def IsTerm (x : List Char) : Prop :=
  BeginsTerm x ∧ ∀ k, EndsTerm k → Takes (.rule .unary) (x ++ k) k

theorem refuses_of_endsTerm {p : Pattern Rule} {k : List Char} (hk : EndsTerm k)
    (htame : isTame p = true) (hnil : read? p [] = none)
    (hplus : ([['+', '"'], ['+', '_']].all fun w => foresee 100 p w == some none) = true) :
    Refuses p k := by
  simp only [List.all_cons, List.all_nil, Bool.and_true, Bool.and_eq_true, beq_iff_eq] at hplus
  rcases hk with rfl | ⟨c, t, rfl, rfl | rfl⟩
  · exact (reads_read? htame).refuses hnil
  · exact refuses_of_foresee hplus.1
  · exact refuses_of_foresee hplus.2

theorem skipGap_of_endsTerm {k : List Char} (hk : EndsTerm k) : skipGap k = k := by
  rcases hk with rfl | ⟨c, t, rfl, -⟩
  · exact skipGap_eq_self rfl rfl
  · exact skipGap_cons (by decide) (comment?_eq_none (by decide))

theorem refuses_suffix_of_endsTerm {k : List Char} (hk : EndsTerm k) : Refuses (.rule .suffix) k :=
  refuses_of_endsTerm hk (isTame_rule .suffix) (by decide) (by decide)

theorem refuses_endOperator_of_endsTerm {k : List Char} (hk : EndsTerm k) :
    Refuses endOperator k :=
  refuses_of_endsTerm hk (by decide) (by decide) (by decide)

theorem isTerm_quoted (s : List Char) : IsTerm (quoted s) := by
  refine ⟨.inl ⟨_, rfl⟩, fun k hk => ?_⟩
  have hprimary := takes_primary_quoted s k
  obtain ⟨t, ht⟩ : ∃ t, quoted s ++ k = ['"'] ++ t := ⟨_, rfl⟩
  rw [ht] at hprimary ⊢
  refine takes_unary (skipGap_cons (by decide) (comment?_eq_none (by decide)))
    (refuses_of_foresee (n := 100) (by decide)) (refuses_of_foresee (n := 100) (by decide))
    hprimary ?_ (skipGap_of_endsTerm hk) (refuses_endOperator_of_endsTerm hk)
  rw [skipGap_of_endsTerm hk]
  exact takes_many_iff.2 (.inr ⟨refuses_suffix_of_endsTerm hk, rfl⟩)

/-- Of the call that makes a text of something, the name is an operand. What is in parentheses
belongs to it if it is a list of arguments. -/
theorem takes_unary_call {e k v : List Char}
    (hsuffix : Takes (many (.rule .suffix)) ('(' :: (e ++ ')' :: k)) v) (hv : skipGap v = v)
    (hend : Refuses endOperator v) :
    Takes (.rule .unary) ('_' :: 's' :: '(' :: (e ++ [')']) ++ k) v := by
  have htext : '_' :: 's' :: '(' :: (e ++ [')']) ++ k = ['_', 's', '('] ++ (e ++ ')' :: k) := by
    simp
  have hprimary : Takes (.rule .primary) (['_', 's', '('] ++ (e ++ ')' :: k))
      (['('] ++ (e ++ ')' :: k)) := takes_of_foresee (n := 100) (by decide)
  have hopen : skipGap (['('] ++ (e ++ ')' :: k)) = '(' :: (e ++ ')' :: k) :=
    skipGap_cons (by decide) (comment?_eq_none (by decide))
  rw [htext]
  refine takes_unary (skipGap_cons (by decide) (comment?_eq_none (by decide)))
    (refuses_of_foresee (n := 100) (by decide))
    (refuses_of_foresee (n := 100) (by decide)) hprimary ?_ hv hend
  rwa [hopen]

theorem isTerm_call_of_arguments {e : List Char}
    (h : ∀ k, Takes (.rule .arguments) ('(' :: (e ++ ')' :: k)) k) :
    IsTerm ('_' :: 's' :: '(' :: (e ++ [')'])) := by
  refine ⟨.inr ⟨_, rfl⟩, fun k hk => ?_⟩
  refine takes_unary_call ?_ (skipGap_of_endsTerm hk) (refuses_endOperator_of_endsTerm hk)
  refine takes_many_iff.2 (.inl ⟨k, takes_suffix_of_arguments (h k),
    takes_star_gap_iff.2 (.inr ⟨?_, rfl⟩)⟩)
  rw [skipGap_of_endsTerm hk]
  exact refuses_suffix_of_endsTerm hk

theorem isTerm_call {e : List Char} (hslash : '/' ∉ e) (h : Takes (.rule .expression) e []) :
    IsTerm ('_' :: 's' :: '(' :: (e ++ [')'])) :=
  isTerm_call_of_arguments fun k => takes_arguments hslash h k

/-- The further terms of a sum. -/
def addends (xs : List (List Char)) : List Char := xs.flatMap ('+' :: ·)

theorem BeginsTerm.skipGap {x : List Char} (h : BeginsTerm x) (k : List Char) :
    Script.skipGap (x ++ k) = x ++ k := by
  rcases h with ⟨t, rfl⟩ | ⟨t, rfl⟩ <;>
    exact skipGap_cons (by decide) (comment?_eq_none (by decide))

theorem endsTerm_addends {xs : List (List Char)} (h : ∀ x ∈ xs, BeginsTerm x) :
    EndsTerm (addends xs) := by
  cases xs with
  | nil => exact .inl rfl
  | cons x xs =>
    rcases h x List.mem_cons_self with ⟨t, rfl⟩ | ⟨t, rfl⟩
    · exact .inr ⟨_, _, rfl, .inl rfl⟩
    · exact .inr ⟨_, _, rfl, .inr rfl⟩

theorem takes_addend {x k v : List Char} (hx : BeginsTerm x)
    (h : Takes (.rule .unary) (x ++ k) v) :
    Takes (row [binaryOperator, .rule .unary]) ('+' :: (x ++ k)) v := by
  have hplus : Takes binaryOperator ('+' :: (x ++ k)) (x ++ k) := by
    rcases hx with ⟨t, rfl⟩ | ⟨t, rfl⟩
    · have h : foresee 100 binaryOperator ['+', '"'] = some (some ['"']) := by decide
      exact takes_of_foresee h
    · have h : foresee 100 binaryOperator ['+', '_'] = some (some ['_']) := by decide
      exact takes_of_foresee h
  refine takes_row_iff.2 ⟨_, hplus, ?_⟩
  rwa [hx.skipGap]

theorem refuses_addend_nil : Refuses (row [binaryOperator, .rule .unary]) [] :=
  refuses_row halts_nil.binaryOperator

theorem takes_star_addend {x v r : List Char} {xs : List (List Char)} (hx : BeginsTerm x)
    (h : Takes (.rule .unary) (x ++ addends xs) v)
    (hstar : Takes (.star (.both gap (row [binaryOperator, .rule .unary]))) v r) :
    Takes (.star (.both gap (row [binaryOperator, .rule .unary]))) (addends (x :: xs)) r := by
  have htext : addends (x :: xs) = '+' :: (x ++ addends xs) := rfl
  rw [htext]
  refine takes_star_gap_iff.2 (.inl ⟨v, ?_, hstar⟩)
  rw [skipGap_cons (by decide) (comment?_eq_none (by decide))]
  exact takes_addend hx h

theorem takes_star_addends {xs : List (List Char)} (h : ∀ x ∈ xs, IsTerm x) :
    Takes (.star (.both gap (row [binaryOperator, .rule .unary]))) (addends xs) [] := by
  induction xs with
  | nil =>
    refine takes_star_gap_iff.2 (.inr ⟨?_, rfl⟩)
    rw [addends, skipGap_eq_self rfl rfl]
    exact refuses_addend_nil
  | cons x xs ih =>
    obtain ⟨hx, hxs⟩ := List.forall_mem_cons.1 h
    exact takes_star_addend hx.1 (hx.2 _ (endsTerm_addends fun y hy => (hxs y hy).1)) (ih hxs)

theorem BeginsTerm.refuses_arrows {x : List Char} (h : BeginsTerm x) (k : List Char) :
    Refuses arrows (x ++ k) := by
  rcases h with ⟨t, rfl⟩ | ⟨t, rfl⟩
  · exact refuses_of_foresee (n := 100) (s := ['"']) (by decide)
  · exact refuses_of_foresee (n := 100) (s := ['_', 's', '(']) (by decide)

theorem takes_expression_of_addends {x v r : List Char} {xs : List (List Char)} (hx : BeginsTerm x)
    (h : Takes (.rule .unary) (x ++ addends xs) v) (hv : skipGap v = v)
    (hstar : Takes (.star (.both gap (row [binaryOperator, .rule .unary]))) v r) (hr : Halts r)
    (hcomma : r.head? ≠ some ',') : Takes (.rule .expression) (x ++ addends xs) r := by
  have hbinary : Takes (.rule .binary) (x ++ addends xs) r := by
    refine Takes.rule (takes_row_iff.2 ⟨v, h, ?_⟩)
    rw [hv]
    exact takes_many_of_star hv hstar
  exact takes_expression_of_assignment
    (takes_assignment_of_binary (hx.refuses_arrows _) hbinary hr) hr.settled hcomma

theorem toList_intercalate_cons (x : String) (xs : List String) :
    ("+".intercalate (x :: xs)).toList = x.toList ++ addends (xs.map String.toList) := by
  rw [String.toList_intercalate, List.map_cons]
  exact intercalate_cons ['+'] _ _

/-- A sum of terms is a function body. -/
theorem isBody_intercalate {xs : List String} (hne : xs ≠ []) (h : ∀ x ∈ xs, IsTerm x.toList) :
    Script.isBody ("+".intercalate xs) = true := by
  obtain ⟨x, xs, rfl⟩ := List.exists_cons_of_ne_nil hne
  obtain ⟨hx, hxs⟩ := List.forall_mem_cons.1 h
  have hterms : ∀ y ∈ xs.map String.toList, IsTerm y := by simpa using hxs
  have hends := endsTerm_addends fun y hy => (hterms y hy).1
  have hexpression : Takes (.rule .expression) (x.toList ++ addends (xs.map String.toList)) [] :=
    takes_expression_of_addends hx.1 (hx.2 _ hends) (skipGap_of_endsTerm hends)
      (takes_star_addends hterms) halts_nil nofun
  refine isBody_of_takes (t := []) ?_
  rw [toList_intercalate_cons]
  refine takes_body_of_optional ?_ halts_nil.settled
  rw [hx.1.skipGap]
  exact hexpression.either

/-! ## Texts -/

theorem forall_mem_termsOf {P : List Char → Prop} {parts : List (List Char × List Char)}
    (hliteral : ∀ s, P (quoted s))
    (hscript : ∀ part ∈ parts, P ('_' :: 's' :: '(' :: (trim part.2 ++ [')']))) (last : List Char) :
    ∀ x ∈ termsOf parts last, P x.toList := by
  have hstatic : ∀ t : List Char, ∀ x ∈ literalTerms t, P x.toList := by
    intro t x hx
    unfold literalTerms at hx
    split at hx
    · cases hx
    · cases List.mem_singleton.1 hx
      simpa [quote] using hliteral t
  intro x hx
  rcases List.mem_append.1 hx with hx | hx
  · obtain ⟨part, hpart, hx⟩ := List.mem_flatMap.1 hx
    rcases List.mem_append.1 hx with hx | hx
    · exact hstatic _ x hx
    · cases List.mem_singleton.1 hx
      simpa [scriptTerm, trimString] using hscript part hpart
  · exact hstatic _ x hx

theorem termsOf_ne_nil {parts : List (List Char × List Char)} (h : parts ≠ []) (last : List Char) :
    termsOf parts last ≠ [] := by
  obtain ⟨part, parts, rfl⟩ := List.exists_cons_of_ne_nil h
  simp [termsOf]

/-- No problem is reported for a text, whatever its static parts hold, if each of its
interpolations is an expression without slashes. -/
theorem ofNode_interpolation_eq_nil {text : String} {parts : List (List Char × List Char)}
    {last : List Char} (h : segments text.toList = segmentsOf parts last) (hparts : parts ≠ [])
    (hscripts : ∀ part ∈ parts, '/' ∉ trim part.2 ∧
      ∃ trees width reach, grammar.run .expression (trim part.2) = .matched trees width [] reach) :
    ∃ script, expressionOf? text = some script ∧
      Diagnostic.ofNode (.interpolation script text) = [] := by
  have hopen : (cutAt? openMark text.toList).isSome = true := by
    rw [Option.isSome_iff_ne_none, ne_eq, cutAt?_eq_none_iff]
    intro hinfix
    rw [segments_of_not_openMark hinfix] at h
    have hnone : segmentsOf [] text.toList = segmentsOf parts last := h
    exact hparts (segmentsOf_injective hnone).1.symm
  have hterms : ∀ x ∈ termsOf parts last, IsTerm x.toList := by
    refine forall_mem_termsOf isTerm_quoted (fun part hpart => ?_) last
    obtain ⟨hslash, ts, w, far, hrun⟩ := hscripts part hpart
    exact isTerm_call hslash ⟨ts, w, far, orderly.run_eq_iff.1 hrun⟩
  refine ⟨"+".intercalate (termsOf parts last), ?_, ?_⟩
  · rw [expressionOf?, if_pos hopen, h, filterMap_term?_segmentsOf]
  · unfold Diagnostic.ofNode Diagnostic.ofScript
    rw [if_pos (isBody_intercalate (termsOf_ne_nil hparts last) hterms)]

theorem ofNode_interpolation_eq_nil_greeting :
    segments "\"\\'\x7b\x7b f(a)[0] \x7d\x7d$\x7b\n\x7b\x7bx => y\x7d\x7d".toList =
        segmentsOf [("\"\\'".toList, " f(a)[0] ".toList), ("$\x7b\n".toList, "x => y".toList)] [] ∧
      ∃ script, expressionOf? "\"\\'\x7b\x7b f(a)[0] \x7d\x7d$\x7b\n\x7b\x7bx => y\x7d\x7d" =
          some script ∧
        Diagnostic.ofNode (.interpolation script
          "\"\\'\x7b\x7b f(a)[0] \x7d\x7d$\x7b\n\x7b\x7bx => y\x7d\x7d") = [] := by
  have hparts : segments "\"\\'\x7b\x7b f(a)[0] \x7d\x7d$\x7b\n\x7b\x7bx => y\x7d\x7d".toList =
      segmentsOf [("\"\\'".toList, " f(a)[0] ".toList), ("$\x7b\n".toList, "x => y".toList)] [] := by
    decide +kernel
  refine ⟨hparts, ofNode_interpolation_eq_nil hparts nofun ?_⟩
  simp only [List.forall_mem_cons, List.not_mem_nil, false_implies, implies_true, and_true]
  exact ⟨⟨by decide +kernel, exists_run_of_read? (by decide +kernel)⟩, by decide +kernel,
    exists_run_of_read? (by decide +kernel)⟩

/-- The scripts of a text are judged together. A script may close the call that is made of it and
open another bracket in its place, and then it is no function body by itself. -/
theorem exists_unbalanced_interpolation :
    ¬ ∀ text parts last script, Factors text.toList parts last →
      expressionOf? text = some script → Diagnostic.ofNode (.interpolation script text) = [] →
      ∀ part ∈ parts, trim part.2 = [] ∨ Script.isBody (String.ofList (trim part.2)) = true := by
  intro h
  have hopen : cutAt? openMark "\x7b\x7b a) + (b \x7d\x7d".toList =
      some ([], " a) + (b ".toList ++ closeMark ++ []) := by decide +kernel
  have hclose : cutAt? closeMark (" a) + (b ".toList ++ closeMark ++ []) =
      some (" a) + (b ".toList, []) := by decide +kernel
  have hparts : Factors "\x7b\x7b a) + (b \x7d\x7d".toList [([], " a) + (b ".toList)] [] :=
    .interpolation (cutAt?_eq_some_iff.1 hopen).2 (cutAt?_eq_some_iff.1 hclose).2
      (.last (by simp [openMark]))
  rcases h _ _ _ "_s(a) + (b)" hparts (by decide +kernel) (by decide +kernel) _
    List.mem_cons_self with hempty | hbody
  · exact absurd hempty (by decide +kernel)
  · exact absurd hbody (by decide +kernel)

end EventMarkup
