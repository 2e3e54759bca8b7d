import EventMarkup.Proofs.Engine
import EventMarkup.Proofs.Interpolated
import EventMarkup.Proofs.Script.Block

/-!
# Statements of callbacks

The statements that a callback is written with are statements of the script: each operand of a guard
is an operand, the comparisons of a guard are a condition, and what stands in front of the action of
a listener may stand in front of any list of statements. What such a list may be, a script language
decides (`Dialect`), and the script grammar is one of these (`Dialect.script`).
-/

namespace EventMarkup

open Peg Text Script

variable {t k : List Char}

/-! ## Operands of the guard -/

/-- The characters behind an operand of the guard: a further comparison goes on or none does. -/
def operandEnds : List Char := [')', '&']

theorem spans_assignment_quoted (s : List Char) (hk : Ends k) :
    Spans (.rule .assignment) (quoted s ++ k) k := by
  have hprimary := takes_primary_quoted s k
  obtain ⟨t, ht⟩ : ∃ t, quoted s ++ k = ['"'] ++ t := ⟨_, rfl⟩
  rw [ht] at hprimary ⊢
  exact spans_assignment_of_front rfl (by decide)
    (.of_takes (skipGap_of_isSolidFront rfl t) hprimary) hk

theorem spans_callMember_digits {ds : List Char} (hne : ds ≠ []) (h : ∀ d ∈ ds, d.isDigit = true)
    {c : Char} (hc : c ∈ operandEnds) (t : List Char) :
    Spans (.rule .callMember) (ds ++ c :: t) (c :: t) := by
  have hends : c ∈ numberEnds := List.mem_cons_of_mem ']' hc
  have hprimary := takes_primary_of_number hne h hends t
  cases ds with
  | nil => exact absurd rfl hne
  | cons d ds =>
    have hd := h d List.mem_cons_self
    have hnew : Refuses (word "new") (skipGap (d :: (ds ++ c :: t))) :=
      refuses_skipGap_of_mem (n := 100) (mem_digitChars hd) (by decide) _
    exact spans_callMember hnew (.of_takes (skipGap_digit hd _) hprimary)
      (.many_nil (refuses_skipGap_of_mem (n := 100) hc (by decide) t))

theorem spans_callMember_registered (name : String) {c : Char} (hc : c ∈ operandEnds)
    (t : List Char) :
    Spans (.rule .callMember) ("_k(".toList ++ (quoted name.toList ++ ')' :: c :: t)) (c :: t) := by
  have hargument := spans_assignment_quoted name.toList (ends_cons (c := ')') (by decide) (c :: t))
  exact spans_callMember (refuses_skipGap_of_foresee (n := 100) rfl (by decide) _)
    (spans_of_foresee (n := 100) (r := ['(']) rfl (by decide) _) (.many_cons
      (spans_suffix_call hargument) (.many_nil (refuses_skipGap_of_mem (n := 100) hc (by decide) t)))

theorem spans_unary_operand (o : Operand) {c : Char} (hc : c ∈ operandEnds) (t : List Char) :
    Spans (.rule .unary) (o.source.toList ++ c :: t) (c :: t) := by
  have hend : Refuses endOperator (skipGap (c :: t)) :=
    refuses_skipGap_of_mem (n := 100) hc (by decide) t
  have hfront : ∀ {s}, skipGap s = s → Spans (.rule .callMember) s (c :: t) →
      Refuses frontOperator (skipGap s) := by
    intro s hs h
    obtain ⟨r, hr, -⟩ := h
    rw [hs] at hr ⊢
    exact refuses_frontOperator hs hr
  have hdigits : ∀ m : Nat, Spans (.rule .callMember) (Nat.toDigits 10 m ++ c :: t) (c :: t) :=
    fun m => spans_callMember_digits Nat.toDigits_ne_nil
      (fun d hd => Nat.isDigit_of_mem_toDigits (by decide) (by decide) hd) hc t
  have hgap : ∀ m : Nat, skipGap (Nat.toDigits 10 m ++ c :: t) = Nat.toDigits 10 m ++ c :: t := by
    intro m
    obtain ⟨d, s, h, hd⟩ := exists_toDigits_eq m
    rw [h]
    exact skipGap_digit hd _
  cases o with
  | code n =>
    rw [Operand.source]
    cases n with
    | ofNat m =>
      rw [Int.ofNat_eq_natCast, toList_toString_natCast]
      exact spans_unary (hfront (hgap m) (hdigits m)) (hdigits m) hend
    | negSucc m =>
      have hminus : Spans frontOperator ('-' :: (Nat.toDigits 10 (m + 1) ++ c :: t))
          (Nat.toDigits 10 (m + 1) ++ c :: t) := by
        obtain ⟨d, s, h, hd⟩ := exists_toDigits_eq (m + 1)
        have hall : (digitChars.all fun d =>
            foresee 100 frontOperator ['-', d] == some (some [d])) = true := by decide
        rw [h]
        exact spans_of_foresee (w := ['-', d]) rfl
          (beq_iff_eq.1 (List.all_eq_true.1 hall d (mem_digitChars hd))) _
      rw [toList_toString_negSucc]
      exact .rule (Spans.row (.many_cons hminus (.many_nil (hfront (hgap _) (hdigits _))))
        ((hdigits _).row (.optional_nil hend)))
  | registered name =>
    have htext : (Operand.registered name).source.toList ++ c :: t =
        "_k(".toList ++ (quoted name.toList ++ ')' :: c :: t) := by
      simp [Operand.source, quote]
    rw [htext]
    exact spans_unary (refuses_skipGap_of_foresee (n := 100) rfl (by decide) _)
      (spans_callMember_registered name hc t) hend

/-! ## Statements -/

theorem toList_mismatch (o : Operand) :
    o.mismatch.toList = "$event.keyCode!==".toList ++ o.source.toList := String.toList_append

theorem spans_keyCode (k : List Char) :
    Spans (.rule .unary) ("$event.keyCode!==".toList ++ k) ("!==".toList ++ k) :=
  spans_of_foresee (n := 100) rfl (by decide) k

theorem spans_many_comparison (o : Operand) (os : List Operand) (t : List Char) :
    Spans (many (row [binaryOperator, .rule .unary]))
      ("!==".toList ++ (o.source.toList ++
        (os.flatMap (fun p => "&&".toList ++ p.mismatch.toList) ++ ')' :: t))) (')' :: t) := by
  have hdiffers : ∀ k, Spans binaryOperator ("!==".toList ++ k) k :=
    spans_of_foresee (n := 100) (r := []) rfl (by decide)
  induction os generalizing o with
  | nil =>
    have hend : Refuses binaryOperator (skipGap (')' :: t)) :=
      refuses_skipGap_of_foresee (n := 100) (w := [')']) rfl (by decide) t
    exact .many_cons ((hdiffers _).row (spans_unary_operand o (by decide) t))
      (.many_nil (refuses_row hend))
  | cons p os ih =>
    have hboth : ∀ k, Spans binaryOperator ("&&$event.keyCode!==".toList ++ k)
        ("$event.keyCode!==".toList ++ k) :=
      spans_of_foresee (n := 100) rfl (by decide)
    have htext : (p :: os).flatMap (fun p => "&&".toList ++ p.mismatch.toList) ++ ')' :: t =
        '&' :: ("&$event.keyCode!==".toList ++ (p.source.toList ++
          (os.flatMap (fun p => "&&".toList ++ p.mismatch.toList) ++ ')' :: t))) := by
      rw [List.flatMap_cons, toList_mismatch, List.append_assoc, List.append_assoc,
        List.append_assoc]
      rfl
    rw [htext]
    exact .many_cons ((hdiffers _).row (spans_unary_operand o (by decide) _))
      (.many_cons ((hboth _).row (spans_keyCode _)) (ih p))

theorem spans_mismatches {os : List Operand} (hne : os ≠ []) (t : List Char) :
    Spans (.rule .expression) (("&&".intercalate (os.map Operand.mismatch)).toList ++ ')' :: t)
      (')' :: t) := by
  obtain ⟨o, os, rfl⟩ := List.exists_cons_of_ne_nil hne
  have hjoined : ("&&".intercalate ((o :: os).map Operand.mismatch)).toList =
      o.mismatch.toList ++ os.flatMap (fun p => "&&".toList ++ p.mismatch.toList) := by
    rw [String.toList_intercalate, List.map_cons, List.map_cons, intercalate_cons]
    simp only [List.flatMap_map]
  have htext : o.mismatch.toList ++ os.flatMap (fun p => "&&".toList ++ p.mismatch.toList) ++
      ')' :: t = "$event.keyCode!==".toList ++ (o.source.toList ++
        (os.flatMap (fun p => "&&".toList ++ p.mismatch.toList) ++ ')' :: t)) := by
    rw [toList_mismatch, List.append_assoc, List.append_assoc]
  have hends := ends_cons (c := ')') (by decide) t
  rw [hjoined, htext]
  exact spans_expression (spans_assignment
    (refuses_skipGap_of_foresee (n := 100) rfl (by decide) _)
    (.rule ((spans_keyCode _).row (spans_many_comparison o os t))) hends.halts)
    (refuses_skipGap_of_foresee (n := 100) (w := [')']) rfl (by decide) t)

theorem Statement.isStatement_source {s : Statement} (h : s.isPrelude = true) :
    IsStatement s.source.toList := by
  cases s with
  | keyGuard os =>
    have hne : os ≠ [] := by simpa [isPrelude] using h
    have htext : (keyGuard os).source.toList = "if(".toList ++
        (("&&".intercalate (os.map Operand.mismatch)).toList ++ ")return;".toList) := by
      simp [source]
    rw [htext]
    exact isStatement_guard (spans_mismatches hne)
  | stopPropagation => exact isStatement_of_foresee (n := 200) rfl (by decide +kernel)
  | preventDefault => exact isStatement_of_foresee (n := 200) rfl (by decide +kernel)
  | selfGuard =>
    have hcondition : ∀ t, Spans (.rule .expression)
        ("$event.target !== $event.currentTarget".toList ++ ')' :: t) (')' :: t) := by
      intro t
      have htext : "$event.target !== $event.currentTarget".toList ++ ')' :: t =
          "$event.target !== $event.currentTarget)".toList ++ t := by simp
      have hspans : Spans (.rule .expression)
          ("$event.target !== $event.currentTarget)".toList ++ t) (')' :: t) :=
        spans_of_foresee (n := 200) (r := [')']) rfl (by decide +kernel) t
      exact hspans.congr_left (congrArg skipGap htext)
    have htext : "if(".toList ++ ("$event.target !== $event.currentTarget".toList ++
        ")return;".toList) = selfGuard.source.toList := by
      decide +kernel
    exact htext ▸ isStatement_guard hcondition
  | call path | script text => cases h

theorem Key.operands_ne_nil (k : Key) : k.operands ≠ [] := by
  cases k <;> simp [Key.operands]

theorem isPrelude_of_mem {m : Modifiers} {s : Statement} (h : s ∈ keyGuard m.keys ++ m.prologue) :
    s.isPrelude = true := by
  rcases List.mem_append.1 h with h | h
  · unfold keyGuard at h
    cases hkeys : m.keys with
    | nil => simp [hkeys] at h
    | cons t ts =>
      simp only [hkeys, List.isEmpty_cons, Bool.false_eq_true, if_false, List.mem_singleton] at h
      subst h
      have hne := Key.operands_ne_nil (Key.ofToken t)
      simp [Statement.isPrelude, hne]
  · have hall : ∀ entry ∈ structuralModifiers, entry.2.isPrelude = true := by decide
    obtain ⟨entry, hentry, rfl⟩ := List.mem_map.1 h
    exact hall entry (List.mem_of_mem_filter hentry)

/-! ## Function bodies -/

/-- A script language, as far as it decides what may stand between the braces of a function of the
event. -/
structure Dialect where
  /-- Whether a text is read as statements up to the brace right behind it, and leaves the names
  `$event` and `_k` to the statements in front of it. -/
  IsBody : String → Prop
  /-- What guards a callback is complete by itself, so it may stand in front of other statements. -/
  isBody_append : ∀ s : Statement, s.isPrelude = true → ∀ body, IsBody body →
    IsBody (s.source ++ body)

namespace Dialect

/-- The source is a function of the event with this body. -/
def IsFunction (d : Dialect) (source body : String) : Prop :=
  source = "function($event)\x7b" ++ body ++ "\x7d" ∧ d.IsBody body

theorem IsFunction.body_eq {d : Dialect} {source body b : String} (h : d.IsFunction source body)
    (hb : source = "function($event)\x7b" ++ b ++ "\x7d") : body = b := by
  have heq := congrArg String.toList (h.1.symm.trans hb)
  simp only [String.toList_append] at heq
  exact String.toList_inj.1 (List.append_cancel_left (List.append_cancel_right heq))

/-- The script grammar as a language. -/
def script : Dialect where
  IsBody body := IsBlock body.toList
  isBody_append s hs body hbody := by
    rw [String.toList_append]
    exact (Statement.isStatement_source hs).isBlock_append hbody

theorem isBody_sourceOf (d : Dialect) {guards : List Statement}
    (h : ∀ s ∈ guards, s.isPrelude = true) {last : Statement} (hlast : d.IsBody last.source) :
    d.IsBody (sourceOf (guards ++ [last])) := by
  induction guards with
  | nil => simpa [sourceOf] using hlast
  | cons s guards ih =>
    obtain ⟨hs, hguards⟩ := List.forall_mem_cons.1 h
    have htext : sourceOf (s :: guards ++ [last]) = s.source ++ sourceOf (guards ++ [last]) := by
      apply String.toList_inj.1
      simp [sourceOf]
    rw [htext]
    exact d.isBody_append s hs _ (ih hguards)

end Dialect

end EventMarkup
