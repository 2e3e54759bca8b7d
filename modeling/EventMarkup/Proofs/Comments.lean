import EventMarkup.Proofs.Resumption

/-!
# Comments

A comment between two parts of a template is as good as nothing, whatever it holds
(`readForest_comment`). It ends at the first `-->`, so nothing in it is read; behind it the reader
stands where it would stand without it, and it has read the same steps. An error behind the comment
is the same error, and where it tells a place, the place is as many bytes farther on as the comment
is long.
-/

namespace EventMarkup

open Markup Text

namespace Markup

theorem skipPast_comment {s : List Char} (h : ¬ ['-', '-', '>'] <:+: s) (rest : List Char) :
    skipPast ['-', '-', '>'] (s ++ '-' :: '-' :: '>' :: rest) = rest := by
  have hcut : cutAt? ['-', '-', '>'] (s ++ '-' :: '-' :: '>' :: rest) = some (s, rest) := by
    induction s with
    | nil => rfl
    | cons c s ih =>
      have hs : ¬ ['-', '-', '>'] <:+: s := fun hs => h (List.infix_cons hs)
      have hfront : dropFront? ['-', '-', '>'] (c :: (s ++ '-' :: '-' :: '>' :: rest)) = none := by
        match s with
        | [] => simp [dropFront?]
        | [d] => simp [dropFront?]
        | d :: d' :: s =>
          have hnone : dropFront? ['-', '-', '>'] (c :: d :: d' :: s) = none := by
            cases hdrop : dropFront? ['-', '-', '>'] (c :: d :: d' :: s) with
            | none => rfl
            | some r => exact absurd ⟨[], r, (eq_append_of_dropFront? hdrop).symm⟩ h
          exact dropFront?_append_eq_none (by simp) hnone
      rw [List.cons_append, cutAt?, hfront]
      simp [ih hs]
  simp only [skipPast, hcut]

theorem read_comment {s : List Char} (h : ¬ ['-', '-', '>'] <:+: s) (rest : List Char) :
    Step.read ('<' :: '!' :: '-' :: '-' :: (s ++ '-' :: '-' :: '>' :: rest)) = Step.read rest := by
  rw [read_eq_map (by simp) (readStep_comment _), skipPast_comment h]
  cases Step.read rest <;> rfl

end Markup

/-! ## Templates -/

/-- A template with a comment between two of its parts is read as it is without the comment. -/
theorem readForest_comment {front inside back : String}
    (hfront : ∃ forest, readForest front = .ok forest) (hends : endsInside front.toList = false)
    (hback : RunEnd back.toList) (hinside : ¬ "-->".toList <:+: inside.toList) :
    readForest (front ++ ("<!--" ++ inside ++ "-->" ++ back)) =
      (readForest (front ++ back)).mapError
        (.shift ("<!--" ++ inside ++ "-->").utf8ByteSize) := by
  obtain ⟨forest, hforest⟩ := hfront
  obtain ⟨steps, hsteps, -⟩ := readForest_eq_ok_iff.1 hforest
  have hlist : ("<!--" ++ inside ++ "-->" ++ back).toList =
      '<' :: '!' :: '-' :: '-' :: (inside.toList ++ '-' :: '-' :: '>' :: back.toList) := by
    simp
  have hcomment : Step.read ("<!--" ++ inside ++ "-->" ++ back).toList =
      Step.read back.toList := by
    rw [hlist, read_comment hinside]
  have hstart : RunEnd ("<!--" ++ inside ++ "-->" ++ back).toList := .inr (hlist ▸ rfl)
  rw [readForest_append hsteps hends hstart, readForest_append hsteps hends hback, hcomment]
  cases hread : Step.read back.toList with
  | ok steps' => rfl
  | error fault =>
    obtain ⟨mark, hmark, -⟩ := exists_unclosed_of_read hread
    refine congrArg Except.error ?_
    rw [String.toList_append, ReadError.ofFault_append _ hmark,
      byteLength_eq_utf8ByteSize ("<!--" ++ inside ++ "-->").toList, String.ofList_toList,
      ReadError.shift_shift, ReadError.shift_shift, Nat.add_comm]

theorem readForest_comment_lookalikes :
    ((∃ forest, readForest "<p title='-->'>1 <" = .ok forest) ∧
        endsInside "<p title='-->'>1 <".toList = false ∧ RunEnd "</p>".toList ∧
        RunEnd "<b>\x7b\x7b x".toList ∧ ¬ "-->".toList <:+: "</p> \"\x7b\x7b\u00e9 - ".toList) ∧
      (∃ forest, readForest "<p title='-->'>1 <</p>" = .ok forest ∧
        readForest "<p title='-->'>1 <<!--</p> \"\x7b\x7b\u00e9 - --></p>" = .ok forest) ∧
      readForest "<p title='-->'>1 <<b>\x7b\x7b x" = .error (.openInterpolation 21) ∧
      readForest "<p title='-->'>1 <<!--</p> \"\x7b\x7b\u00e9 - --><b>\x7b\x7b x" =
        .error (.openInterpolation 41) := by
  have hfront : ∃ forest, readForest "<p title='-->'>1 <" = .ok forest :=
    exists_ok_of_isOk (by decide +kernel)
  have hends : endsInside "<p title='-->'>1 <".toList = false := by decide +kernel
  have hclosing : RunEnd "</p>".toList := .inr rfl
  have hopening : RunEnd "<b>\x7b\x7b x".toList := .inr rfl
  have hinside : ¬ "-->".toList <:+: "</p> \"\x7b\x7b\u00e9 - ".toList :=
    cutAt?_eq_none_iff.1 (by decide)
  have herror : readForest "<p title='-->'>1 <<b>\x7b\x7b x" = .error (.openInterpolation 21) :=
    map_eq_error (f := fun _ => ()) (by decide +kernel)
  obtain ⟨forest, hforest⟩ : ∃ forest, readForest "<p title='-->'>1 <</p>" = .ok forest :=
    exists_ok_of_isOk (by decide +kernel)
  have hread := readForest_comment hfront hends hclosing hinside
  have hread' := readForest_comment hfront hends hopening hinside
  rw [show "<p title='-->'>1 <" ++ "</p>" = "<p title='-->'>1 <</p>" from rfl, hforest] at hread
  rw [show "<p title='-->'>1 <" ++ "<b>\x7b\x7b x" = "<p title='-->'>1 <<b>\x7b\x7b x" from rfl,
    herror] at hread'
  exact ⟨⟨hfront, hends, hclosing, hopening, hinside⟩, ⟨forest, hforest, hread⟩, herror, hread'⟩

end EventMarkup
