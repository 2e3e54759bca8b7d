import EventMarkup.Proofs.Faults

/-!
# Going on behind a template

A template may end in the middle of an opening tag, a comment or a declaration, which the reader
forgives (`endsInside`). Wherever else it ends, in a text, in a closing tag or behind a lone `<`, a
text that starts with a tag is read behind it as it is read by itself (`read_append`): what was read
before enters only through its steps.

The steps before the last one are read as before since something was left behind them
(`readStep_append`). The last one may have been ended by the end of the template alone, and then it
is ended by the start of the tag in the same place (`RunEnd.readStep_append`).
-/

namespace EventMarkup

open Markup Text

namespace Markup

/-! ## Where a template ends -/

/-- Whether the text behind the name of an opening tag ends before the tag does. -/
def endsInTag (s : List Char) : Bool :=
  match _front : skipBlanks s with
  | [] => true
  | c :: rest =>
    if c = '/' then false
    else if c = '>' then false
    else if _name : isAttributeChar c then
      match _read : readAttribute (c :: rest) with
      | .ok (_, after) => endsInTag after
      | .error _ => false
    else endsInTag rest
termination_by s.length
decreasing_by
  · have h := (readAttribute_suffix _read).length_le
    have hd := (rest.dropWhile_suffix isAttributeChar).length_le
    have hs := (skipBlanks_suffix s).length_le
    simp only [List.dropWhile_cons_of_pos _name] at h
    rw [_front] at hs
    simp at hs
    omega
  · have hs := (skipBlanks_suffix s).length_le
    rw [_front] at hs
    simp at hs
    omega

/-- Whether a text starts with a comment, a declaration or an opening tag that does not end in
it. -/
def endsInFirst : List Char → Bool
  | '<' :: '!' :: '-' :: '-' :: s => (cutAt? ['-', '-', '>'] s).isNone
  | '<' :: '!' :: s => (cutAt? ['>'] s).isNone
  | '<' :: c :: s => c.isAlpha && endsInTag ((c :: s).dropWhile isTagChar)
  | _ => false

/-- Whether a template ends inside of a comment, a declaration or an opening tag. -/
def endsInside : List Char → Bool
  | [] => false
  | c :: s =>
    endsInFirst (c :: s) ||
      match _read : readStep (c :: s) with
      | .ok (_, rest) => endsInside rest
      | .error _ => false
termination_by s => s.length
decreasing_by exact length_lt_of_readStep _read

theorem endsInside_of_readStep {s rest : List Char} {step : Option Step} (hs : s ≠ [])
    (h : readStep s = .ok (step, rest)) :
    endsInside s = (endsInFirst s || endsInside rest) := by
  obtain ⟨c, s, rfl⟩ := List.exists_cons_of_ne_nil hs
  rw [endsInside]
  split
  · rename_i hread
    rw [h] at hread
    cases hread
    rfl
  · rename_i hread
    rw [h] at hread
    cases hread

theorem endsInFirst_declaration {s : List Char} (h : dropFront? ['-', '-'] s = none) :
    endsInFirst ('<' :: '!' :: s) = (cutAt? ['>'] s).isNone := by
  unfold endsInFirst
  split
  · rename_i heq
    cases heq
    simp [dropFront?] at h
  · rename_i heq
    cases heq
    rfl
  · rename_i hdeclaration heq
    cases heq
    exact (hdeclaration rfl).elim
  · rename_i hdeclaration _
    exact (hdeclaration s rfl).elim

theorem endsInFirst_openingTag {c : Char} (hc : c.isAlpha = true) (s : List Char) :
    endsInFirst ('<' :: c :: s) = endsInTag ((c :: s).dropWhile isTagChar) := by
  have hbang : c ≠ '!' := by
    rintro rfl
    exact absurd hc (by decide)
  simp [endsInFirst, hbang, hc]

end Markup

/-! ## The start of a tag behind a text -/

namespace RunEnd

variable {t : List Char} (ht : RunEnd t)

include ht

theorem head : ∀ c ∈ t.head?, c = '<' := by
  rcases ht with rfl | ht
  · simp
  · obtain ⟨c, r, rfl, -⟩ := exists_of_isTagStart ht
    simp

theorem skipBlanks_eq : skipBlanks t = t :=
  skipBlanks_of_head fun c hc => ht.head c hc ▸ rfl

theorem skipEnd_eq : skipEnd t = t := by
  rcases ht with rfl | ht
  · rfl
  · obtain ⟨c, r, rfl, -⟩ := exists_of_isTagStart ht
    rfl

theorem skipEnd_skipBlanks_append (s : List Char) :
    skipEnd (skipBlanks (s ++ t)) = skipEnd (skipBlanks s) ++ t := by
  by_cases hs : skipBlanks s = []
  · have hblank : ∀ c ∈ s, isTagBlank c = true := by simpa [skipBlanks] using hs
    rw [hs, skipBlanks, List.dropWhile_append_of_pos hblank]
    exact (congrArg skipEnd ht.skipBlanks_eq).trans ht.skipEnd_eq
  · rw [skipBlanks_append hs, skipEnd_append hs]

theorem readTagEnd_append {s : List Char} {e : TagEnd} (h : readTagEnd s = .ok e)
    (hends : endsInTag s = false) : readTagEnd (s ++ t) = .ok { e with rest := e.rest ++ t } := by
  have hfront : ∀ {s c rest}, skipBlanks s = c :: rest → skipBlanks (s ++ t) = c :: (rest ++ t) := by
    intro s c rest hs
    rw [skipBlanks_append (by simp [hs]), hs, List.cons_append]
  fun_induction endsInTag s generalizing e with
  | case1 s hs => cases hends
  | case2 s rest hs =>
    rw [readTagEnd_slash hs] at h
    cases h
    rw [readTagEnd_slash (hfront hs), ht.skipEnd_skipBlanks_append]
  | case3 s rest hs =>
    rw [readTagEnd_close hs] at h
    cases h
    rw [readTagEnd_close (hfront hs)]
  | case4 s c rest hs hslash hclose hname a after hread ih =>
    rw [readTagEnd_attribute hs hname, hread] at h
    obtain ⟨tag, htag, heq⟩ := map_eq_ok h
    cases heq
    have hafter : after ≠ [] := by
      rintro rfl
      rw [endsInTag] at hends
      cases hends
    rw [readTagEnd_attribute (hfront hs) hname, ← List.cons_append,
      readAttribute_append hread hafter]
    simp only [ih htag hends]
    rfl
  | case5 s c rest hs hslash hclose hname fault hread =>
    rw [readTagEnd_attribute hs hname, hread] at h
    cases h
  | case6 s c rest hs hslash hclose hname ih =>
    rw [readTagEnd_other hs hslash hclose hname] at h
    rw [readTagEnd_other (hfront hs) hslash hclose hname]
    exact ih h hends

theorem readOpeningTag_append {s rest : List Char} {step : Step}
    (h : readOpeningTag s = .ok (step, rest)) (hends : endsInTag (s.dropWhile isTagChar) = false) :
    readOpeningTag (s ++ t) = .ok (step, rest ++ t) := by
  have hname : s.dropWhile isTagChar ≠ [] := by
    intro hnil
    rw [hnil, endsInTag] at hends
    cases hends
  unfold readOpeningTag at h ⊢
  dsimp only at h ⊢
  split at h
  · rename_i e he
    cases h
    rw [takeWhile_append_of_ne_nil hname, dropWhile_append_of_ne_nil hname,
      ht.readTagEnd_append he hends]
  · cases h

theorem readClosingTag_append (s : List Char) :
    readClosingTag (s ++ t) = ((readClosingTag s).1, (readClosingTag s).2 ++ t) := by
  have hhead : ∀ c ∈ t.head?, isTagChar c = false := fun c hc => ht.head c hc ▸ rfl
  simp only [readClosingTag]
  by_cases hs : s.dropWhile isTagChar = []
  · have hname : ∀ c ∈ s, isTagChar c = true := by simpa using hs
    rw [takeWhile_front hname hhead, dropWhile_front hname hhead, hs,
      List.takeWhile_eq_self_iff.2 hname, ht.skipBlanks_eq, ht.skipEnd_eq]
    rfl
  · rw [takeWhile_append_of_ne_nil hs, dropWhile_append_of_ne_nil hs,
      ht.skipEnd_skipBlanks_append]

theorem isTagStart_append {s : List Char} (hs : s ≠ []) : isTagStart (s ++ t) = isTagStart s := by
  match s with
  | [c] =>
    rcases ht with rfl | ht
    · rfl
    · obtain ⟨d, r, rfl, -⟩ := exists_of_isTagStart ht
      by_cases hc : c = '<'
      · subst hc
        rfl
      · simp [isTagStart, hc]
  | c :: d :: s => exact Markup.isTagStart_append (by simp) t

theorem readRun_append {begun : Bool} {s run rest : List Char}
    (h : readRun begun s = .ok (run, rest)) (hs : begun = true ∨ s ≠ []) :
    readRun begun (s ++ t) = .ok (run, rest ++ t) := by
  fun_induction readRun begun s generalizing run with
  | case1 begun s hstop =>
    cases h
    rw [Bool.and_eq_true] at hstop
    have hlength := two_le_length_of_isTagStart hstop.2
    rw [readRun, Markup.isTagStart_append hlength, hstop.1, hstop.2, Bool.and_self, if_pos rfl]
  | case2 begun s hstop after hopen inside behind hclose run' rest' hread ih =>
    cases h
    rw [eq_append_of_dropFront? hopen, List.append_assoc, readRun_openMark, cutAt?_append hclose]
    simp only [ih hread (.inl rfl)]
    rfl
  | case3 => cases h
  | case4 => cases h
  | case5 begun =>
    cases h
    rw [List.nil_append, hs.resolve_right (· rfl)]
    exact ht.readRun_nil
  | case6 begun c s hopen run' rest' hread hstop ih =>
    cases h
    have hstop' : (begun && isTagStart (c :: (s ++ t))) = false := by
      rw [← List.cons_append, ht.isTagStart_append (by simp)]
      simpa using hstop
    rw [List.cons_append, readRun_char hstop' (ht.dropFront?_openMark hopen),
      ih hread (.inl rfl)]
    rfl
  | case7 => cases h

theorem readStep_append {s rest : List Char} {step : Option Step} (hs : s ≠ [])
    (h : readStep s = .ok (step, rest)) (hends : endsInFirst s = false) :
    readStep (s ++ t) = .ok (step, rest ++ t) := by
  cases partFront s with
  | comment r =>
    cases h
    obtain ⟨cut, hcut⟩ := Option.isSome_iff_exists.1 (Option.isNone_eq_false_iff.1 hends)
    simp only [List.cons_append, readStep_comment, skipPast, hcut, cutAt?_append hcut]
  | @declaration r hr =>
    rw [readStep_declaration hr] at h
    cases h
    rw [endsInFirst_declaration hr] at hends
    obtain ⟨⟨before, rest⟩, hcut⟩ := Option.isSome_iff_exists.1 (Option.isNone_eq_false_iff.1 hends)
    have hr' : dropFront? ['-', '-'] (r ++ t) = none := by
      cases before with
      | nil => simp [eq_append_of_cutAt? hcut, dropFront?]
      | cons d before =>
        refine dropFront?_append_eq_none ?_ hr
        simp [eq_append_of_cutAt? hcut]
        omega
    rw [List.cons_append, List.cons_append, readStep_declaration hr']
    simp only [skipPast, hcut, cutAt?_append hcut]
  | closing r =>
    cases h
    rw [List.cons_append, List.cons_append, readStep_closingTag, ht.readClosingTag_append]
    rfl
  | @opening c hc r =>
    rw [readStep_openingTag hc] at h
    obtain ⟨⟨step, rest⟩, hread, heq⟩ := map_eq_ok h
    cases heq
    rw [endsInFirst_openingTag hc] at hends
    rw [List.cons_append, List.cons_append, readStep_openingTag hc, ← List.cons_append,
      ht.readOpeningTag_append hread hends]
    rfl
  | run htag =>
    rw [readStep_text htag] at h
    obtain ⟨⟨run, rest⟩, hread, heq⟩ := map_eq_ok h
    cases heq
    rw [readStep_text ((ht.isTagStart_append hs).trans htag), ht.readRun_append hread (.inr hs)]
    rfl

end RunEnd

namespace Markup

/-- A text that starts with a tag is read behind a template as it is read by itself, unless the
template ends inside of a comment, a declaration or an opening tag. -/
theorem read_append {s t : List Char} {steps : List Step} (h : Step.read s = .ok steps)
    (hends : endsInside s = false) (ht : RunEnd t) :
    Step.read (s ++ t) = (Step.read t).map (steps ++ ·) := by
  fun_induction Step.read s generalizing steps with
  | case1 =>
    cases h
    rw [List.nil_append]
    cases Step.read t <;> rfl
  | case2 c s step rest hstep steps' hsteps ih =>
    cases h
    rw [endsInside_of_readStep (by simp) hstep, Bool.or_eq_false_iff] at hends
    rw [read_eq_map (by simp) (ht.readStep_append (by simp) hstep hends.1), ih hsteps hends.2]
    cases Step.read t <;> simp [Except.map]
  | case3 => cases h
  | case4 => cases h

end Markup

/-! ## Templates -/

def ReadError.shift (bytes : Nat) : ReadError → ReadError
  | .openInterpolation offset => .openInterpolation (offset + bytes)
  | .openAttribute name => .openAttribute name

theorem ReadError.shift_shift (m n : Nat) (e : ReadError) :
    (e.shift m).shift n = e.shift (m + n) := by
  cases e with
  | openInterpolation offset => exact congrArg _ (Nat.add_assoc _ _ _)
  | openAttribute name => rfl

theorem ReadError.ofFault_append (s : List Char) {t mark : List Char} {fault : Fault}
    (h : Unclosed t fault mark) :
    ReadError.ofFault (s ++ t) fault = (ReadError.ofFault t fault).shift (byteLength s) := by
  cases h with
  | interpolation before hafter =>
    refine congrArg ReadError.openInterpolation ?_
    simp only [byteLength_append]
    omega
  | value before hname hblanks hquote hafter => rfl

/-- What is read behind a template does not depend on it but for the steps that come first and the
bytes that a place is counted from. -/
theorem readForest_append {source more : String} {steps : List Step}
    (hread : Step.read source.toList = .ok steps) (hends : endsInside source.toList = false)
    (hmore : RunEnd more.toList) :
    readForest (source ++ more) =
      match Step.read more.toList with
      | .ok steps' => .ok (forestOf (steps ++ steps'))
      | .error fault =>
        .error ((ReadError.ofFault more.toList fault).shift (byteLength source.toList)) := by
  unfold readForest
  dsimp only
  rw [String.toList_append, read_append hread hends hmore]
  cases hread' : Step.read more.toList with
  | ok steps' => rfl
  | error fault =>
    obtain ⟨mark, hmark, -⟩ := exists_unclosed_of_read hread'
    exact congrArg Except.error (ReadError.ofFault_append _ hmark)

end EventMarkup
