import EventMarkup.Proofs.Continuation
import Mathlib.Data.List.Infix

/-!
# Faults

A text that is no template breaks off inside of an interpolation or inside of a quoted value
(`Unclosed`), and this is the only thing that is wrong with it: with the mark that is missing put
behind it, the text is a template (`unclosed_of_readForest`). Each reader fails at such a place
only, and with the mark behind it reads on to the end; what was read before stays as it was, since
something was left behind it.
-/

namespace EventMarkup

open Markup Text

namespace Markup

/-- The text breaks off behind an opening mark or a quote that no closing `mark` follows. -/
inductive Unclosed : (s : List Char) → Fault → (mark : List Char) → Prop where
  | interpolation (before : List Char) {after : List Char} (hafter : ¬ closeMark <:+: after) :
      Unclosed (before ++ openMark ++ after) (.interpolation (openMark ++ after)) closeMark
  | value (before : List Char) {name blanks blanks' after : List Char} {quote : Char}
      (hname : name ≠ []) (hblanks : ∀ c ∈ blanks ++ blanks', isTagBlank c = true)
      (hquote : quote = '"' ∨ quote = '\'') (hafter : quote ∉ after) :
      Unclosed (before ++ name ++ blanks ++ '=' :: blanks' ++ quote :: after) (.attribute name)
        [quote]

namespace Unclosed

variable {s mark : List Char} {fault : Fault}

theorem append_left (h : Unclosed s fault mark) (front : List Char) :
    Unclosed (front ++ s) fault mark := by
  cases h with
  | interpolation before hafter =>
    simpa only [List.append_assoc] using interpolation (front ++ before) hafter
  | value before hname hblanks hquote hafter =>
    simpa only [List.append_assoc] using value (front ++ before) hname hblanks hquote hafter

theorem of_suffix {t : List Char} (h : Unclosed s fault mark) (hsuffix : s <:+ t) :
    Unclosed t fault mark := by
  obtain ⟨front, rfl⟩ := hsuffix
  exact h.append_left front

theorem two_le_length (h : Unclosed s fault mark) : 2 ≤ s.length := by
  cases h with
  | interpolation before hafter =>
    simp [openMark]
    omega
  | value before hname hblanks hquote hafter =>
    simp
    omega

theorem ne_nil (h : Unclosed s fault mark) : s ≠ [] := by
  rintro rfl
  exact absurd h.two_le_length (by simp)

end Unclosed

/-! ## Text runs -/

/-- At most half of a closing mark can be left in front of the one that is put behind a text. -/
theorem exists_cutAt?_append_closeMark {after : List Char} (h : ¬ closeMark <:+: after) :
    ∃ inside rest, cutAt? closeMark (after ++ closeMark) = some (inside, rest) ∧
      readRun true rest = .ok (rest, []) := by
  cases hcut : cutAt? closeMark (after ++ closeMark) with
  | none => exact absurd ⟨after, [], by simp⟩ (cutAt?_eq_none_iff.1 hcut)
  | some cut =>
    obtain ⟨inside, rest⟩ := cut
    refine ⟨inside, rest, rfl, ?_⟩
    have happend : after ++ closeMark = inside ++ closeMark ++ rest := eq_append_of_cutAt? hcut
    match rest with
    | [] => exact RunEnd.readRun_nil (.inl rfl)
    | [c] =>
      have hlast := congrArg List.getLast? happend
      simp only [closeMark, List.getLast?_append, List.getLast?_cons_cons, List.getLast?_singleton,
        Option.some_or, Option.some.injEq] at hlast
      rw [← hlast, readRun_char rfl rfl, RunEnd.readRun_nil (.inl rfl)]
      rfl
    | c :: d :: rest =>
      have hlength := congrArg List.length happend
      have hprefix : inside ++ closeMark <+: after :=
        List.prefix_of_prefix_length_le ⟨_, happend.symm⟩ (List.prefix_append _ _)
          (by
              simp only [List.length_append, closeMark, List.length_cons, List.length_nil] at hlength ⊢
              omega)
      exact absurd ((List.suffix_append _ _).isInfix.trans hprefix.isInfix) h

theorem exists_unclosed_of_readRun {begun : Bool} {s : List Char} {fault : Fault}
    (h : readRun begun s = .error fault) :
    ∃ mark, Unclosed s fault mark ∧ ∃ run, readRun begun (s ++ mark) = .ok (run, []) := by
  fun_induction readRun begun s with
  | case1 => cases h
  | case2 => cases h
  | case3 begun s hstop after hopen inside behind hclose fault' hread ih =>
    cases h
    obtain ⟨mark, hmark, run, hrun⟩ := ih hread
    have hs : s = openMark ++ inside ++ closeMark ++ behind := by
      rw [eq_append_of_dropFront? hopen, eq_append_of_cutAt? hclose]
      simp
    refine ⟨mark, hs ▸ hmark.append_left _, openMark ++ inside ++ closeMark ++ run, ?_⟩
    rw [eq_append_of_dropFront? hopen, List.append_assoc, readRun_openMark,
      cutAt?_append hclose]
    simp only [hrun]
    rfl
  | case4 begun s hstop after hopen hclose =>
    cases h
    have hnone := cutAt?_eq_none_iff.1 hclose
    obtain ⟨inside, rest, hcut, hrest⟩ := exists_cutAt?_append_closeMark hnone
    rw [eq_append_of_dropFront? hopen]
    refine ⟨closeMark, .interpolation [] hnone, openMark ++ inside ++ closeMark ++ rest, ?_⟩
    rw [List.append_assoc, readRun_openMark, hcut]
    simp only [hrest]
    rfl
  | case5 => cases h
  | case6 => cases h
  | case7 begun c s hopen fault' hread hstop ih =>
    cases h
    obtain ⟨mark, hmark, run, hrun⟩ := ih hread
    have hmark' : Unclosed (c :: s) _ mark := hmark.append_left [c]
    have hlength : openMark.length ≤ (c :: s).length := hmark'.two_le_length
    have hstop' : (begun && isTagStart (c :: (s ++ mark))) = false := by
      rw [← List.cons_append, isTagStart_append hlength]
      simpa using hstop
    refine ⟨mark, hmark', c :: run, ?_⟩
    rw [List.cons_append, readRun_char hstop' (dropFront?_append_eq_none hlength hopen), hrun]
    rfl

/-! ## Tags -/

theorem exists_unclosed_of_readValue {name s : List Char} {fault : Fault}
    (h : readValue name s = .error fault) :
    fault = .attribute name ∧ ∃ quote after, s = quote :: after ∧
      (quote = '"' ∨ quote = '\'') ∧ quote ∉ after ∧
        readValue name (s ++ [quote]) = .ok (after, []) := by
  cases s with
  | nil => cases h
  | cons quote after =>
    rw [readValue] at h
    split at h
    · rename_i hquote
      split at h
      · cases h
      · rename_i hcut
        cases h
        have hafter : quote ∉ after := by
          rwa [cutAt?_eq_none_iff, List.singleton_infix_iff] at hcut
        refine ⟨rfl, quote, after, rfl, hquote, hafter, ?_⟩
        rw [List.cons_append, readValue, if_pos hquote, cutAt?_singleton [] hafter]
    · cases h

theorem exists_unclosed_of_readAttribute {s : List Char} {fault : Fault}
    (hname : s.takeWhile isAttributeChar ≠ []) (h : readAttribute s = .error fault) :
    ∃ mark, Unclosed s fault mark ∧ ∃ a, readAttribute (s ++ mark) = .ok (a, []) := by
  by_cases hhead : (skipBlanks (s.dropWhile isAttributeChar)).head? = some '='
  · obtain ⟨rest, hfront⟩ := List.head?_eq_some_iff.1 hhead
    rw [readAttribute_value hfront] at h
    obtain ⟨rfl, quote, after, hquoted, hquote, hafter, hread⟩ :=
      exists_unclosed_of_readValue (map_eq_error h)
    have hskip : skipBlanks rest ≠ [] := by simp [hquoted]
    have hdrop : s.dropWhile isAttributeChar ≠ [] := by
      intro hnil
      rw [hnil] at hfront
      cases hfront
    have hfront' : skipBlanks ((s ++ [quote]).dropWhile isAttributeChar) =
        '=' :: (rest ++ [quote]) := by
      rw [dropWhile_append_of_ne_nil hdrop, skipBlanks_append (by simp [hfront]), hfront,
        List.cons_append]
    have hs : s = [] ++ s.takeWhile isAttributeChar ++
        (s.dropWhile isAttributeChar).takeWhile isTagBlank ++
          '=' :: rest.takeWhile isTagBlank ++ quote :: after := by
      have hblanks : ∀ t : List Char, t.takeWhile isTagBlank ++ skipBlanks t = t :=
        fun t => List.takeWhile_append_dropWhile
      simp only [List.nil_append, List.append_assoc, List.cons_append, ← hquoted, hblanks,
        ← hfront, List.takeWhile_append_dropWhile]
    have hblank : ∀ c ∈ (s.dropWhile isAttributeChar).takeWhile isTagBlank ++
        rest.takeWhile isTagBlank, isTagBlank c = true := by
      intro c hc
      rcases List.mem_append.1 hc with hc | hc <;> exact List.mem_takeWhile_imp hc
    have hunclosed := Unclosed.value [] hname hblank hquote hafter
    rw [← hs] at hunclosed
    refine ⟨[quote], hunclosed,
      ⟨String.ofList (s.takeWhile isAttributeChar), some (String.ofList after)⟩, ?_⟩
    rw [readAttribute_value hfront', takeWhile_append_of_ne_nil hdrop, skipBlanks_append hskip,
      hread]
    rfl
  · rw [readAttribute_bare hhead] at h
    cases h

theorem exists_unclosed_of_readTagEnd {s : List Char} {fault : Fault}
    (h : readTagEnd s = .error fault) :
    ∃ mark, Unclosed s fault mark ∧ ∃ e, readTagEnd (s ++ mark) = .ok e ∧ e.rest = [] := by
  have hfront : ∀ {s c rest} (t : List Char), skipBlanks s = c :: rest →
      skipBlanks (s ++ t) = c :: (rest ++ t) := by
    intro s c rest t hs
    rw [skipBlanks_append (by simp [hs]), hs, List.cons_append]
  fun_induction readTagEnd s with
  | case1 => cases h
  | case2 => cases h
  | case3 => cases h
  | case4 => cases h
  | case5 s c rest hs hslash hclose hname a after hread fault' hfault ih =>
    cases h
    obtain ⟨mark, hmark, e, he, hrest⟩ := ih hfault
    have hsuffix : after <:+ s :=
      ((readAttribute_suffix hread).trans (List.dropWhile_suffix _)).trans
        (hs ▸ skipBlanks_suffix s)
    refine ⟨mark, hmark.of_suffix hsuffix, { e with attributes := a :: e.attributes }, ?_, hrest⟩
    rw [readTagEnd_attribute (hfront mark hs) hname, ← List.cons_append,
      readAttribute_append hread hmark.ne_nil]
    simp only [he]
    rfl
  | case6 s c rest hs hslash hclose hname fault' hread =>
    cases h
    obtain ⟨mark, hmark, a, hread'⟩ :=
      exists_unclosed_of_readAttribute (by simp [hname]) hread
    refine ⟨mark, hmark.of_suffix (hs ▸ skipBlanks_suffix s), ⟨[a], false, []⟩, ?_, rfl⟩
    rw [readTagEnd_attribute (hfront mark hs) hname, ← List.cons_append, hread']
    simp only [readTagEnd_nil (s := []) rfl]
    rfl
  | case7 s c rest hs hslash hclose hname ih =>
    obtain ⟨mark, hmark, e, he, hrest⟩ := ih h
    have hsuffix : rest <:+ s := (List.suffix_cons c rest).trans (hs ▸ skipBlanks_suffix s)
    exact ⟨mark, hmark.of_suffix hsuffix, e,
      (readTagEnd_other (hfront mark hs) hslash hclose hname).trans he, hrest⟩

theorem exists_unclosed_of_readOpeningTag {s : List Char} {fault : Fault}
    (h : readOpeningTag s = .error fault) :
    ∃ mark, Unclosed s fault mark ∧ ∃ step, readOpeningTag (s ++ mark) = .ok (step, []) := by
  unfold readOpeningTag at h
  dsimp only at h
  split at h
  · cases h
  · rename_i hread
    cases h
    obtain ⟨mark, hmark, e, he, hrest⟩ := exists_unclosed_of_readTagEnd hread
    refine ⟨mark, hmark.of_suffix (List.dropWhile_suffix _),
      stepOfElement (.ofAttributes (String.ofList (s.takeWhile isTagChar)) e.attributes
        e.selfClosing), ?_⟩
    unfold readOpeningTag
    rw [takeWhile_append_of_ne_nil hmark.ne_nil, dropWhile_append_of_ne_nil hmark.ne_nil, he]
    simp only [hrest]

/-! ## Templates -/

theorem exists_unclosed_of_readStep {s : List Char} {fault : Fault}
    (h : readStep s = .error fault) :
    ∃ mark, Unclosed s fault mark ∧ ∃ step, readStep (s ++ mark) = .ok (step, []) := by
  cases partFront s with
  | comment r => cases h
  | @declaration r hr =>
    rw [readStep_declaration hr] at h
    cases h
  | closing r => cases h
  | @opening c hc r =>
    rw [readStep_openingTag hc] at h
    obtain ⟨mark, hmark, step, hstep⟩ := exists_unclosed_of_readOpeningTag (map_eq_error h)
    refine ⟨mark, hmark.append_left ['<'], some step, ?_⟩
    rw [List.cons_append, List.cons_append, readStep_openingTag hc, ← List.cons_append, hstep]
    rfl
  | run htag =>
    rw [readStep_text htag] at h
    obtain ⟨mark, hmark, run, hrun⟩ := exists_unclosed_of_readRun (map_eq_error h)
    refine ⟨mark, hmark, some (stepOfRun run), ?_⟩
    rw [readStep_text ((isTagStart_append hmark.two_le_length mark).trans htag), hrun]
    rfl

theorem read_eq_map {s rest : List Char} {step : Option Step} (hs : s ≠ [])
    (h : readStep s = .ok (step, rest)) :
    Step.read s = (Step.read rest).map (step.toList ++ ·) := by
  obtain ⟨c, s, rfl⟩ := List.exists_cons_of_ne_nil hs
  rw [Step.read]
  split
  · rename_i hread
    rw [h] at hread
    cases hread
    cases Step.read rest <;> rfl
  · rename_i hread
    rw [h] at hread
    cases hread

theorem exists_unclosed_of_read {s : List Char} {fault : Fault}
    (h : Step.read s = .error fault) :
    ∃ mark, Unclosed s fault mark ∧ ∃ steps, Step.read (s ++ mark) = .ok steps := by
  fun_induction Step.read s with
  | case1 => cases h
  | case2 => cases h
  | case3 c s step rest hstep fault' hread ih =>
    cases h
    obtain ⟨mark, hmark, steps, hsteps⟩ := ih hread
    refine ⟨mark, hmark.of_suffix (readStep_suffix hstep), step.toList ++ steps, ?_⟩
    rw [read_eq_map (by simp) (readStep_append hstep hmark.ne_nil mark), hsteps]
    rfl
  | case4 c s fault' hstep =>
    cases h
    obtain ⟨mark, hmark, step, hstep'⟩ := exists_unclosed_of_readStep hstep
    refine ⟨mark, hmark, step.toList ++ [], ?_⟩
    rw [read_eq_map (by simp) hstep', Step.read]
    rfl

end Markup

theorem byteLength_append (s t : List Char) :
    byteLength (s ++ t) = byteLength s + byteLength t := by
  induction s with
  | nil => exact (Nat.zero_add _).symm
  | cons c s ih => rw [List.cons_append, byteLength, byteLength, ih, Nat.add_assoc]

theorem byteLength_eq_utf8ByteSize (s : List Char) :
    byteLength s = (String.ofList s).utf8ByteSize := by
  induction s with
  | nil => rfl
  | cons c s ih =>
    rw [String.ofList_cons, String.utf8ByteSize_append, String.utf8ByteSize_singleton, ← ih,
      byteLength]

/-- Where a template leaves an interpolation open, it does so at the place that is told and behind
it nothing is closed; where it leaves the value of an attribute open, the name that is told stands
in front of the quote. The mark that is missing is all that is missing. -/
theorem unclosed_of_readForest (source : String) :
    (∀ offset, readForest source = .error (.openInterpolation offset) →
      ∃ before after, source.toList = before ++ openMark ++ after ∧
        (String.ofList before).utf8ByteSize = offset ∧ ¬ closeMark <:+: after ∧
        ∃ forest, readForest (source ++ String.ofList closeMark) = .ok forest) ∧
    (∀ name, readForest source = .error (.openAttribute name) →
      ∃ before blanks blanks' quote after,
        source.toList =
          before ++ name.toList ++ blanks ++ '=' :: blanks' ++ quote :: after ∧
        name.toList ≠ [] ∧ (∀ c ∈ blanks ++ blanks', isTagBlank c = true) ∧
        (quote = '"' ∨ quote = '\'') ∧ quote ∉ after ∧
        ∃ forest, readForest (source.push quote) = .ok forest) := by
  have hfault : ∀ {error}, readForest source = .error error →
      ∃ fault mark, error = .ofFault source.toList fault ∧ Unclosed source.toList fault mark ∧
        ∃ forest, readForest (source ++ String.ofList mark) = .ok forest := by
    intro error h
    unfold readForest at h
    dsimp only at h
    split at h
    · cases h
    · rename_i fault hread
      cases h
      obtain ⟨mark, hmark, steps, hsteps⟩ := exists_unclosed_of_read hread
      refine ⟨fault, mark, rfl, hmark, forestOf steps, ?_⟩
      simp [readForest, hsteps]
  constructor
  · intro offset h
    obtain ⟨fault, mark, herror, hmark, hforest⟩ := hfault h
    generalize hs : source.toList = s at hmark herror
    cases hmark with
    | interpolation before hafter =>
      cases herror
      refine ⟨before, _, rfl, ?_, hafter, hforest⟩
      rw [← byteLength_eq_utf8ByteSize, List.append_assoc, byteLength_append, Nat.add_sub_cancel]
    | value before hname hblanks hquote hafter => cases herror
  · intro name h
    obtain ⟨fault, mark, herror, hmark, hforest⟩ := hfault h
    generalize hs : source.toList = s at hmark herror
    cases hmark with
    | interpolation before hafter => cases herror
    | value before hname hblanks hquote hafter =>
      cases herror
      refine ⟨before, _, _, _, _, ?_, ?_, hblanks, hquote, hafter, hforest⟩
      · rw [String.toList_ofList]
      · rwa [String.toList_ofList]

theorem unclosed_of_readForest_halfway :
    (readForest "<p>\u00e9\x7b\x7b name \x7d</p>" = .error (.openInterpolation 5) ∧
      ∃ forest, readForest "<p>\u00e9\x7b\x7b name \x7d</p>\x7d\x7d" = .ok forest) ∧
    (readForest "<a><b v-if = 'x\"></b>" = .error (.openAttribute "v-if") ∧
      ∃ quote forest, readForest ("<a><b v-if = 'x\"></b>".push quote) = .ok forest) := by
  have hinterpolation : readForest "<p>\u00e9\x7b\x7b name \x7d</p>" =
      .error (.openInterpolation 5) :=
    map_eq_error (f := fun _ => ()) (by decide +kernel)
  have hattribute : readForest "<a><b v-if = 'x\"></b>" = .error (.openAttribute "v-if") :=
    map_eq_error (f := fun _ => ()) (by decide +kernel)
  obtain ⟨before, after, -, -, -, hforest⟩ :=
    (unclosed_of_readForest "<p>\u00e9\x7b\x7b name \x7d</p>").1 5 hinterpolation
  obtain ⟨_, _, _, quote, _, -, -, -, -, -, hforest'⟩ :=
    (unclosed_of_readForest "<a><b v-if = 'x\"></b>").2 "v-if" hattribute
  exact ⟨⟨hinterpolation, hforest⟩, hattribute, quote, hforest'⟩

end EventMarkup
