import EventMarkup.Proofs.TextRun

/-!
# Text behind a step

A step that is read before the end of a text is read in the same way if more text follows
(`readStep_append`). A reader looks beyond the part that it takes only to see where the part ends,
and it has seen that when something is left. Where nothing is left this fails: the text `<` becomes
a tag when a letter is put behind it.
-/

namespace EventMarkup.Markup

open Text

theorem map_eq_ok {ε α β : Type} {f : α → β} {x : Except ε α} {b : β} (h : x.map f = .ok b) :
    ∃ a, x = .ok a ∧ f a = b := by
  cases x with
  | error e => cases h
  | ok a => exact ⟨a, rfl, Except.ok.inj h⟩

theorem map_eq_error {ε α β : Type} {f : α → β} {x : Except ε α} {e : ε}
    (h : x.map f = .error e) : x = .error e := by
  cases x with
  | error e' =>
    cases h
    rfl
  | ok a => cases h

theorem exists_ok_of_isOk {ε α : Type} {x : Except ε α} (h : x.isOk = true) :
    ∃ a, x = .ok a := by
  cases x with
  | error e => cases h
  | ok a => exact ⟨a, rfl⟩

theorem exists_ok_of_toOption_map {ε α β : Type} {f : α → β} {x : Except ε α} {b : β}
    (h : x.toOption.map f = some b) : ∃ a, x = .ok a ∧ f a = b := by
  cases x with
  | error e => cases h
  | ok a => exact ⟨a, rfl, Option.some.inj h⟩

/-! ## Tags -/

section While

variable {α : Type} {p : α → Bool} {s : List α}

theorem dropWhile_append_of_ne_nil (h : s.dropWhile p ≠ []) (t : List α) :
    (s ++ t).dropWhile p = s.dropWhile p ++ t := by
  rw [List.dropWhile_append, if_neg (by simpa using h)]

theorem takeWhile_append_of_ne_nil (h : s.dropWhile p ≠ []) (t : List α) :
    (s ++ t).takeWhile p = s.takeWhile p := by
  rw [List.takeWhile_append, if_neg]
  intro hlength
  have hsum := congrArg List.length (List.takeWhile_append_dropWhile (p := p) (l := s))
  rw [List.length_append] at hsum
  exact h (List.eq_nil_of_length_eq_zero (by omega))

end While

theorem skipBlanks_append {s : List Char} (h : skipBlanks s ≠ []) (t : List Char) :
    skipBlanks (s ++ t) = skipBlanks s ++ t := dropWhile_append_of_ne_nil h t

theorem skipEnd_append {s : List Char} (h : s ≠ []) (t : List Char) :
    skipEnd (s ++ t) = skipEnd s ++ t := by
  obtain ⟨c, s, rfl⟩ := List.exists_cons_of_ne_nil h
  by_cases hc : c = '>'
  · subst hc
    rfl
  · simp [skipEnd, hc]

theorem skipEnd_skipBlanks_append {s : List Char} (h : skipEnd (skipBlanks s) ≠ [])
    (t : List Char) : skipEnd (skipBlanks (s ++ t)) = skipEnd (skipBlanks s) ++ t := by
  have hne : skipBlanks s ≠ [] := by
    intro hnil
    rw [hnil] at h
    exact h rfl
  rw [skipBlanks_append hne, skipEnd_append hne]

theorem skipPast_append {mark s : List Char} (h : skipPast mark s ≠ []) (t : List Char) :
    skipPast mark (s ++ t) = skipPast mark s ++ t := by
  cases hcut : cutAt? mark s with
  | none => simp [skipPast, hcut] at h
  | some cut =>
    obtain ⟨before, rest⟩ := cut
    simp [skipPast, hcut, cutAt?_append hcut]

theorem readValue_append {name s value rest : List Char}
    (h : readValue name s = .ok (value, rest)) (hrest : rest ≠ []) (t : List Char) :
    readValue name (s ++ t) = .ok (value, rest ++ t) := by
  cases s with
  | nil =>
    cases h
    exact absurd rfl hrest
  | cons c s =>
    simp only [readValue, List.cons_append] at h ⊢
    split at h
    · rename_i hc
      rw [if_pos hc]
      split at h
      · rename_i hcut
        cases h
        rw [cutAt?_append hcut]
      · cases h
    · rename_i hc
      cases h
      rw [if_neg hc, ← List.cons_append, takeWhile_append_of_ne_nil hrest,
        dropWhile_append_of_ne_nil hrest]

theorem readAttribute_value {s rest : List Char}
    (h : skipBlanks (s.dropWhile isAttributeChar) = '=' :: rest) :
    readAttribute s =
      (readValue (s.takeWhile isAttributeChar) (skipBlanks rest)).map fun (value, rest) =>
        (⟨String.ofList (s.takeWhile isAttributeChar), some (String.ofList value)⟩, rest) := by
  simp only [readAttribute, h]
  cases readValue (s.takeWhile isAttributeChar) (skipBlanks rest) <;> rfl

theorem readAttribute_bare {s : List Char}
    (h : (skipBlanks (s.dropWhile isAttributeChar)).head? ≠ some '=') :
    readAttribute s = .ok (⟨String.ofList (s.takeWhile isAttributeChar), none⟩,
      skipBlanks (s.dropWhile isAttributeChar)) := by
  unfold readAttribute
  dsimp only
  split
  · rename_i heq
    rw [heq] at h
    exact absurd rfl h
  · rfl

theorem readAttribute_append {s rest : List Char} {a : Attribute}
    (h : readAttribute s = .ok (a, rest)) (hrest : rest ≠ []) (t : List Char) :
    readAttribute (s ++ t) = .ok (a, rest ++ t) := by
  -- Something stands behind the blanks that follow the name: an equals sign, or else what is left.
  have hblanks : skipBlanks (s.dropWhile isAttributeChar) ≠ [] := by
    intro hnil
    rw [readAttribute_bare (by simp [hnil]), hnil] at h
    cases h
    exact hrest rfl
  have hname : s.dropWhile isAttributeChar ≠ [] := by
    intro hnil
    rw [hnil] at hblanks
    exact hblanks rfl
  have hfront : skipBlanks ((s ++ t).dropWhile isAttributeChar) =
      skipBlanks (s.dropWhile isAttributeChar) ++ t := by
    rw [dropWhile_append_of_ne_nil hname, skipBlanks_append hblanks]
  obtain ⟨c, r, hr⟩ := List.exists_cons_of_ne_nil hblanks
  by_cases hc : c = '='
  · subst hc
    rw [readAttribute_value hr] at h
    obtain ⟨⟨value, rest⟩, hvalue, heq⟩ := map_eq_ok h
    cases heq
    have hskip : skipBlanks r ≠ [] := by
      intro hnil
      rw [hnil] at hvalue
      cases hvalue
      exact hrest rfl
    rw [hr, List.cons_append] at hfront
    rw [readAttribute_value hfront, takeWhile_append_of_ne_nil hname, skipBlanks_append hskip,
      readValue_append hvalue hrest]
    rfl
  · rw [readAttribute_bare (by simpa [hr] using hc)] at h
    cases h
    rw [readAttribute_bare (by rw [hfront, hr]; simpa using hc), hfront,
      takeWhile_append_of_ne_nil hname]

/-! What a tag goes on with is seen at the first character behind the blanks. -/

section Front

variable {s rest : List Char} {c : Char}

theorem readTagEnd_nil (h : skipBlanks s = []) : readTagEnd s = .ok ⟨[], false, []⟩ := by
  rw [readTagEnd]
  split
  · rfl
  · simp_all

theorem readTagEnd_slash (h : skipBlanks s = '/' :: rest) :
    readTagEnd s = .ok ⟨[], true, skipEnd (skipBlanks rest)⟩ := by
  rw [readTagEnd]
  split
  · simp_all
  · rename_i heq
    rw [h] at heq
    cases heq
    rw [if_pos rfl]

theorem readTagEnd_close (h : skipBlanks s = '>' :: rest) : readTagEnd s = .ok ⟨[], false, rest⟩ := by
  rw [readTagEnd]
  split
  · simp_all
  · rename_i heq
    rw [h] at heq
    cases heq
    rw [if_neg (by decide : ¬ '>' = '/'), if_pos rfl]

theorem readTagEnd_attribute (h : skipBlanks s = c :: rest) (hc : isAttributeChar c = true) :
    readTagEnd s =
      match readAttribute (c :: rest) with
      | .ok (a, after) =>
        (readTagEnd after).map fun tag => { tag with attributes := a :: tag.attributes }
      | .error fault => .error fault := by
  have hslash : c ≠ '/' := by
    rintro rfl
    exact absurd hc (by decide)
  have hclose : c ≠ '>' := by
    rintro rfl
    exact absurd hc (by decide)
  rw [readTagEnd]
  split
  · simp_all
  · rename_i heq
    rw [h] at heq
    cases heq
    rw [if_neg hslash, if_neg hclose, dif_pos hc]
    cases readAttribute (c :: rest) with
    | error fault => rfl
    | ok read =>
      dsimp only
      cases readTagEnd read.2 <;> rfl

theorem readTagEnd_other (h : skipBlanks s = c :: rest) (hslash : c ≠ '/') (hclose : c ≠ '>')
    (hc : ¬ isAttributeChar c = true) : readTagEnd s = readTagEnd rest := by
  rw [readTagEnd]
  split
  · simp_all
  · rename_i heq
    rw [h] at heq
    cases heq
    rw [if_neg hslash, if_neg hclose, dif_neg hc]

end Front

theorem readTagEnd_append {s : List Char} {e : TagEnd} (h : readTagEnd s = .ok e)
    (hrest : e.rest ≠ []) (t : List Char) :
    readTagEnd (s ++ t) = .ok { e with rest := e.rest ++ t } := by
  have hfront : ∀ {s c rest}, skipBlanks s = c :: rest → skipBlanks (s ++ t) = c :: (rest ++ t) := by
    intro s c rest hs
    rw [skipBlanks_append (by simp [hs]), hs, List.cons_append]
  fun_induction readTagEnd s generalizing e with
  | case1 =>
    cases h
    exact absurd rfl hrest
  | case2 s rest hs =>
    cases h
    rw [readTagEnd_slash (hfront hs), skipEnd_skipBlanks_append hrest]
  | case3 s rest hs =>
    cases h
    rw [readTagEnd_close (hfront hs)]
  | case4 s c rest hs hslash hclose hname a after hread tag htag ih =>
    cases h
    have hafter : after ≠ [] := by
      rintro rfl
      have hsuffix : tag.rest <:+ [] := readTagEnd_suffix htag
      exact hrest (List.suffix_nil.1 hsuffix)
    rw [readTagEnd_attribute (hfront hs) hname, ← List.cons_append,
      readAttribute_append hread hafter]
    simp only [ih htag hrest]
    rfl
  | case5 => cases h
  | case6 => cases h
  | case7 s c rest hs hslash hclose hname ih =>
    rw [readTagEnd_other (hfront hs) hslash hclose hname]
    exact ih h hrest

theorem readClosingTag_append {s : List Char} (h : (readClosingTag s).2 ≠ []) (t : List Char) :
    readClosingTag (s ++ t) = ((readClosingTag s).1, (readClosingTag s).2 ++ t) := by
  have hname : s.dropWhile isTagChar ≠ [] := by
    intro hnil
    simp only [readClosingTag, hnil] at h
    exact h rfl
  simp only [readClosingTag, takeWhile_append_of_ne_nil hname, dropWhile_append_of_ne_nil hname]
  rw [skipEnd_skipBlanks_append h]

theorem readOpeningTag_append {s rest : List Char} {step : Step}
    (h : readOpeningTag s = .ok (step, rest)) (hrest : rest ≠ []) (t : List Char) :
    readOpeningTag (s ++ t) = .ok (step, rest ++ t) := by
  unfold readOpeningTag at h ⊢
  dsimp only at h ⊢
  split at h
  · rename_i e he
    cases h
    have hname : s.dropWhile isTagChar ≠ [] := by
      intro hnil
      have hsuffix := readTagEnd_suffix he
      rw [hnil] at hsuffix
      exact hrest (List.suffix_nil.1 hsuffix)
    rw [takeWhile_append_of_ne_nil hname, dropWhile_append_of_ne_nil hname,
      readTagEnd_append he hrest]
  · cases h

/-! ## Text runs -/

theorem isTagStart_append {s : List Char} (h : 2 ≤ s.length) (t : List Char) :
    isTagStart (s ++ t) = isTagStart s := by
  match s with
  | [] | [_] => simp at h
  | c :: d :: s =>
    by_cases hc : c = '<'
    · subst hc
      rfl
    · simp [isTagStart, hc]

theorem two_le_length_of_isTagStart {s : List Char} (h : isTagStart s = true) : 2 ≤ s.length := by
  obtain ⟨c, r, rfl, -⟩ := exists_of_isTagStart h
  simp

/-! What a run goes on with is seen at its front. -/

theorem readRun_openMark (begun : Bool) (after : List Char) :
    readRun begun (openMark ++ after) =
      match cutAt? closeMark after with
      | some (inside, rest) =>
        (readRun true rest).map fun (run, rest) => (openMark ++ inside ++ closeMark ++ run, rest)
      | none => .error (.interpolation (openMark ++ after)) := by
  have htag : isTagStart (openMark ++ after) = false := rfl
  rw [readRun, htag, Bool.and_false, if_neg Bool.false_ne_true]
  split
  · rename_i heq
    rw [dropFront?_append] at heq
    cases heq
    cases hcut : cutAt? closeMark after with
    | none => simp
    | some cut =>
      simp
      cases readRun true cut.2 <;> rfl
  · rename_i heq
    rw [dropFront?_append] at heq
    cases heq

theorem readRun_char {begun : Bool} {c : Char} {s : List Char}
    (htag : (begun && isTagStart (c :: s)) = false)
    (hmark : dropFront? openMark (c :: s) = none) :
    readRun begun (c :: s) = (readRun true s).map fun (run, rest) => (c :: run, rest) := by
  rw [readRun, htag, if_neg Bool.false_ne_true]
  split
  · rename_i heq
    rw [hmark] at heq
    cases heq
  · simp only
    cases readRun true s <;> rfl

/-- What is left behind a run starts with a tag, so the text is long enough to show whether it
starts with a tag itself. -/
theorem isTagStart_append_of_readRun {begun : Bool} {s run rest : List Char}
    (h : readRun begun s = .ok (run, rest)) (hrest : rest ≠ []) (t : List Char) :
    isTagStart (s ++ t) = isTagStart s := by
  have hstart := (exists_factors_of_readRun h).1.resolve_left hrest
  have hlength := two_le_length_of_isTagStart hstart
  refine isTagStart_append ?_ t
  rw [← append_of_readRun h, List.length_append]
  omega

theorem readRun_append {begun : Bool} {s run rest : List Char}
    (h : readRun begun s = .ok (run, rest)) (hrest : rest ≠ []) (t : List Char) :
    readRun begun (s ++ t) = .ok (run, rest ++ t) := by
  have htag := isTagStart_append_of_readRun h hrest t
  fun_induction readRun begun s generalizing run with
  | case1 begun s hstop =>
    cases h
    rw [readRun, htag, if_pos hstop]
  | case2 begun s hstop after hopen inside behind hclose run' rest' hread ih =>
    cases h
    rw [eq_append_of_dropFront? hopen, List.append_assoc, readRun_openMark,
      cutAt?_append hclose]
    simp only [ih hread (isTagStart_append_of_readRun hread hrest t)]
    rfl
  | case3 => cases h
  | case4 => cases h
  | case5 =>
    cases h
    exact absurd rfl hrest
  | case6 begun c s hopen run' rest' hread hstop ih =>
    cases h
    have hne : s ≠ [] := by
      rintro rfl
      have happend := append_of_readRun hread
      simp [hrest] at happend
    have hlength : openMark.length ≤ (c :: s).length := by
      have := List.length_pos_of_ne_nil hne
      simp [openMark]
      omega
    have hstop' : (begun && isTagStart (c :: (s ++ t))) = false := by
      rw [← List.cons_append, htag]
      simpa using hstop
    rw [List.cons_append, readRun_char hstop' (dropFront?_append_eq_none hlength hopen),
      ih hread (isTagStart_append_of_readRun hread hrest t)]
    rfl
  | case7 => cases h

/-! ## Steps -/

/-- What a part of a template may start with. -/
inductive PartFront : List Char → Prop where
  | comment (r : List Char) : PartFront ('<' :: '!' :: '-' :: '-' :: r)
  | declaration {r : List Char} (h : dropFront? ['-', '-'] r = none) : PartFront ('<' :: '!' :: r)
  | closing (r : List Char) : PartFront ('<' :: '/' :: r)
  | opening {c : Char} (hc : c.isAlpha = true) (r : List Char) : PartFront ('<' :: c :: r)
  | run {s : List Char} (h : isTagStart s = false) : PartFront s

theorem partFront (s : List Char) : PartFront s := by
  cases h : isTagStart s with
  | false => exact .run h
  | true =>
    obtain ⟨c, r, rfl, hc⟩ := exists_of_isTagStart h
    simp only [Bool.or_eq_true, beq_iff_eq] at hc
    rcases hc with (hc | rfl) | rfl
    · exact .opening hc r
    · exact .closing r
    · cases hr : dropFront? ['-', '-'] r with
      | none => exact .declaration hr
      | some r' =>
        rw [eq_append_of_dropFront? hr]
        exact .comment r'

theorem readStep_comment (r : List Char) :
    readStep ('<' :: '!' :: '-' :: '-' :: r) = .ok (none, skipPast ['-', '-', '>'] r) := rfl

theorem readStep_declaration {r : List Char} (h : dropFront? ['-', '-'] r = none) :
    readStep ('<' :: '!' :: r) = .ok (none, skipPast ['>'] r) := by
  have htag : isTagStart ('<' :: '!' :: r) = true := rfl
  unfold readStep
  rw [if_pos htag]
  split
  · rename_i heq
    cases heq
    simp [dropFront?] at h
  · rename_i heq
    cases heq
    rfl
  · rename_i heq
    cases heq
  · rename_i hdeclaration _ heq
    cases heq
    exact (hdeclaration r rfl rfl).elim
  · rename_i heq
    cases heq

theorem readStep_closingTag (r : List Char) :
    readStep ('<' :: '/' :: r) = .ok (some (readClosingTag r).1, (readClosingTag r).2) := rfl

theorem readStep_openingTag {c : Char} (hc : c.isAlpha = true) (r : List Char) :
    readStep ('<' :: c :: r) =
      (readOpeningTag (c :: r)).map fun (step, rest) => (some step, rest) := by
  have hbang : c ≠ '!' := by
    rintro rfl
    exact absurd hc (by decide)
  have hslash : c ≠ '/' := by
    rintro rfl
    exact absurd hc (by decide)
  unfold readStep
  rw [if_pos (by simp [isTagStart, hc])]
  cases hread : readOpeningTag (c :: r) <;> simp [hbang, hslash, hread, Except.map]

theorem readStep_text {s : List Char} (h : isTagStart s = false) :
    readStep s = (readRun false s).map fun (run, rest) => (some (stepOfRun run), rest) := by
  unfold readStep
  rw [if_neg (by simp [h])]
  cases readRun false s <;> rfl

theorem readOpeningTag_suffix {s rest : List Char} {step : Step}
    (h : readOpeningTag s = .ok (step, rest)) : rest <:+ s := by
  unfold readOpeningTag at h
  dsimp only at h
  split at h
  · rename_i e he
    cases h
    exact (readTagEnd_suffix he).trans (List.dropWhile_suffix _)
  · cases h

theorem readStep_suffix {s rest : List Char} {step : Option Step}
    (h : readStep s = .ok (step, rest)) : rest <:+ s := by
  cases partFront s with
  | comment r =>
    cases h
    exact (skipPast_suffix _ r).trans ⟨['<', '!', '-', '-'], rfl⟩
  | @declaration r hr =>
    rw [readStep_declaration hr] at h
    cases h
    exact (skipPast_suffix _ r).trans ⟨['<', '!'], rfl⟩
  | closing r =>
    cases h
    exact (((skipEnd_suffix _).trans (skipBlanks_suffix _)).trans (List.dropWhile_suffix _)).trans
      ⟨['<', '/'], rfl⟩
  | @opening c hc r =>
    rw [readStep_openingTag hc] at h
    obtain ⟨read, hread, heq⟩ := map_eq_ok h
    cases heq
    exact (readOpeningTag_suffix hread).trans (List.suffix_cons _ _)
  | run htag =>
    rw [readStep_text htag] at h
    obtain ⟨read, hread, heq⟩ := map_eq_ok h
    cases heq
    exact ⟨read.1, append_of_readRun hread⟩

/-- A step that is read before the end of a text is read in the same way if more text follows. -/
theorem readStep_append {s rest : List Char} {step : Option Step}
    (h : readStep s = .ok (step, rest)) (hrest : rest ≠ []) (t : List Char) :
    readStep (s ++ t) = .ok (step, rest ++ t) := by
  cases partFront s with
  | comment r =>
    rw [readStep_comment] at h
    cases h
    simp only [List.cons_append, readStep_comment, skipPast_append hrest]
  | @declaration r hr =>
    rw [readStep_declaration hr] at h
    cases h
    have hlength : ['-', '-'].length ≤ r.length := by
      cases hcut : cutAt? ['>'] r with
      | none => simp [skipPast, hcut] at hrest
      | some cut =>
        simp only [skipPast, hcut] at hrest
        have := List.length_pos_of_ne_nil hrest
        rw [eq_append_of_cutAt? hcut]
        simp
        omega
    rw [List.cons_append, List.cons_append,
      readStep_declaration (dropFront?_append_eq_none hlength hr), skipPast_append hrest]
  | closing r =>
    cases h
    rw [List.cons_append, List.cons_append, readStep_closingTag, readClosingTag_append hrest]
    rfl
  | @opening c hc r =>
    rw [readStep_openingTag hc] at h
    obtain ⟨⟨step, rest⟩, hread, heq⟩ := map_eq_ok h
    cases heq
    rw [List.cons_append, List.cons_append, readStep_openingTag hc, ← List.cons_append,
      readOpeningTag_append hread hrest]
    rfl
  | run htag =>
    rw [readStep_text htag] at h
    obtain ⟨⟨run, rest⟩, hread, heq⟩ := map_eq_ok h
    cases heq
    rw [readStep_text ((isTagStart_append_of_readRun hread hrest t).trans htag),
      readRun_append hread hrest]
    rfl

end EventMarkup.Markup
