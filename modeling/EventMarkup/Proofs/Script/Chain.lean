import EventMarkup.Proofs.Script.Operand
import EventMarkup.Proofs.Script.PathCut
import EventMarkup.Text.Blank

/-!
# Paths as chains of accesses

The grammar of paths and the script grammar read the same texts, and they do not agree on where a
quoted text ends: a path may run over several strings of a script and over what stands between them
(`exists_path_no_chain`). Where no quoted text of a path holds its own mark or a backslash and where
its names are no reserved words, there is one way to read it, and the path is a chain of accesses
(`takes_callMember_of_isPlain`).
-/

namespace EventMarkup.Script

open Peg Text

variable {c : Char} {s t u rest : List Char}

/-! ## In front of a closing bracket -/

theorem refuses_closeSquare {p : Pattern Rule} (h : foresee 100 p [']'] = some none)
    (t : List Char) : Refuses p (']' :: t) :=
  refuses_of_foresee (s := [']']) h

theorem skipGap_closeSquare (t : List Char) : skipGap (']' :: t) = ']' :: t :=
  skipGap_cons (by decide) (comment?_eq_none (by decide))

theorem halts_closeSquare (t : List Char) : Halts (']' :: t) := halts_cons (by decide) t

theorem takesBehind_of_halts (h : Halts s) : TakesBehind s s := by
  refine ⟨s, s, s, ?_, ?_, ?_, ?_⟩
  · rw [h.settled]
    exact takes_optional_iff.2 (.inr ⟨h.endOperator, rfl⟩)
  · rw [h.settled]
    exact takes_many_iff.2 (.inr ⟨refuses_row h.binaryOperator, rfl⟩)
  · rw [h.settled]
    exact takes_optional_iff.2 (.inr ⟨refuses_row h.question, rfl⟩)
  · rw [h.settled]
    exact takes_optional_iff.2 (.inr ⟨refuses_row h.assignOperator, rfl⟩)

theorem takes_index_of_primary (hs : skipGap s = s) (hnew : Refuses (word "new") s)
    (harrows : Refuses arrows s) (h : Takes (.rule .primary) s (']' :: t)) :
    Takes (.rule .index) ('[' :: s) t := by
  have hmany : Takes (many (.rule .suffix)) (skipGap (']' :: t)) (']' :: t) := by
    rw [skipGap_closeSquare]
    exact takes_many_iff.2 (.inr ⟨refuses_closeSquare (by decide) t, rfl⟩)
  have hmember := takes_callMember hnew hs h hmany
  have hassignment : Takes (.rule .assignment) s (']' :: t) := by
    refine Takes.rule (Refuses.either_takes harrows ?_)
    refine (takes_plainAssignment_iff (refuses_frontOperator hs hmember)).2 ⟨_, ?_,
      takesBehind_of_halts (halts_closeSquare t)⟩
    rwa [hs]
  have hcomma : Takes (many (row [.lit ",", .rule .assignment])) (skipGap (']' :: t))
      (']' :: t) := by
    rw [skipGap_closeSquare]
    exact takes_many_iff.2 (.inr ⟨refuses_closeSquare (by decide) t, rfl⟩)
  have hexpression : Takes (.rule .expression) (skipGap s) (']' :: t) := by
    rw [hs]
    exact Takes.rule (Takes.phrase (takes_row_iff.2 ⟨_, hassignment, hcomma⟩))
  have hclose : Takes (row [.lit "]"]) (skipGap (']' :: t)) t := by
    rw [skipGap_closeSquare]
    exact (reads_text _).takes rfl
  exact Takes.rule (takes_row_iff.2
    ⟨s, (reads_text _).takes rfl, takes_row_iff.2 ⟨_, hexpression, hclose⟩⟩)

/-! ## Members -/

/-- An access to a member. -/
def memberAccess : Pattern Rule := .either (row [.lit ".", name]) (.rule .index)

/-- A name, or the word for the object at hand, and the members that are reached from there. -/
def member : Pattern Rule := row [.either identifier (word "this"), many memberAccess]

theorem takes_memberAccess_of_index (h : Takes (.rule .index) ('[' :: s) t) :
    Takes memberAccess ('[' :: s) t :=
  Refuses.either_takes (refuses_of_foresee (n := 100) (s := ['[']) (by decide)) h

theorem takes_suffix_of_memberAccess (h : Takes memberAccess s t) : Takes (.rule .suffix) s t := by
  have hchain : ∀ {c : Char} {s : List Char}, c = '.' ∨ c = '[' →
      Refuses (row [.lit "?.", .oneOf [.rule .arguments, .rule .index, name]]) (c :: s) := by
    rintro c s (rfl | rfl)
    · exact refuses_of_foresee (n := 100) (s := ['.']) (by decide)
    · exact refuses_of_foresee (n := 100) (s := ['[']) (by decide)
  rcases takes_either_iff.1 h with hpoint | ⟨hnone, hindex⟩
  · obtain ⟨u, hu, -⟩ := takes_row_iff.1 hpoint
    obtain rfl : s = '.' :: u := takes_lit.1 hu
    exact .rule ((hchain (.inl rfl)).either_takes hpoint.either)
  · obtain ⟨u, hu, -⟩ := takes_row_iff.1 (takes_rule_iff.1 hindex)
    obtain rfl : s = '[' :: u := takes_lit.1 hu
    exact .rule ((hchain (.inr rfl)).either_takes (hnone.either_takes hindex.either))

theorem takes_memberAccess_of_literal (hgap : skipGap (c :: s) = c :: s)
    (hfront : ([arrows, word "new"].all fun p => foresee 100 p [c] == some none) = true)
    (h : Takes (.rule .primary) (c :: s) (']' :: t)) : Takes memberAccess ('[' :: c :: s) t := by
  simp only [List.all_cons, List.all_nil, Bool.and_true, Bool.and_eq_true, beq_iff_eq] at hfront
  exact takes_memberAccess_of_index (takes_index_of_primary hgap (refuses_of_foresee (s := [c]) hfront.2)
    (refuses_of_foresee (s := [c]) hfront.1) h)

/-! ## Strings and numbers in brackets -/

theorem stretch_append {mark : Char} {content : List Char}
    (h : ∀ c ∈ content, stopsString mark c = false) (hmark : mark ≠ '\\') (t : List Char) :
    stretch (stopsString mark) (content ++ mark :: t) = mark :: t := by
  induction content with
  | nil =>
    rw [List.nil_append, stretch_cons hmark, if_pos (by simp [stopsString])]
  | cons c content ih =>
    obtain ⟨hc, hcontent⟩ := List.forall_mem_cons.1 h
    have hslash : c ≠ '\\' := by
      rintro rfl
      simp [stopsString] at hc
    rw [List.cons_append, stretch_cons hslash, if_neg (by simp [hc]), ih hcontent]

theorem takes_memberAccess_of_string {mark : Char} (hmark : mark = '\'' ∨ mark = '"')
    {content : List Char} (h : ∀ c ∈ content, stopsString mark c = false) (t : List Char) :
    Takes memberAccess ('[' :: mark :: (content ++ mark :: ']' :: t)) t := by
  have hstring : string? (mark :: (content ++ mark :: ']' :: t)) = some (']' :: t) := by
    rcases hmark with rfl | rfl
    · simp [string?, enclosed?, dropFront?, stretch_append h (by decide)]
    · rw [string?, enclosed?_eq_none (by decide), Option.none_or]
      simp [enclosed?, dropFront?, stretch_append h (by decide)]
  rcases hmark with rfl | rfl <;>
    exact takes_memberAccess_of_literal (skipGap_cons (by decide) (comment?_eq_none (by decide)))
      (by decide) (takes_primary_of_literal beforeStrings rfl (by decide)
        (reads_string.takes hstring))

/-- The characters that a number ends in front of here: a bracket, or an operator. -/
def numberEnds : List Char := [']', ')', '&']

theorem takes_digits {ds : List Char} (hne : ds ≠ []) (h : ∀ d ∈ ds, d.isDigit = true)
    (hc : c ∈ numberEnds) (t : List Char) : Takes digits (ds ++ c :: t) (c :: t) := by
  have hend : c.isDigit = false := by
    have hall : (numberEnds.all fun c => !c.isDigit) = true := by decide
    simpa using List.all_eq_true.1 hall c hc
  have hstar (ds : List Char) (h : ∀ d ∈ ds, d.isDigit = true) :
      Takes (.star (.one Char.isDigit)) (ds ++ c :: t) (c :: t) := by
    refine (reads_star_one Char.isDigit).takes ?_
    simp [List.dropWhile_append_of_pos h, hend]
  cases ds with
  | nil => exact absurd rfl hne
  | cons d ds =>
    obtain ⟨hd, hds⟩ := List.forall_mem_cons.1 h
    exact Takes.both ((reads_one _).takes (by simp [one?, hd])) (hstar ds hds)

theorem refuses_base {w : String} {sign : Char} (hw : w.toList = ['0', sign])
    (hsign : sign.isDigit = false ∧ sign ∉ numberEnds) {ds : List Char} (hne : ds ≠ [])
    (h : ∀ d ∈ ds, d.isDigit = true) (hc : c ∈ numberEnds) (t : List Char) :
    Refuses (.lit w) (ds ++ c :: t) := by
  refine (reads_text w.toList).refuses ?_
  rw [hw]
  match ds with
  | [] => exact absurd rfl hne
  | [d] =>
    have hsign : sign ≠ c := fun heq => hsign.2 (heq ▸ hc)
    simp [dropFront?, hsign]
  | d :: e :: ds =>
    have he : sign ≠ e := by
      rintro rfl
      rw [h sign (by simp)] at hsign
      exact absurd hsign.1 (by decide)
    simp [dropFront?, he]

theorem takes_number {ds : List Char} (hne : ds ≠ []) (h : ∀ d ∈ ds, d.isDigit = true)
    (hc : c ∈ numberEnds) (t : List Char) : Takes numberLiteral (ds ++ c :: t) (c :: t) := by
  have hbased (lower upper : String) (isDigit : Char → Bool) {x y : Char}
      (hlower : lower.toList = ['0', x] ∧ x.isDigit = false ∧ x ∉ numberEnds)
      (hupper : upper.toList = ['0', y] ∧ y.isDigit = false ∧ y ∉ numberEnds) :
      Refuses (basedNumber lower upper isDigit) (ds ++ c :: t) :=
    ((refuses_base hlower.1 hlower.2 hne h hc t).either
      (refuses_base hupper.1 hupper.2 hne h hc t)).both
  have hrefuses {p : Pattern Rule}
      (hp : (numberEnds.all fun c => foresee 100 p [c] == some none) = true) : Refuses p (c :: t) :=
    refuses_of_foresee (s := [c]) (beq_iff_eq.1 (List.all_eq_true.1 hp c hc))
  have hnone {p : Pattern Rule}
      (hp : (numberEnds.all fun c => foresee 100 p [c] == some none) = true) :
      Takes (.optional p) (c :: t) (c :: t) :=
    takes_optional_iff.2 (.inr ⟨hrefuses hp, rfl⟩)
  have hdecimal : Takes decimalNumber (ds ++ c :: t) (c :: t) :=
    ((takes_digits hne h hc t).both (hnone (by decide))).either.both (hnone (by decide))
  have hend : Takes wordEnd (c :: t) (c :: t) := (hrefuses (by decide)).notAhead
  have hhex := hbased "0x" "0X" isHexDigit ⟨rfl, by decide⟩ ⟨rfl, by decide⟩
  have hbinary := hbased "0b" "0B" (fun c => c == '0' || c == '1') ⟨rfl, by decide⟩ ⟨rfl, by decide⟩
  have hoctal := hbased "0o" "0O" (fun c => '0' ≤ c && c ≤ '7') ⟨rfl, by decide⟩ ⟨rfl, by decide⟩
  have hvalue := hhex.either_takes (hbinary.either_takes (hoctal.either_takes hdecimal))
  exact Takes.token (hvalue.both ((hnone (by decide)).both hend))

theorem takes_primary_of_number {ds : List Char} (hne : ds ≠ []) (h : ∀ d ∈ ds, d.isDigit = true)
    (hc : c ∈ numberEnds) (t : List Char) : Takes (.rule .primary) (ds ++ c :: t) (c :: t) := by
  have hnumber := takes_number hne h hc t
  have hfront : (digitChars.all fun d => (beforeStrings ++ [stringLiteral]).all
      fun p => foresee 100 p [d] == some none) = true := by
    decide
  cases ds with
  | nil => exact absurd rfl hne
  | cons d ds =>
    exact takes_primary_of_literal (beforeStrings ++ [stringLiteral]) rfl
      (List.all_eq_true.1 hfront d (mem_digitChars (h d List.mem_cons_self))) hnumber

theorem skipGap_digit {d : Char} (h : d.isDigit = true) (s : List Char) :
    skipGap (d :: s) = d :: s := by
  have hall : (digitChars.all fun d => !isGapBlank d && d != '/') = true := by decide
  obtain ⟨hblank, hslash⟩ : isGapBlank d = false ∧ d ≠ '/' := by
    simpa using List.all_eq_true.1 hall d (mem_digitChars h)
  exact skipGap_cons hblank (comment?_eq_none hslash)

theorem takes_memberAccess_of_number {ds : List Char} (hne : ds ≠ []) (h : ∀ d ∈ ds, d.isDigit = true)
    (t : List Char) : Takes memberAccess ('[' :: (ds ++ ']' :: t)) t := by
  have hprimary := takes_primary_of_number hne h (c := ']') (by decide) t
  have hfront : (digitChars.all fun d => [arrows, word "new"].all
      fun p => foresee 100 p [d] == some none) = true := by
    decide
  cases ds with
  | nil => exact absurd rfl hne
  | cons d ds =>
    have hd := h d List.mem_cons_self
    exact takes_memberAccess_of_literal (skipGap_digit hd _)
      (List.all_eq_true.1 hfront d (mem_digitChars hd)) hprimary

/-! ## Names -/

theorem isNameStart_of_isWordStart (h : isWordStart c = true) : isNameStart c = true := by
  simp only [isWordStart, isNameStart, isXidStart, Bool.or_eq_true] at h ⊢
  rcases h with (h | h) | h
  · exact .inl (.inl (.inl h))
  · exact .inl (.inr h)
  · exact .inr h

theorem isNameRest_of_isWordRest (h : isWordRest c = true) : isNameRest c = true := by
  simp only [isWordRest, isNameRest, isXidContinue, Bool.or_eq_true] at h ⊢
  rcases h with (h | h) | h
  · exact .inl (.inl (.inl h))
  · exact .inl (.inl (.inr h))
  · exact .inr h

theorem frontName_of_isAsciiName {w : List Char} (hw : IsAsciiName w)
    (ht : one? isNameRest t = none) :
    startsName (w ++ t) = true ∧ frontName (w ++ t) = w ∧ behindName (w ++ t) = t := by
  cases w with
  | nil => exact absurd hw id
  | cons c w =>
    refine ⟨isNameStart_of_isWordStart hw.1, frontName_eq (fun d hd => ?_) ht⟩
    rcases List.mem_cons.1 hd with rfl | hd
    · exact isNameRest_of_isWordRest (isWordRest_of_isWordStart hw.1)
    · exact isNameRest_of_isWordRest (hw.2 d hd)

theorem identifier?_of_isAsciiName {w : List Char} (hw : IsAsciiName w)
    (hfree : w ∉ reservedWords.map String.toList) (ht : one? isNameRest t = none) :
    identifier? (w ++ t) = some t := by
  obtain ⟨hstarts, hfront, hbehind⟩ := frontName_of_isAsciiName hw ht
  rw [identifier?, if_pos ⟨hstarts, hfront.symm ▸ hfree⟩, hbehind]

theorem skipGap_of_startsName (h : startsName s = true) : skipGap s = s := by
  cases s with
  | nil => cases h
  | cons c s =>
    exact skipGap_cons (isGapBlank_of_isNameStart h) (comment?_eq_none (ne_slash_of_isNameStart h))

theorem refuses_word_of_identifier {w : String} (hw : w ∈ reservedWords)
    (h : identifier? s = some t) : Refuses (word w) s := by
  obtain ⟨-, hfree, -⟩ := takes_identifier (reads_identifier.takes h)
  refine (reads_word (isNameRest_reservedWords w hw)).refuses (if_neg fun hfront => ?_)
  rw [hfront] at hfree
  exact hfree (List.mem_map_of_mem hw)

theorem refuses_arrows_of_identifier (hid : identifier? s = some t)
    (harrow : Refuses (.lit "=>") (skipGap t)) (hnext : Refuses (.rule .arrowFunction) (skipGap t)) :
    Refuses arrows s := by
  refine Refuses.either ?_
    (.rule (Takes.row_refuses (reads_identifier.takes hid).either (refuses_row harrow)))
  obtain ⟨x, hx⟩ := runs_of_isTame (p := word "async") (by decide) s
  rcases takes_or_refuses_of_runs hx with ⟨v, hv⟩ | hasync
  · have hvt : v = t := Option.some.inj ((identifier?_of_async hv).symm.trans hid)
    exact hv.row_refuses (hvt ▸ hnext)
  · exact refuses_row hasync

theorem takes_memberAccess_of_name {w : List Char} (hw : IsAsciiName w)
    (hfree : w ∉ reservedWords.map String.toList) (t : List Char) :
    Takes memberAccess ('[' :: (w ++ ']' :: t)) t := by
  have hid := identifier?_of_isAsciiName hw hfree (t := ']' :: t) rfl
  have hsettled := skipGap_of_startsName (takes_identifier (reads_identifier.takes hid)).1
  have hnofunction : Refuses (word "function") (skipGap (']' :: t)) := by
    rw [skipGap_closeSquare]
    exact refuses_closeSquare (by decide) t
  have harrows : Refuses arrows (w ++ ']' :: t) := by
    refine refuses_arrows_of_identifier hid ?_ ?_ <;> rw [skipGap_closeSquare] <;>
      exact refuses_closeSquare (by decide) t
  exact takes_memberAccess_of_index (takes_index_of_primary hsettled
    (refuses_word_of_identifier (by decide) hid) harrows
    (takes_primary_of_identifier hid hnofunction))

theorem takes_memberAccess_of_point {w : List Char} (hw : IsAsciiName w) (ht : one? isNameRest t = none) :
    Takes memberAccess ('.' :: w ++ t) t := by
  obtain ⟨hstarts, -, hbehind⟩ := frontName_of_isAsciiName hw ht
  have hname : Takes name (skipGap (w ++ t)) t := by
    rw [skipGap_of_startsName hstarts]
    exact reads_nameChars.token.takes (by rw [name?, if_pos hstarts, hbehind])
  have hpoint : Takes (row [.lit ".", name]) ('.' :: (w ++ t)) t :=
    takes_row_iff.2 ⟨_, (reads_text _).takes rfl, hname⟩
  exact hpoint.either

/-! ## Chains -/

/-- An access that the script grammar takes for the same access: no quoted text holds its own mark
or a backslash, and no name in brackets is a reserved word. -/
def Access.IsPlain : Access → Prop
  | .point _ => True
  | .single content => ∀ c ∈ content, c ≠ '\'' ∧ c ≠ '\\'
  | .double content => ∀ c ∈ content, c ≠ '"' ∧ c ≠ '\\'
  | .place _ => True
  | .named name => name ∉ reservedWords.map String.toList

theorem takes_memberAccess_of_access {a : Access} (hwell : a.WellFormed) (hplain : a.IsPlain)
    (ht : one? isNameRest t = none) : Takes memberAccess (a.spelling ++ t) t := by
  have hstops {mark : Char} {content : List Char} (hline : ∀ c ∈ content, isLineEnd c = false)
      (hmark : ∀ c ∈ content, c ≠ mark ∧ c ≠ '\\') :
      ∀ c ∈ content, stopsString mark c = false := by
    intro c hc
    simp [stopsString, hline c hc, hmark c hc]
  cases a with
  | point w => exact takes_memberAccess_of_point hwell ht
  | single content =>
    simpa [Access.spelling] using takes_memberAccess_of_string (.inl rfl) (hstops hwell hplain) t
  | double content =>
    simpa [Access.spelling] using takes_memberAccess_of_string (.inr rfl) (hstops hwell hplain) t
  | place digits =>
    simpa [Access.spelling] using takes_memberAccess_of_number hwell.1 hwell.2 t
  | named name =>
    simpa [Access.spelling] using takes_memberAccess_of_name hwell hplain t

/-- A text that may follow a path: no name goes on in it, and no function begins. -/
structure EndsPath (u : List Char) : Prop where
  name : one? isNameRest u = none
  noFunction : Refuses (word "function") (skipGap u)

theorem endsPath_nil : EndsPath [] where
  name := rfl
  noFunction := (reads_read? (by decide)).refuses (by decide +kernel)

theorem Access.exists_spelling (a : Access) : ∃ c t, a.spelling = [c] ++ t ∧ (c = '.' ∨ c = '[') := by
  cases a <;> exact ⟨_, _, rfl, by simp⟩

theorem skipGap_access (a : Access) (t : List Char) : skipGap (a.spelling ++ t) = a.spelling ++ t := by
  obtain ⟨c, r, h, rfl | rfl⟩ := a.exists_spelling <;> rw [h] <;>
    exact skipGap_cons (by decide) (comment?_eq_none (by decide))

theorem one?_isNameRest_accesses {u : List Char} (hu : one? isNameRest u = none)
    (accesses : List Access) : one? isNameRest (accesses.flatMap Access.spelling ++ u) = none := by
  cases accesses with
  | nil => exact hu
  | cons a accesses =>
    rw [List.flatMap_cons, List.append_assoc]
    obtain ⟨c, r, h, rfl | rfl⟩ := a.exists_spelling <;> rw [h] <;> rfl

theorem endsPath_accesses {u : List Char} (hu : EndsPath u) (accesses : List Access) :
    EndsPath (accesses.flatMap Access.spelling ++ u) := by
  refine ⟨one?_isNameRest_accesses hu.name accesses, ?_⟩
  cases accesses with
  | nil => exact hu.noFunction
  | cons a accesses =>
    rw [List.flatMap_cons, List.append_assoc, skipGap_access]
    obtain ⟨c, r, h, hc⟩ := a.exists_spelling
    rw [h, List.append_assoc]
    rcases hc with rfl | rfl <;> exact refuses_of_foresee (n := 100) (by decide)

theorem takes_star_accesses {p : Pattern Rule} (hp : ∀ {s t}, Takes memberAccess s t → Takes p s t)
    {accesses : List Access} {u : List Char} (hwell : ∀ a ∈ accesses, a.WellFormed)
    (hplain : ∀ a ∈ accesses, a.IsPlain) (hu : EndsPath u)
    (h : Takes (.star (.both gap p)) u rest) :
    Takes (.star (.both gap p)) (accesses.flatMap Access.spelling ++ u) rest := by
  induction accesses with
  | nil => exact h
  | cons a accesses ih =>
    obtain ⟨ha, hwell⟩ := List.forall_mem_cons.1 hwell
    obtain ⟨ha', hplain⟩ := List.forall_mem_cons.1 hplain
    rw [List.flatMap_cons, List.append_assoc]
    refine takes_star_gap_iff.2 (.inl ⟨_, ?_, ih hwell hplain⟩)
    rw [skipGap_access]
    exact hp (takes_memberAccess_of_access ha ha' (endsPath_accesses hu accesses).name)

theorem takes_primary_of_name {w u : List Char} (hw : IsAsciiName w)
    (hfree : w ∉ reservedWords.map String.toList) (hu : EndsPath u) :
    Takes (.rule .primary) (w ++ u) u :=
  takes_primary_of_identifier (identifier?_of_isAsciiName hw hfree hu.name) hu.noFunction

/-- A path is a chain of accesses if its accesses are plain and its first name is no reserved
word. -/
theorem takes_callMember_of_isPlain (cut : PathCut s)
    (hname : cut.name ∉ reservedWords.map String.toList) (hplain : ∀ a ∈ cut.accesses, a.IsPlain) :
    Takes (.rule .callMember) (cut.name ++ cut.accesses.flatMap Access.spelling) [] := by
  have hnil : Takes (.star (.both gap (.rule .suffix))) [] [] :=
    takes_star_gap_iff.2 (.inr ⟨(reads_read? (isTame_rule .suffix)).refuses (by decide +kernel), rfl⟩)
  have hstar := takes_star_accesses takes_suffix_of_memberAccess cut.accesses_wellFormed hplain
    endsPath_nil hnil
  have hends := endsPath_accesses endsPath_nil cut.accesses
  rw [List.append_nil] at hstar hends
  have hid := identifier?_of_isAsciiName cut.name_isAsciiName hname hends.name
  have hsettled := skipGap_of_startsName (takes_identifier (reads_identifier.takes hid)).1
  have hgap : skipGap (cut.accesses.flatMap Access.spelling) =
      cut.accesses.flatMap Access.spelling := by
    cases cut.accesses with
    | nil => exact skipGap_eq_self rfl rfl
    | cons a accesses => rw [List.flatMap_cons, skipGap_access]
  refine takes_callMember (refuses_word_of_identifier (by decide) hid) hsettled
    (takes_primary_of_name cut.name_isAsciiName hname hends) ?_
  rw [hgap]
  exact takes_many_of_star hgap hstar

/-- A quoted text of a path may run over several strings of the script and what stands between
them. -/
theorem exists_path_no_chain :
    ¬ ∀ text : String, isPath text = true → isBody text = true →
      Takes (.rule .callMember) (trim text.toList) [] := by
  intro h
  have hchain := h "a['b'] + c['d']" (by decide +kernel) (by decide +kernel)
  rw [(reads_read? (isTame_rule .callMember)).takes_iff] at hchain
  exact absurd hchain (by decide +kernel)

end EventMarkup.Script
