import EventMarkup.Proofs.Script.Reading

/-!
# What tokens take

The functions that tell what each token of the script grammar takes: names and words, the gap with
its comments, and the literals. A name is taken as a whole, so a word matches exactly where the name
at the front of the text is that word (`reads_word`), and an identifier where it is none of the
reserved words (`reads_identifier`).
-/

namespace EventMarkup.Script

open Peg Text

/-! ## Names -/

/-- Whether a name may start at the front of a text. -/
def startsName : List Char → Bool
  | c :: _ => isNameStart c
  | [] => false

/-- The name at the front of a text. -/
def frontName (s : List Char) : List Char := s.takeWhile isNameRest

def behindName (s : List Char) : List Char := s.dropWhile isNameRest

def name? (s : List Char) : Option (List Char) :=
  if startsName s then some (behindName s) else none

def word? (w : List Char) (s : List Char) : Option (List Char) :=
  if frontName s = w then some (behindName s) else none

def identifier? (s : List Char) : Option (List Char) :=
  if startsName s ∧ frontName s ∉ reservedWords.map String.toList then some (behindName s)
  else none

theorem frontName_append_behindName (s : List Char) : frontName s ++ behindName s = s :=
  List.takeWhile_append_dropWhile

theorem wordEnd_behindName (s : List Char) : Takes wordEnd (behindName s) (behindName s) := by
  refine ((reads_one isNameRest).refuses ?_).notAhead
  unfold behindName
  induction s with
  | nil => rfl
  | cons c s ih =>
    cases hc : isNameRest c with
    | true => rwa [List.dropWhile_cons_of_pos hc]
    | false =>
      rw [List.dropWhile_cons_of_neg (ne_true_of_eq_false hc)]
      simp [one?, hc]

theorem frontName_eq {w t : List Char} (hw : ∀ c ∈ w, isNameRest c = true)
    (ht : one? isNameRest t = none) : frontName (w ++ t) = w ∧ behindName (w ++ t) = t := by
  have hstop : t.takeWhile isNameRest = [] ∧ t.dropWhile isNameRest = t := by
    cases t with
    | nil => exact ⟨rfl, rfl⟩
    | cons c t =>
      have hc : isNameRest c = false := by simpa [one?] using ht
      simp [hc]
  unfold frontName behindName
  rw [List.takeWhile_append_of_pos hw, List.dropWhile_append_of_pos hw, hstop.1, hstop.2,
    List.append_nil]
  exact ⟨rfl, rfl⟩

theorem reads_nameChars : Reads nameChars name? := by
  intro s
  cases s with
  | nil => exact ((reads_one isNameStart).refuses rfl).both
  | cons c s =>
    cases hc : isNameStart c with
    | false =>
      have hone : one? isNameStart (c :: s) = none := if_neg (ne_true_of_eq_false hc)
      have hname : name? (c :: s) = none := if_neg (ne_true_of_eq_false hc)
      rw [hname]
      exact ((reads_one isNameStart).refuses hone).both
    | true =>
      have hone : one? isNameStart (c :: s) = some s := if_pos hc
      have hname : name? (c :: s) = some (behindName (c :: s)) := if_pos hc
      rw [hname, behindName, List.dropWhile_cons_of_pos (isNameRest_of_isNameStart hc)]
      exact ((reads_one isNameStart).takes hone).both ((reads_star_one isNameRest).takes rfl)

theorem reads_wordEnd :
    Reads wordEnd fun s => if (one? isNameRest s).isSome then none else some s :=
  (reads_one isNameRest).notAhead

theorem reads_word {w : String} (hw : ∀ c ∈ w.toList, isNameRest c = true) :
    Reads (word w) (word? w.toList) := by
  refine Reads.token fun s => ?_
  by_cases hs : frontName s = w.toList
  · rw [word?, if_pos hs]
    have happ := frontName_append_behindName s
    rw [hs] at happ
    have hlit : Takes (.text w.toList) s (behindName s) := by
      have hd := dropFront?_append w.toList (behindName s)
      rw [happ] at hd
      exact (reads_text w.toList).takes hd
    exact hlit.both (wordEnd_behindName s)
  · rw [word?, if_neg hs]
    show Refuses _ s
    cases hd : dropFront? w.toList s with
    | none => exact ((reads_text w.toList).refuses hd).both
    | some t =>
      refine ((reads_text w.toList).takes hd).both_refuses (reads_wordEnd.refuses ?_)
      cases ht : one? isNameRest t with
      | some r => rfl
      | none =>
        rw [eq_append_of_dropFront? hd] at hs
        exact absurd (frontName_eq hw ht).1 hs

theorem reads_oneOf_lit (ws : List String) :
    Reads (.oneOf (ws.map .lit)) fun s => ws.findSome? fun w => dropFront? w.toList s := by
  induction ws with
  | nil =>
    intro s
    refine (reads_one _).refuses ?_
    cases s <;> rfl
  | cons w ws ih =>
    cases ws with
    | nil =>
      intro s
      show Outcome (.text w.toList) s _
      have h := reads_text w.toList s
      cases hd : dropFront? w.toList s with
      | none => simpa [hd] using h
      | some t => simpa [hd] using h
    | cons v ws =>
      intro s
      show Outcome (.either (.text w.toList) (.oneOf ((v :: ws).map .lit))) s _
      have h := ((reads_text w.toList).either ih) s
      cases hd : dropFront? w.toList s with
      | none => simpa [hd, List.findSome?_cons] using h
      | some t => simpa [hd, List.findSome?_cons] using h

theorem isNameRest_reservedWords :
    ∀ w ∈ reservedWords, ∀ c ∈ w.toList, isNameRest c = true := by
  have hall : (reservedWords.all fun w => w.toList.all isNameRest) = true := by decide +kernel
  simpa only [List.all_eq_true] using hall

theorem pairwise_reservedWords :
    reservedWords.Pairwise fun v w => ¬ v.toList <+: w.toList := by
  decide +kernel

theorem findSome?_of_frontName_mem {ws : List String}
    (hws : ws.Pairwise fun v w => ¬ v.toList <+: w.toList)
    (hchars : ∀ w ∈ ws, ∀ c ∈ w.toList, isNameRest c = true) {s : List Char}
    (h : frontName s ∈ ws.map String.toList) :
    (ws.findSome? fun w => dropFront? w.toList s) = some (behindName s) := by
  induction ws with
  | nil => simp at h
  | cons w ws ih =>
    rw [List.findSome?_cons]
    have happ := frontName_append_behindName s
    rw [List.pairwise_cons] at hws
    cases hd : dropFront? w.toList s with
    | some t =>
      have hprefix : w.toList <+: frontName s := by
        have hs := eq_append_of_dropFront? hd
        rw [hs, frontName, List.takeWhile_append_of_pos (hchars w List.mem_cons_self)]
        exact List.prefix_append _ _
      rw [List.map_cons, List.mem_cons] at h
      rcases h with h | h
      · rw [← happ, h, dropFront?_append] at hd
        exact hd.symm
      · obtain ⟨v, hv, hvs⟩ := List.mem_map.1 h
        rw [← hvs] at hprefix
        exact absurd hprefix (hws.1 v hv)
    | none =>
      rw [List.map_cons, List.mem_cons] at h
      rcases h with h | h
      · rw [← happ, h, dropFront?_append] at hd
        cases hd
      · exact ih hws.2 (fun v hv => hchars v (List.mem_cons_of_mem _ hv)) h

theorem reads_reservedWord :
    Reads reservedWord fun s =>
      if frontName s ∈ reservedWords.map String.toList then some (behindName s) else none := by
  intro s
  show Outcome reservedWord s (if frontName s ∈ reservedWords.map String.toList then _ else _)
  by_cases hs : frontName s ∈ reservedWords.map String.toList
  · rw [if_pos hs]
    have hfind := findSome?_of_frontName_mem pairwise_reservedWords isNameRest_reservedWords hs
    exact ((reads_oneOf_lit reservedWords).takes hfind).both (wordEnd_behindName s)
  · rw [if_neg hs]
    cases hfind : reservedWords.findSome? fun w => dropFront? w.toList s with
    | none => exact ((reads_oneOf_lit reservedWords).refuses hfind).both
    | some t =>
      refine ((reads_oneOf_lit reservedWords).takes hfind).both_refuses (reads_wordEnd.refuses ?_)
      obtain ⟨w, hw, hd⟩ := List.exists_of_findSome?_eq_some hfind
      cases ht : one? isNameRest t with
      | some r => rfl
      | none =>
        rw [eq_append_of_dropFront? hd, (frontName_eq (isNameRest_reservedWords w hw) ht).1] at hs
        exact absurd (List.mem_map.2 ⟨w, hw, rfl⟩) hs

theorem reads_identifier : Reads identifier identifier? := by
  refine Reads.token fun s => ?_
  by_cases hs : frontName s ∈ reservedWords.map String.toList
  · have hnone : identifier? s = none := if_neg fun h => h.2 hs
    rw [hnone]
    exact (reads_reservedWord.takes (if_pos hs)).notAhead.both
  · have hahead := (reads_reservedWord.refuses (if_neg hs)).notAhead
    cases hn : startsName s with
    | true =>
      have hsome : identifier? s = some (behindName s) := if_pos ⟨hn, hs⟩
      rw [hsome]
      exact hahead.both (reads_nameChars.takes (if_pos hn))
    | false =>
      have hnone : identifier? s = none := if_neg fun h => by simp [hn] at h
      rw [hnone]
      exact hahead.both_refuses (reads_nameChars.refuses (if_neg (ne_true_of_eq_false hn)))

theorem takes_identifier (h : Takes identifier s rest) :
    startsName s = true ∧ frontName s ∉ reservedWords.map String.toList ∧ behindName s = rest := by
  have hread := reads_identifier.takes_iff.1 h
  unfold identifier? at hread
  split at hread
  · rename_i hcond
    exact ⟨hcond.1, hcond.2, Option.some.inj hread⟩
  · cases hread

/-! ## The gap -/

/-- What is left of a text by taking characters until the mark stands at the front. -/
def upTo (mark s : List Char) : List Char :=
  match cutAt? mark s with
  | some (_, rest) => mark ++ rest
  | none => []

theorem reads_star_anyBut (mark : List Char) :
    Reads (.star (.anyBut (.text mark))) fun s => some (upTo mark s) := by
  intro s
  show Takes _ s (upTo mark s)
  induction s with
  | nil =>
    have hrest : upTo mark [] = [] := by
      cases mark <;> rfl
    rw [hrest]
    refine Refuses.enough ?_
    cases hd : dropFront? mark [] with
    | some t => exact ((reads_text mark).takes hd).notAhead.both
    | none =>
      exact ((reads_text mark).refuses hd).notAhead.both_refuses ((reads_one _).refuses rfl)
  | cons c s ih =>
    cases hd : dropFront? mark (c :: s) with
    | some t =>
      have hrest : upTo mark (c :: s) = c :: s := by
        rw [upTo, cutAt?, hd]
        exact (eq_append_of_dropFront? hd).symm
      rw [hrest]
      exact ((reads_text mark).takes hd).notAhead.both.enough
    | none =>
      have hrest : upTo mark (c :: s) = upTo mark s := by
        rw [upTo, upTo, cutAt?, hd]
        cases cutAt? mark s <;> rfl
      rw [hrest]
      exact (((reads_text mark).refuses hd).notAhead.both ((reads_one _).takes rfl)).more ih

def comment? : List Char → Option (List Char)
  | '/' :: '*' :: s => (cutAt? ['*', '/'] s).map Prod.snd
  | '/' :: '/' :: s => some (s.dropWhile fun c => !isLineEnd c)
  | _ => none

theorem comment?_eq (s : List Char) :
    comment? s =
      (((dropFront? ['/', '*'] s).bind fun t => some (upTo ['*', '/'] t)).bind
        (dropFront? ['*', '/'])).or
      ((dropFront? ['/', '/'] s).bind fun t => some (t.dropWhile fun c => !isLineEnd c)) := by
  match s with
  | [] => rfl
  | [c] => by_cases hc : '/' = c <;> simp [comment?, dropFront?, hc]
  | c :: d :: s =>
    by_cases hc : c = '/'
    · subst hc
      by_cases hd : d = '*'
      · subst hd
        simp only [comment?, dropFront?, upTo, if_true, Option.bind_some]
        cases hcut : cutAt? ['*', '/'] s with
        | none => simp [dropFront?]
        | some cut => simp [dropFront?]
      · by_cases hd' : d = '/'
        · subst hd'
          simp [comment?, dropFront?]
        · simp [comment?, dropFront?, hd, hd', Ne.symm hd, Ne.symm hd']
    · simp [comment?, dropFront?, hc, Ne.symm hc]

theorem reads_comment : Reads comment comment? := by
  have hblock := (reads_text ['/', '*']).both
    ((reads_star_anyBut ['*', '/']).both (reads_text ['*', '/']))
  have hline := (reads_text ['/', '/']).both (reads_star_one fun c => !isLineEnd c)
  have h := hblock.either hline
  intro s
  rw [comment?_eq, Option.bind_assoc]
  exact h s

theorem comment?_length {s rest : List Char} (h : comment? s = some rest) :
    rest.length < s.length := by
  unfold comment? at h
  split at h
  · simp only [Option.map_eq_some_iff, Prod.exists, exists_eq_right] at h
    obtain ⟨before, hcut⟩ := h
    have := length_le_of_cutAt? hcut
    simp only [List.length_cons]
    omega
  · rename_i s
    cases h
    have := (s.dropWhile_suffix fun c => !isLineEnd c).length_le
    simp only [List.length_cons]
    omega
  · cases h

def skipGapBlanks (s : List Char) : List Char := s.dropWhile isGapBlank

theorem skipGapBlanks_length (s : List Char) : (skipGapBlanks s).length ≤ s.length :=
  (s.dropWhile_suffix isGapBlank).length_le

/-- What is left of a text behind the gap at its front. -/
def skipGap (s : List Char) : List Char :=
  match _comment : comment? (skipGapBlanks s) with
  | some rest => skipGap rest
  | none => skipGapBlanks s
termination_by s.length
decreasing_by
  have h := comment?_length _comment
  have hb := skipGapBlanks_length s
  omega

theorem takes_star_comment (s : List Char) :
    Takes (.star (.both comment (.star (.one isGapBlank)))) (skipGapBlanks s) (skipGap s) := by
  fun_induction skipGap s with
  | case1 s rest hc ih =>
    exact ((reads_comment.takes hc).both ((reads_star_one isGapBlank).takes rfl)).more ih
  | case2 s hc => exact (reads_comment.refuses hc).both.enough

theorem reads_gap : Reads gap fun s => some (skipGap s) := by
  intro s
  exact Takes.both ((reads_star_one isGapBlank).takes rfl) (takes_star_comment s)

theorem comment?_eq_none (hc : c ≠ '/') : comment? (c :: t) = none := by
  cases t with
  | nil => simp [comment?]
  | cons d t => simp [comment?, hc]

theorem skipGapBlanks_skipGapBlanks (s : List Char) :
    skipGapBlanks (skipGapBlanks s) = skipGapBlanks s := by
  unfold skipGapBlanks
  induction s with
  | nil => rfl
  | cons c s ih =>
    cases hc : isGapBlank c with
    | true => rwa [List.dropWhile_cons_of_pos hc]
    | false =>
      rw [List.dropWhile_cons_of_neg (ne_true_of_eq_false hc),
        List.dropWhile_cons_of_neg (ne_true_of_eq_false hc)]

theorem skipGap_eq_self {s : List Char} (hb : skipGapBlanks s = s) (hc : comment? s = none) :
    skipGap s = s := by
  unfold skipGap
  split
  · rename_i h
    rw [hb, hc] at h
    cases h
  · exact hb

theorem skipGap_skipGap (s : List Char) : skipGap (skipGap s) = skipGap s := by
  fun_induction skipGap s with
  | case1 s rest hc ih => exact ih
  | case2 s hc => exact skipGap_eq_self (skipGapBlanks_skipGapBlanks s) hc

theorem skipGap_cons {c : Char} {t : List Char} (hb : isGapBlank c = false)
    (hc : comment? (c :: t) = none) : skipGap (c :: t) = c :: t :=
  skipGap_eq_self (List.dropWhile_cons_of_neg (ne_true_of_eq_false hb)) hc

theorem skipGap_of_comment? (h : comment? (skipGapBlanks s) = some rest) :
    skipGap s = skipGap rest := by
  rw [skipGap]
  split
  · rename_i r hr
    rw [h] at hr
    cases hr
    rfl
  · rename_i hr
    rw [h] at hr
    cases hr

theorem skipGap_of_not_comment? (h : comment? (skipGapBlanks s) = none) :
    skipGap s = skipGapBlanks s := by
  rw [skipGap]
  split
  · rename_i r hr
    rw [h] at hr
    cases hr
  · rfl

theorem skipGap_blank {c : Char} (hc : isGapBlank c = true) (s : List Char) :
    skipGap (c :: s) = skipGap s := by
  have hblanks : skipGapBlanks (c :: s) = skipGapBlanks s := List.dropWhile_cons_of_pos hc
  cases h : comment? (skipGapBlanks s) with
  | some rest => rw [skipGap_of_comment? h, skipGap_of_comment? (hblanks ▸ h)]
  | none => rw [skipGap_of_not_comment? h, skipGap_of_not_comment? (hblanks ▸ h), hblanks]

theorem skipGap_blanks {w : List Char} (hw : ∀ c ∈ w, isGapBlank c = true) (s : List Char) :
    skipGap (w ++ s) = skipGap s := by
  induction w with
  | nil => rfl
  | cons c w ih =>
    obtain ⟨hc, hw⟩ := List.forall_mem_cons.1 hw
    exact (skipGap_blank hc _).trans (ih hw)

/-! ## Literals -/

def escape? (s : List Char) : Option (List Char) :=
  (dropFront? ['\\'] s).bind (one? fun _ => true)

theorem reads_escape : Reads escape escape? := (reads_text ['\\']).both (reads_one _)

/-- What is left by taking escapes, and characters up to one that stops. -/
def stretch (stop : Char → Bool) : List Char → List Char
  | '\\' :: _ :: s => stretch stop s
  | c :: s => if stop c then c :: s else stretch stop s
  | [] => []

theorem escape?_eq_none {c : Char} {s : List Char}
    (h : ∀ (d : Char) (t : List Char), c = '\\' → s = d :: t → False) :
    escape? (c :: s) = none := by
  unfold escape?
  by_cases hc : '\\' = c
  · cases s with
    | nil => simp [dropFront?, one?]
    | cons d t => exact absurd rfl (h d t hc.symm)
  · simp [dropFront?, hc]

theorem reads_stretch (stop : Char → Bool) :
    Reads (.star (.either escape (.one fun c => !stop c))) fun s => some (stretch stop s) := by
  intro s
  show Takes _ s (stretch stop s)
  fun_induction stretch stop s with
  | case1 c s ih => exact (reads_escape.takes rfl).either.more ih
  | case2 c s hne hc =>
    refine Refuses.enough (Refuses.either (reads_escape.refuses (escape?_eq_none hne)) ?_)
    exact (reads_one _).refuses (by simp [one?, hc])
  | case3 c s hne hc ih =>
    refine Takes.more (Refuses.either_takes (reads_escape.refuses (escape?_eq_none hne)) ?_) ih
    exact (reads_one _).takes (by simp [one?, hc])
  | case4 =>
    exact Refuses.enough (Refuses.either (reads_escape.refuses rfl) ((reads_one _).refuses rfl))

theorem stretch_suffix (stop : Char → Bool) (s : List Char) : stretch stop s <:+ s :=
  ((reads_stretch stop).takes rfl).suffix

/-- What a mark, a stretch and another mark take. -/
def enclosed? (opening : Char) (stop : Char → Bool) (closing : Char) (s : List Char) :
    Option (List Char) :=
  (dropFront? [opening] s).bind fun t => dropFront? [closing] (stretch stop t)

theorem enclosed?_eq_none {opening closing c : Char} {stop : Char → Bool} {t : List Char} (h : c ≠ opening) :
    enclosed? opening stop closing (c :: t) = none := by
  simp [enclosed?, dropFront?, Ne.symm h]

/-- The characters that end a stretch of a string with the given mark. -/
def stopsString (mark c : Char) : Bool := c == mark || c == '\\' || isLineEnd c

def string? (s : List Char) : Option (List Char) :=
  (enclosed? '\'' (stopsString '\'') '\'' s).or (enclosed? '"' (stopsString '"') '"' s)

theorem reads_enclosed (opening : Char) (stop : Char → Bool) (closing : Char) :
    Reads (.both (.text [opening])
      (.both (.star (.either escape (.one fun c => !stop c))) (.text [closing])))
      (enclosed? opening stop closing) :=
  (reads_text [opening]).both ((reads_stretch stop).both (reads_text [closing]))

theorem reads_string : Reads stringLiteral string? :=
  ((reads_enclosed '\'' _ '\'').either (reads_enclosed '"' _ '"')).token

theorem string?_eq_none (hc : c ≠ '\'' ∧ c ≠ '"') : string? (c :: t) = none := by
  simp [string?, enclosed?, dropFront?, Ne.symm hc.1, Ne.symm hc.2]

/-- What is left by taking again and again what a function takes, until it takes nothing more. -/
def repeated (f : List Char → Option (List Char)) (s : List Char) : List Char :=
  match f s with
  | some rest => if rest.length < s.length then repeated f rest else s
  | none => s
termination_by s.length

theorem Reads.star {a : Pattern Rule} {f : List Char → Option (List Char)} (ha : Reads a f)
    (hf : ∀ s rest, f s = some rest → rest.length < s.length) :
    Reads (.star a) fun s => some (repeated f s) := by
  intro s
  show Takes (.star a) s (repeated f s)
  fun_induction repeated f s with
  | case1 s rest hs hlt ih => exact (ha.takes hs).more ih
  | case2 s rest hs hlt => exact absurd (hf s rest hs) hlt
  | case3 s hs => exact (ha.refuses hs).enough

theorem length_lt_of_dropFront? {c : Char} {cs s rest : List Char}
    (h : dropFront? (c :: cs) s = some rest) : rest.length < s.length := by
  rw [eq_append_of_dropFront? h, List.length_append, List.length_cons]
  omega

theorem length_lt_of_one? {ok : Char → Bool} {s rest : List Char} (h : one? ok s = some rest) :
    rest.length < s.length := by
  cases s with
  | nil => cases h
  | cons c s =>
    simp only [one?] at h
    split at h
    · cases h
      simp
    · cases h

theorem length_lt_of_escape? {s rest : List Char} (h : escape? s = some rest) :
    rest.length < s.length := by
  obtain ⟨t, ht, hrest⟩ := Option.bind_eq_some_iff.1 h
  have h1 := length_lt_of_dropFront? ht
  have h2 := length_lt_of_one? hrest
  omega

theorem length_lt_of_enclosed? {opening closing : Char} {stop : Char → Bool}
    {s rest : List Char} (h : enclosed? opening stop closing s = some rest) :
    rest.length < s.length := by
  obtain ⟨t, ht, hrest⟩ := Option.bind_eq_some_iff.1 h
  have h1 := length_lt_of_dropFront? ht
  have h2 := length_lt_of_dropFront? hrest
  have h3 := (stretch_suffix stop t).length_le
  omega

/-! ### Regular expressions -/

/-- The characters that end a stretch in the brackets of a regular expression. -/
def stopsClass (c : Char) : Bool := c == ']' || isLineEnd c

/-- What one piece of a regular expression takes: an escape, brackets, or a character. -/
def regexPiece? (s : List Char) : Option (List Char) :=
  (escape? s).or ((enclosed? '[' stopsClass ']' s).or
    (one? (fun c => !(c == '/' || isLineEnd c)) s))

theorem length_lt_of_regexPiece? {s rest : List Char} (h : regexPiece? s = some rest) :
    rest.length < s.length := by
  rcases Option.or_eq_some_iff.1 h with h | ⟨-, h⟩
  · exact length_lt_of_escape? h
  · rcases Option.or_eq_some_iff.1 h with h | ⟨-, h⟩
    · exact length_lt_of_enclosed? h
    · exact length_lt_of_one? h

/-- What the inside of a regular expression takes: one piece at least. -/
def regexInside? (s : List Char) : Option (List Char) :=
  (regexPiece? s).bind fun t => some (repeated regexPiece? t)

/-- Whether a comment is open behind a slash. -/
def opensComment : List Char → Bool
  | c :: _ => c == '/' || c == '*'
  | [] => false

def regex? (s : List Char) : Option (List Char) :=
  (dropFront? ['/'] s).bind fun t =>
    if opensComment t then none
    else (regexInside? t).bind fun t => (dropFront? ['/'] t).bind fun t => some (behindName t)

theorem isSome_opensComment (t : List Char) :
    ((dropFront? ['/'] t).or (dropFront? ['*'] t)).isSome = opensComment t := by
  cases t with
  | nil => rfl
  | cons c t =>
    by_cases hc : c = '/'
    · simp [dropFront?, opensComment, hc]
    · by_cases hd : c = '*'
      · simp [dropFront?, opensComment, hd]
      · simp [dropFront?, opensComment, hc, hd, Ne.symm hc, Ne.symm hd]

theorem reads_regex : Reads regexLiteral regex? := by
  have hpiece : Reads _ regexPiece? :=
    reads_escape.either ((reads_enclosed '[' stopsClass ']').either
      (reads_one fun c => !(c == '/' || isLineEnd c)))
  have hinside := hpiece.both (hpiece.star fun s rest => length_lt_of_regexPiece?)
  have hend := (reads_text ['/']).both (reads_star_one isNameRest)
  have hahead := ((reads_text ['/']).either (reads_text ['*'])).notAhead
  have h := ((reads_text ['/']).both (hahead.both (hinside.both hend))).token
  refine h.congr fun s => Option.bind_congr fun t _ => ?_
  show Option.bind (if ((dropFront? ['/'] t).or (dropFront? ['*'] t)).isSome then none
    else some t) _ = _
  rw [isSome_opensComment]
  cases opensComment t with
  | true => rfl
  | false => rfl

theorem regex?_eq_some (h : regex? s = some rest) :
    ∃ t, s = '/' :: t ∧ opensComment t = false := by
  obtain ⟨t, ht, hrest⟩ := Option.bind_eq_some_iff.1 h
  refine ⟨t, eq_append_of_dropFront? ht, ?_⟩
  split at hrest
  · cases hrest
  · rename_i hopens
    simpa using hopens

/-! ### Template text -/

def templatePiece? (s : List Char) : Option (List Char) :=
  (escape? s).or
    (((dropFront? ['$'] s).bind fun t => if (dropFront? ['\x7b'] t).isSome then none else some t).or
      (one? (fun c => !(c == '\x60' || c == '\\' || c == '$')) s))

theorem length_lt_of_templatePiece? {s rest : List Char} (h : templatePiece? s = some rest) :
    rest.length < s.length := by
  rcases Option.or_eq_some_iff.1 h with h | ⟨-, h⟩
  · exact length_lt_of_escape? h
  · rcases Option.or_eq_some_iff.1 h with h | ⟨-, h⟩
    · obtain ⟨t, ht, hrest⟩ := Option.bind_eq_some_iff.1 h
      have hlt := length_lt_of_dropFront? ht
      split at hrest
      · cases hrest
      · cases hrest
        exact hlt
    · exact length_lt_of_one? h

def templateText? (s : List Char) : Option (List Char) :=
  (templatePiece? s).bind fun t => some (repeated templatePiece? t)

theorem reads_templateText : Reads templateChars templateText? := by
  have hpiece : Reads _ templatePiece? :=
    reads_escape.either (((reads_text ['$']).both (reads_text ['\x7b']).notAhead).either
      (reads_one fun c => !(c == '\x60' || c == '\\' || c == '$')))
  exact (hpiece.both (hpiece.star fun s rest => length_lt_of_templatePiece?)).token

/-! ### Numbers -/

def number? (s : List Char) : Option (List Char) := read? numberLiteral s

theorem reads_number : Reads numberLiteral number? := reads_read? (by decide +kernel)

end EventMarkup.Script
