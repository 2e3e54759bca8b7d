import EventMarkup.Proofs.Script.Exchange
import EventMarkup.Proofs.Script.Front

/-!
# Names in place of one another

The grammar knows names only by the words that it has tokens for and by those that are reserved.
Where other names are exchanged for one another, and none or both are reserved, a text stays a body
or stays none (`isBody_renamed`).
-/

namespace EventMarkup.Script

open Peg Text

variable {n m s t w : List Char} {p : Pattern Rule}

/-! ## Names -/

def spelledWords : List String :=
  ["if", "else", "while", "do", "for", "of", "in", "switch", "case", "default", "try", "catch",
    "finally", "return", "throw", "break", "continue", "var", "let", "const", "async", "function",
    "new", "this", "true", "false", "null", "instanceof", "typeof", "void", "delete"]

/-- A text that is one name. -/
structure IsName (n : List Char) : Prop where
  starts : startsName n = true
  rest : ∀ c ∈ n, isNameRest c = true

theorem IsName.exists_cons (h : IsName n) : ∃ c t, n = c :: t ∧ isNameStart c = true := by
  cases n with
  | nil => cases h.starts
  | cons c t => exact ⟨c, t, rfl, h.starts⟩

theorem reads_name : Reads name name? := reads_nameChars.token

theorem takes_name_iff : Takes name n [] ↔ IsName n := by
  rw [reads_name.takes_iff, name?]
  constructor
  · intro h
    split at h
    · rename_i hstarts
      refine ⟨hstarts, List.dropWhile_eq_nil_iff.1 (Option.some.inj h)⟩
    · cases h
  · intro h
    rw [if_pos h.starts]
    exact congrArg some (List.dropWhile_eq_nil_iff.2 h.rest)

theorem startsName_frontName (s : List Char) : startsName (frontName s) = startsName s := by
  cases s with
  | nil => rfl
  | cons c s =>
    cases hc : isNameRest c with
    | true => rw [frontName, List.takeWhile_cons_of_pos hc]; rfl
    | false =>
      rw [frontName, List.takeWhile_cons_of_neg (ne_true_of_eq_false hc)]
      exact (Bool.eq_false_iff.2 fun h =>
        ne_true_of_eq_false hc (isNameRest_of_isNameStart h)).symm

theorem name?_eq (s : List Char) :
    name? s = if startsName (frontName s) = true then some (behindName s) else none := by
  rw [name?, startsName_frontName]

theorem identifier?_eq (s : List Char) :
    identifier? s =
      if startsName (frontName s) = true ∧ frontName s ∉ reservedWords.map String.toList then
        some (behindName s)
      else none := by
  rw [identifier?, startsName_frontName]

theorem isNameRest_spelledWords : ∀ w ∈ spelledWords, ∀ c ∈ w.toList, isNameRest c = true := by
  have hall : (spelledWords.all fun w => w.toList.all isNameRest) = true := by decide +kernel
  simpa only [List.all_eq_true] using hall

/-- Two names that the grammar spells nowhere, and of which none or both are reserved. -/
structure Interchangeable (n m : List Char) : Prop where
  first : IsName n
  second : IsName m
  unspelled : ∀ w ∈ spelledWords, n ≠ w.toList ∧ m ≠ w.toList
  reserved : n ∈ reservedWords.map String.toList ↔ m ∈ reservedWords.map String.toList

namespace Renaming

/-! ## Places for names -/

/-- The marks of the tokens that a name may be inside of. -/
def enclosers : List Char := ['\'', '"', '\x60', '/']

/-- Whether a character may be part of a name, if a name is put in the place of each `#`. -/
def isPart (c : Char) : Bool := c == '#' || isNameRest c

/-- Whether two characters may stand side by side: no name runs on, and no number runs into
something that it may go on with. -/
def mayMeet (c d : Char) : Bool :=
  !(isPart c && isPart d && (c == '#' || d == '#')) &&
    (!c.isDigit || d.isDigit || numberLiteral.shuns [d])

/-- A text in which each `#` stands for a name. -/
structure IsForm (s : List Char) : Prop where
  apart : s.IsChain fun c d => mayMeet c d = true
  plain : ∀ c ∈ s, c ∉ enclosers

theorem not_mem_enclosers {c : Char} (hc : isNameRest c = true) : c ∉ enclosers := by
  have hall : (enclosers.all fun d => !isNameRest d) = true := by decide
  exact fun hmem => by simpa [hc] using List.all_eq_true.1 hall c hmem

theorem isBlank_of_isNameRest {c : Char} (hc : isNameRest c = true) : isBlank c = false :=
  Bool.eq_false_iff.2 fun h => ne_true_of_eq_false (isNameRest_of_isBlank h) hc

/-- Either name in the place of each `#`. -/
def exchange (h : Interchangeable n m) : Exchange where
  mark := '#'
  first := n
  second := m
  first_ne_nil := by
    obtain ⟨c, t, rfl, -⟩ := h.first.exists_cons
    nofun
  second_ne_nil := by
    obtain ⟨c, t, rfl, -⟩ := h.second.exists_cons
    nofun
  blank := .inr (List.forall_mem_append.2 ⟨fun c hc => isBlank_of_isNameRest (h.first.rest c hc),
    fun c hc => isBlank_of_isNameRest (h.second.rest c hc)⟩)
  semicolon := by
    have hname : isNameRest ';' = false := by decide
    simp only [List.mem_cons, List.mem_append, not_or]
    exact ⟨by decide, fun hmem => ne_true_of_eq_false hname (h.first.rest _ hmem),
      fun hmem => ne_true_of_eq_false hname (h.second.rest _ hmem)⟩
  Admits := IsForm
  admits_of_append hs := ⟨hs.apart.right_of_append, fun c hc => hs.plain c (List.mem_append_right _ hc)⟩
  admits_semicolon {y s} hs := by
    have hpart : isPart ';' = false := by decide
    have hdigit : ';'.isDigit = false := by decide
    have hshuns : numberLiteral.shuns [';'] = true := by decide +kernel
    refine ⟨isChain_semicolon hs.apart (fun c => ?_) fun c => ?_, fun c hc => ?_⟩
    · simp [mayMeet, hpart, hshuns]
    · simp [mayMeet, hpart, hdigit]
    · rcases List.mem_append.1 hc with hc | hc
      · exact hs.plain c (List.mem_append_left _ hc)
      · rcases List.mem_cons.1 hc with rfl | hc
        · decide
        · exact hs.plain c (List.mem_append_right _ hc)

/-! ## Tokens -/

theorem IsForm.tail {c : Char} (hs : IsForm (c :: s)) : IsForm s :=
  ⟨hs.apart.tail, fun d hd => hs.plain d (List.mem_cons_of_mem c hd)⟩

theorem IsForm.meets {c d : Char} (hs : IsForm (c :: d :: s)) : mayMeet c d = true :=
  (List.isChain_cons_cons.1 hs.apart).1

theorem mem_filled {mark c : Char} (h : c ∈ filled mark w s) : c ∈ w ∨ c ∈ s := by
  obtain ⟨d, hd, hc⟩ := List.mem_flatMap.1 h
  split at hc
  · exact .inl hc
  · exact .inr (List.mem_singleton.1 hc ▸ hd)

theorem IsForm.not_mem_enclosers (hs : IsForm s) (hw : IsName w) :
    ∀ c ∈ filled '#' w s, c ∉ enclosers := fun c hc =>
  (mem_filled hc).elim (fun h => Renaming.not_mem_enclosers (hw.rest c h)) (hs.plain c)

theorem one?_filled (hs : IsForm ('#' :: s)) : one? isNameRest (filled '#' w s) = none := by
  cases s with
  | nil => rfl
  | cons d s =>
    have hmeets := hs.meets
    simp only [mayMeet, isPart, beq_self_eq_true, Bool.true_or, Bool.true_and, Bool.and_true,
      Bool.and_eq_true, Bool.not_eq_true', Bool.or_eq_false_iff, beq_eq_false_iff_ne] at hmeets
    rw [filled_cons hmeets.1.1]
    exact if_neg (ne_true_of_eq_false hmeets.1.2)

theorem frontName_filled_mark (hw : IsName w) (hs : IsForm ('#' :: s)) :
    frontName (filled '#' w ('#' :: s)) = w ∧
      behindName (filled '#' w ('#' :: s)) = filled '#' w s := by
  rw [filled_mark]
  exact frontName_eq hw.rest (one?_filled hs)

theorem frontName_filled (hs : IsForm s) (hhead : s.head? ≠ some '#') :
    frontName (filled '#' w s) = frontName s ∧
      behindName (filled '#' w s) = filled '#' w (behindName s) := by
  induction s with
  | nil => exact ⟨rfl, rfl⟩
  | cons c s ih =>
    have hc : c ≠ '#' := fun h => hhead (congrArg some h)
    rw [filled_cons hc]
    unfold frontName behindName at ih ⊢
    cases hrest : isNameRest c with
    | false =>
      have hrest := ne_true_of_eq_false hrest
      rw [List.takeWhile_cons_of_neg hrest, List.takeWhile_cons_of_neg hrest,
        List.dropWhile_cons_of_neg hrest, List.dropWhile_cons_of_neg hrest, filled_cons hc]
      exact ⟨rfl, rfl⟩
    | true =>
      have hnext : s.head? ≠ some '#' := by
        intro h
        obtain ⟨t, rfl⟩ := List.head?_eq_some_iff.1 h
        have hmeets := hs.meets
        simp [mayMeet, isPart, hrest] at hmeets
      obtain ⟨hfront, hbehind⟩ := ih hs.tail hnext
      rw [List.takeWhile_cons_of_pos hrest, List.takeWhile_cons_of_pos hrest,
        List.dropWhile_cons_of_pos hrest, List.dropWhile_cons_of_pos hrest, hfront, hbehind]
      exact ⟨rfl, rfl⟩

theorem skipGapBlanks_filled (hw : IsName w) :
    skipGapBlanks (filled '#' w s) = filled '#' w (skipGapBlanks s) := by
  obtain ⟨d, t, rfl, hd⟩ := hw.exists_cons
  unfold skipGapBlanks
  induction s with
  | nil => rfl
  | cons c s ih =>
    by_cases hc : c = '#'
    · subst hc
      rw [List.dropWhile_cons_of_neg (by decide), filled_mark, List.cons_append,
        List.dropWhile_cons_of_neg (ne_true_of_eq_false (isGapBlank_of_isNameStart hd))]
    · rw [filled_cons hc]
      cases hblank : isGapBlank c with
      | true => rw [List.dropWhile_cons_of_pos hblank, List.dropWhile_cons_of_pos hblank, ih]
      | false =>
        have hblank := ne_true_of_eq_false hblank
        rw [List.dropWhile_cons_of_neg hblank, List.dropWhile_cons_of_neg hblank, filled_cons hc]

theorem skipGap_filled (hs : IsForm s) (hw : IsName w) :
    skipGap (filled '#' w s) = filled '#' w (skipGapBlanks s) := by
  have hslash : '/' ∉ filled '#' w s := fun hmem =>
    hs.not_mem_enclosers hw '/' hmem (by decide)
  exact (skipGap_of_not_mem hslash).trans (skipGapBlanks_filled hw)

/-! ### Literals -/

theorem string?_eq_none_of_plain (hs : ∀ c ∈ s, c ∉ enclosers) : string? s = none := by
  cases s with
  | nil => rfl
  | cons c s =>
    have hc := hs c List.mem_cons_self
    simp only [enclosers, List.mem_cons, not_or] at hc
    exact string?_eq_none ⟨hc.1, hc.2.1⟩

theorem regex?_eq_none_of_plain (hs : ∀ c ∈ s, c ∉ enclosers) : regex? s = none := by
  cases hread : regex? s with
  | none => rfl
  | some rest =>
    obtain ⟨t, rfl, -⟩ := regex?_eq_some hread
    exact absurd (hs '/' List.mem_cons_self) (by decide)

theorem runs_templateLiteral (hs : ∀ c ∈ s, c ∉ enclosers) :
    Runs Rule.pattern (.rule .templateLiteral) s (.failed (some 0)) := by
  have hopen : dropFront? ['\x60'] s = none := by
    cases hd : dropFront? ['\x60'] s with
    | none => rfl
    | some t =>
      rw [eq_append_of_dropFront? hd] at hs
      exact absurd (hs '\x60' (by simp)) (by decide)
  exact .rule (.phrase (.bothFails (.textFails hopen)) rfl) rfl

/-! ### Numbers -/

theorem isNameRest_of_isDigit {c : Char} (hc : c.isDigit = true) : isNameRest c = true := by
  simp [isNameRest, isXidContinue, Char.isAlphanum, hc]

theorem startsNumber_of_isNameStart {c : Char} (hc : isNameStart c = true) :
    startsNumber c = false :=
  Bool.eq_false_iff.2 fun h => ne_true_of_eq_false (isNameStart_of_startsNumber h) hc

theorem number?_dot (hs : ∀ c ∈ s.head?, c.isDigit = false) : number? ('.' :: s) = none := by
  have hdigits : ∀ {t : List Char}, (∀ c ∈ t.head?, c.isDigit = false) → Refuses digits t := by
    intro t ht
    refine ((reads_one _).refuses ?_).both
    cases t with
    | nil => rfl
    | cons c t => exact if_neg (ne_true_of_eq_false (ht c rfl))
  have hbased : ∀ {lower upper : String} {isDigit : Char → Bool},
      dropFront? lower.toList ('.' :: s) = none → dropFront? upper.toList ('.' :: s) = none →
      Refuses (basedNumber lower upper isDigit) ('.' :: s) := fun hlower hupper =>
    (((reads_text _).refuses hlower).either ((reads_text _).refuses hupper)).both
  have hdecimal : Refuses decimalNumber ('.' :: s) := by
    have hwhole : Refuses (.both digits (.optional (.both (.lit ".") (.star (.one Char.isDigit)))))
        ('.' :: s) := (hdigits (by simp)).both
    have hpart : Refuses (.both (.lit ".") digits) ('.' :: s) :=
      ((reads_text _).takes rfl : Takes (.lit ".") ('.' :: s) s).both_refuses (hdigits hs)
    exact (hwhole.either hpart).both
  refine reads_number.refuses_iff.1 (Refuses.token (Refuses.both (refuses_oneOf ?_)))
  simp only [List.forall_mem_cons, List.not_mem_nil, false_implies, implies_true, and_true]
  exact ⟨hbased rfl rfl, hbased rfl rfl, hbased rfl rfl, hdecimal⟩

theorem number?_filled (hw : IsName w) (hs : s.head?.any startsNumber = false) :
    number? (filled '#' w s) = none := by
  obtain ⟨e, u, rfl, he⟩ := hw.exists_cons
  cases s with
  | nil => exact (by decide +kernel : number? [] = none)
  | cons c s =>
    by_cases hc : c = '#'
    · subst hc
      rw [filled_mark]
      exact number?_eq_none (mayStart_number (startsNumber_of_isNameStart he))
    · rw [filled_cons hc]
      exact number?_eq_none (mayStart_number hs)

theorem number?_filled_dot (hw : IsName w) (hs : ∀ c ∈ s.head?, c.isDigit = false) :
    number? (filled '#' w ('.' :: s)) = none := by
  obtain ⟨e, u, rfl, he⟩ := hw.exists_cons
  rw [filled_cons (by decide)]
  refine number?_dot fun d hd => ?_
  cases s with
  | nil => cases hd
  | cons c s =>
    by_cases hc : c = '#'
    · subst hc
      rw [filled_mark] at hd
      cases hd
      exact (Bool.or_eq_false_iff.1 (startsNumber_of_isNameStart he)).1
    · rw [filled_cons hc] at hd
      cases hd
      exact hs d rfl

theorem exists_digits (s : List Char) : ∃ z u, s = z ++ u ∧ (∀ c ∈ z, c.isDigit = true) ∧
    ∀ c ∈ u.head?, c.isDigit = false := by
  refine ⟨_, _, List.takeWhile_append_dropWhile.symm,
    List.all_eq_true.1 (List.all_takeWhile (p := Char.isDigit)), fun c hc => ?_⟩
  have hdrop := List.head?_dropWhile_not Char.isDigit s
  rwa [Option.mem_def.1 hc] at hdrop

theorem shuns_behind_digit {z : List Char} {e : Char} (hs : IsForm (z ++ s)) (he : e ∈ z.getLast?)
    (hdigit : e.isDigit = true) (hhead : ∀ c ∈ s.head?, c.isDigit = false) :
    numberLiteral.shuns (filled '#' w s) = true := by
  cases s with
  | nil => exact (by decide : numberLiteral.shuns [] = true)
  | cons c s =>
    have hmeets := (List.isChain_append.1 hs.apart).2.2 e he c rfl
    have hc := hhead c rfl
    have hpart := isNameRest_of_isDigit hdigit
    simp only [mayMeet, hdigit, hc, hpart, isPart, Bool.or_true, Bool.true_and, Bool.not_true,
      Bool.false_or, Bool.and_eq_true, Bool.not_eq_true', Bool.and_eq_false_imp] at hmeets
    have hne : c ≠ '#' := by
      rintro rfl
      simp at hmeets
    rw [filled_cons hne, Pattern.shuns_cons]
    exact hmeets.2

section Tokens

variable (h : Interchangeable n m)
include h

theorem parallels_named {P : List Char → Prop} [DecidablePred P]
    (hp : Reads p fun s => if P (frontName s) then some (behindName s) else none)
    (hP : P n ↔ P m) : (exchange h).Parallels p := by
  intro s hs
  refine Exchange.together_of_reads hp ?_
  by_cases hhead : s.head? = some '#'
  · obtain ⟨t, rfl⟩ := List.head?_eq_some_iff.1 hhead
    obtain ⟨hfront, hbehind⟩ := frontName_filled_mark h.first hs
    obtain ⟨hfront', hbehind'⟩ := frontName_filled_mark h.second hs
    simp only [Exchange.left, Exchange.right, exchange, hfront, hbehind, hfront', hbehind', ← hP]
    by_cases hn : P n
    · exact .inr ⟨['#'], t, rfl, if_pos hn, if_pos hn⟩
    · exact .inl ⟨if_neg hn, if_neg hn⟩
  · obtain ⟨hfront, hbehind⟩ := frontName_filled (w := n) hs hhead
    obtain ⟨hfront', hbehind'⟩ := frontName_filled (w := m) hs hhead
    simp only [Exchange.left, Exchange.right, exchange, hfront, hbehind, hfront', hbehind']
    by_cases hn : P (frontName s)
    · exact .inr ⟨_, _, (frontName_append_behindName s).symm, if_pos hn, if_pos hn⟩
    · exact .inl ⟨if_neg hn, if_neg hn⟩

theorem parallels_word {v : String} (hv : v ∈ spelledWords) :
    (exchange h).Parallels (word v) := by
  obtain ⟨hn, hm⟩ := h.unspelled v hv
  exact parallels_named h (P := (· = v.toList)) (reads_word (isNameRest_spelledWords v hv))
    (by simp [hn, hm])

theorem parallels_name : (exchange h).Parallels name := by
  refine parallels_named h (P := fun w => startsName w = true) (reads_name.congr name?_eq) ?_
  rw [h.first.starts, h.second.starts]

theorem parallels_identifier : (exchange h).Parallels identifier := by
  refine parallels_named h (P := fun w => startsName w = true ∧ w ∉ reservedWords.map String.toList)
    (reads_identifier.congr identifier?_eq) ?_
  rw [h.reserved, h.first.starts, h.second.starts]

theorem parallels_gap : (exchange h).Parallels gap := by
  intro s hs
  refine Exchange.together_of_reads reads_gap (.inr ⟨s.takeWhile isGapBlank, skipGapBlanks s,
    List.takeWhile_append_dropWhile.symm, congrArg some ?_, congrArg some ?_⟩)
  · exact skipGap_filled hs h.first
  · exact skipGap_filled hs h.second

theorem parallels_of_enclosed {f : List Char → Option (List Char)} (hp : Reads p f)
    (hf : ∀ s, (∀ c ∈ s, c ∉ enclosers) → f s = none) : (exchange h).Parallels p := fun _ hs =>
  .inl ⟨hp.refuses (hf _ (hs.not_mem_enclosers h.first)),
    hp.refuses (hf _ (hs.not_mem_enclosers h.second))⟩

theorem parallels_string : (exchange h).Parallels stringLiteral :=
  parallels_of_enclosed h reads_string fun _ hs => string?_eq_none_of_plain hs

theorem parallels_regex : (exchange h).Parallels regexLiteral :=
  parallels_of_enclosed h reads_regex fun _ hs => regex?_eq_none_of_plain hs

theorem parallels_number : (exchange h).Parallels numberLiteral := by
  intro s hs
  cases hstarts : s.head?.any startsNumber with
  | false =>
    exact Exchange.together_of_reads reads_number
      (.inl ⟨number?_filled h.first hstarts, number?_filled h.second hstarts⟩)
  | true =>
    obtain ⟨c, s, rfl⟩ := List.exists_cons_of_ne_nil (l := s) (by rintro rfl; cases hstarts)
    have hstarts : startsNumber c = true := hstarts
    -- what the number takes ends behind the digits at the front, or the dot starts none
    obtain ⟨z, u, rfl, hz, hhead⟩ := exists_digits s
    by_cases hdigit : c.isDigit = true ∨ z ≠ []
    · obtain ⟨e, he, hlast⟩ : ∃ e ∈ (c :: z).getLast?, e.isDigit = true := by
        rcases List.eq_nil_or_concat' z with rfl | ⟨y, e, rfl⟩
        · exact ⟨c, rfl, hdigit.resolve_right (· rfl)⟩
        · exact ⟨e, (List.getLast?_concat : (c :: y ++ [e]).getLast? = some e), hz e (by simp)⟩
      have hno : '#' ∉ c :: z := by
        rw [List.mem_cons, not_or]
        refine ⟨?_, fun hmem => absurd (hz '#' hmem) (by decide)⟩
        rintro rfl
        exact absurd hstarts (ne_true_of_eq_false (by decide : startsNumber '#' = false))
      obtain ⟨x, hx⟩ := reads_number.exists_run ((exchange h).left (c :: z ++ u))
      have hform : IsForm (c :: z ++ u) := hs
      exact Exchange.together_of_split (z := c :: z) hno (shuns_behind_digit hform he hlast hhead)
        (shuns_behind_digit hform he hlast hhead) hx
    · obtain ⟨hc, rfl⟩ : c.isDigit = false ∧ z = [] := by simpa using hdigit
      obtain rfl : c = '.' := by simpa [startsNumber, hc] using hstarts
      exact Exchange.together_of_reads reads_number
        (.inl ⟨number?_filled_dot h.first hhead, number?_filled_dot h.second hhead⟩)

theorem together_of_spelled {x : Reply Rule}
    (hp : ∀ c, isNameStart c = true → p.shuns [c] = true)
    (hx : Runs Rule.pattern p ((exchange h).left s) x) : (exchange h).Together p s := by
  have hshuns : ∀ {w : List Char}, IsName w → p.shuns w = true := by
    intro w hw
    obtain ⟨c, t, rfl, hc⟩ := hw.exists_cons
    rw [Pattern.shuns_cons]
    exact hp c hc
  exact Exchange.together_of_shuns (hshuns h.first) (hshuns h.second) hx

/-! ## Bodies -/

/-- The tokens that take a name as a whole, if they take one. -/
def takesNamesWhole : Leaf → Bool
  | .mark m => m != .hole
  | .operator s => s.toList.all fun c => !isPart c
  | .word w => w ∈ spelledWords
  | .templateText => false
  | _ => true

theorem together_leaf {l : Leaf} (hl : takesNamesWhole l = true) {x : Reply Rule} (hs : IsForm s)
    (hx : Runs Rule.pattern l.pattern ((exchange h).left s) x) :
    (exchange h).Together l.pattern s := by
  have hlit : ∀ {v : String}, (v.toList.all fun c => !isPart c) = true →
      ∀ c, isNameStart c = true → (Pattern.lit v : Pattern Rule).shuns [c] = true := by
    intro v hv c hc
    have hmem : c ∉ v.toList := fun hmem => by
      simpa [isPart, isNameRest_of_isNameStart hc] using List.all_eq_true.1 hv c hmem
    simp [Pattern.lit, Pattern.shuns, hmem]
  cases l with
  | mark mk =>
    refine together_of_spelled h (hlit ?_) hx
    cases mk <;> first | decide | cases hl
  | operator v => exact together_of_spelled h (hlit hl) hx
  | assigned =>
    refine together_of_spelled h (fun c hc => ?_) hx
    have hequal := hlit (v := "=") (by decide) c hc
    have harrow := hlit (v := ">") (by decide) c hc
    simp [Leaf.pattern, Pattern.shuns, hequal, harrow]
  | word v => exact parallels_word h (by simpa [takesNamesWhole] using hl) s hs
  | identifier => exact parallels_identifier h s hs
  | name => exact parallels_name h s hs
  | string => exact parallels_string h s hs
  | number => exact parallels_number h s hs
  | regex => exact parallels_regex h s hs
  | gap => exact parallels_gap h s hs
  | pause =>
    have hcurly : ∀ {w : List Char}, IsName w → '\x7d' ∉ w := fun hw hmem =>
      absurd (hw.rest _ hmem) (by decide)
    refine Exchange.parallels_pause ?_ s hs
    rw [List.mem_append, not_or]
    exact ⟨hcurly h.first, hcurly h.second⟩
  | templateText => cases hl

theorem maintains_templateLiteral : (exchange h).lockstep.Maintains (.rule .templateLiteral) := by
  refine Lockstep.maintains_of_runs fun s x hx => ?_
  rw [hx.unique (runs_templateLiteral (s.2.not_mem_enclosers h.first))]
  exact ⟨_, runs_templateLiteral (s.2.not_mem_enclosers h.second), .failed .zero⟩

theorem maintains_or_consistsOf {r : Rule} (hr : (r != .templateHole) = true) :
    (exchange h).lockstep.Maintains (.rule r) ∨
      (Shape.ofRule r).consistsOf takesNamesWhole (· != .templateHole) = true := by
  by_cases hliteral : r = .templateLiteral
  · exact .inl (hliteral ▸ maintains_templateLiteral h)
  · refine .inr ?_
    cases r <;> first | exact absurd rfl hliteral | exact absurd hr (by decide) | decide +kernel

def vocabulary : (exchange h).lockstep.Vocabulary :=
  (exchange h).vocabulary takesNamesWhole (· != .templateHole)
    (fun _ hl _ _ hs hx => together_leaf h hl hs hx) rfl
    (fun _ hr => maintains_or_consistsOf h hr) (by decide +kernel)

end Tokens

end Renaming

/-- The grammar tells names apart only by the words that it spells and those that are reserved. -/
theorem isBody_renamed (h : Interchangeable n m) (hs : Renaming.IsForm s) :
    isBody (String.ofList (filled '#' n s)) = isBody (String.ofList (filled '#' m s)) := by
  have hsame := Exchange.isBody_eq (Renaming.vocabulary h) rfl hs
  exact hsame

end EventMarkup.Script
