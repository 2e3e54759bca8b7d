import EventMarkup.Proofs.Script.Enclosure
import EventMarkup.Proofs.Script.Stops
import EventMarkup.Proofs.Spelling

/-!
# Tokens in front of a tail

There are blanks that no gap takes. What is read behind the start of a line gets past such a blank
only inside of a string, a regular expression, a comment of several lines or template text, and all
of these but the last must be closed. So if nothing behind the blank closes anything, a token in
front of it is read in the same way whatever follows (`Parallel`). Template text may go on up to the
end of the text, or to a backslash there (`templateText?_tail`).
-/

namespace EventMarkup.Script

open Peg Text

variable {s t u v y z rest : List Char}

/-- The characters that close something, or that the marks which do so are made of. -/
def closers : List Char := ['\'', '"', '\x60', '$', '\x7b', ']', '/', '*']

/-- A text that begins with a blank which no gap takes, and closes nothing that is open. -/
structure Tail (t : List Char) : Prop where
  first : ∃ c ∈ t.head?, isBlank c = true ∧ isGapBlank c = false
  plain : ∀ c ∈ t, c ∉ closers

/-- The last line has only blanks of the gap. -/
def Edge (z : List Char) : Prop :=
  ∀ v c w, z = v ++ c :: w → (∀ d ∈ w, isLineEnd d = false) → isGapBlank c = true

theorem Edge.suffix (h : Edge (y ++ z)) : Edge z := by
  rintro v c w rfl hw
  exact h (y ++ v) c w (by simp) hw

/-- The reader takes nothing of the two texts, or it stops at the same place in front of their
tails. -/
def Parallel (f : List Char → Option (List Char)) (z u v : List Char) : Prop :=
  f (z ++ u) = none ∧ f (z ++ v) = none ∨
    ∃ y z', z = y ++ z' ∧ f (z ++ u) = some (z' ++ u) ∧ f (z ++ v) = some (z' ++ v)

theorem Tail.exists_of_append (hu : Tail u) {c : Char} {r : List Char} (hc : c ∈ closers)
    (h : z ++ u = y ++ c :: r) : ∃ z', z = y ++ c :: z' ∧ r = z' ++ u := by
  rcases exists_of_append_eq_append h with ⟨z', rfl⟩ | ⟨vs, rfl, rfl⟩
  · refine ⟨z', rfl, ?_⟩
    rw [List.append_assoc] at h
    simpa using (List.append_cancel_left h).symm
  · exact absurd hc (hu.plain c (by simp))

/-- A reader whose last mark closes something, and that is not concerned with what follows it. -/
theorem parallel_of_inside {f : List Char → Option (List Char)} (hu : Tail u) (hv : Tail v)
    (hends : ∀ {t rest}, Tail t → f (z ++ t) = some rest → ∃ y z', z = y ++ z' ∧ rest = z' ++ t)
    (hinside : ∀ {t t' z'}, Tail t → Tail t' → f (z ++ t) = some (z' ++ t) →
      f (z ++ t') = some (z' ++ t')) : Parallel f z u v := by
  cases hf : f (z ++ u) with
  | some rest =>
    obtain ⟨y, z', hz, rfl⟩ := hends hu hf
    exact .inr ⟨y, z', hz, hf, hinside hu hv hf⟩
  | none =>
    refine .inl ⟨hf, ?_⟩
    cases hf' : f (z ++ v) with
    | none => rfl
    | some rest =>
      obtain ⟨y, z', -, rfl⟩ := hends hv hf'
      rw [hinside hv hu hf'] at hf
      cases hf

/-! ## Gaps -/

theorem Tail.head (hu : Tail u) : ∃ c t, u = c :: t ∧ isBlank c = true ∧ isGapBlank c = false := by
  obtain ⟨c, hc, hblank⟩ := hu.first
  obtain ⟨t, rfl⟩ := List.head?_eq_some_iff.1 hc
  exact ⟨c, t, rfl, hblank⟩

theorem Tail.ne_of_isBlank_eq_false (hu : Tail u) {c : Char} (hc : isBlank c = false)
    (t : List Char) : u ≠ c :: t := by
  rintro rfl
  obtain ⟨d, t', h, hd, -⟩ := hu.head
  cases h
  exact ne_true_of_eq_false hc hd

theorem isGapBlank_of_isLineEnd {c : Char} (h : isLineEnd c = true) : isGapBlank c = true := by
  simp only [isLineEnd, Bool.or_eq_true, beq_iff_eq] at h
  rcases h with ((rfl | rfl) | rfl) | rfl <;> rfl

theorem cutAt?_tail (hu : Tail u) (hv : Tail v) (z : List Char) :
    cutAt? ['*', '/'] (z ++ u) = none ∧ cutAt? ['*', '/'] (z ++ v) = none ∨
      ∃ before y z', z = y ++ z' ∧ cutAt? ['*', '/'] (z ++ u) = some (before, z' ++ u) ∧
        cutAt? ['*', '/'] (z ++ v) = some (before, z' ++ v) := by
  cases hcut : cutAt? ['*', '/'] z with
  | some cut =>
    obtain ⟨before, z'⟩ := cut
    exact .inr ⟨before, before ++ ['*', '/'], z', eq_append_of_cutAt? hcut, cutAt?_append hcut,
      cutAt?_append hcut⟩
  | none =>
    have hnone : ∀ {t}, Tail t → cutAt? ['*', '/'] (z ++ t) = none := by
      intro t ht
      refine cutAt?_eq_none_iff.2 fun ⟨front, back, h⟩ => cutAt?_eq_none_iff.1 hcut ?_
      have h : z ++ t = front ++ '*' :: ('/' :: back) := by simpa using h.symm
      obtain ⟨z', rfl, hz'⟩ := ht.exists_of_append (by simp [closers]) h
      cases z' with
      | nil => exact absurd hz'.symm (ht.ne_of_isBlank_eq_false rfl back)
      | cons c z' =>
        cases hz'
        exact ⟨front, z', by simp⟩
    exact .inl ⟨hnone hu, hnone hv⟩

theorem comment?_tail (hu : Tail u) (hv : Tail v) (hz : Edge z) : Parallel comment? z u v := by
  have hshort : ∀ {t : List Char} {c : Char}, Tail t → comment? (c :: t) = none := by
    intro t c ht
    obtain ⟨d, t', rfl, hd, -⟩ := ht.head
    rw [comment?]
    · rintro s h
      cases h
      cases hd
    · rintro s h
      cases h
      cases hd
  have hnil : ∀ {t : List Char}, Tail t → comment? t = none := by
    intro t ht
    obtain ⟨d, t', rfl, hd, -⟩ := ht.head
    refine comment?_eq_none ?_
    rintro rfl
    cases hd
  rcases z with _ | ⟨c, _ | ⟨d, z⟩⟩
  · exact .inl ⟨hnil hu, hnil hv⟩
  · exact .inl ⟨hshort hu, hshort hv⟩
  · by_cases hc : c = '/'
    · subst hc
      by_cases hd : d = '*'
      · subst hd
        rcases cutAt?_tail hu hv z with ⟨hcut, hcut'⟩ | ⟨before, y, z', rfl, hcut, hcut'⟩
        · exact .inl ⟨by simp [comment?, hcut], by simp [comment?, hcut']⟩
        · exact .inr ⟨'/' :: '*' :: y, z', rfl, congrArg (Option.map Prod.snd) hcut,
            congrArg (Option.map Prod.snd) hcut'⟩
      · by_cases hd' : d = '/'
        · subst hd'
          -- the line of the comment ends in front of the tail, since its slashes are no blanks
          have hend : (z.dropWhile fun c => !isLineEnd c).isEmpty = false := by
            rw [Bool.eq_false_iff]
            intro hempty
            have hall := List.dropWhile_eq_nil_iff.1 (List.isEmpty_iff.1 hempty)
            exact absurd (hz ['/'] '/' z rfl fun d hd => by simpa using hall d hd) (by decide)
          refine .inr ⟨'/' :: '/' :: z.takeWhile fun c => !isLineEnd c,
            z.dropWhile fun c => !isLineEnd c, ?_, ?_, ?_⟩
          · simp
          · simp [comment?, List.dropWhile_append, hend]
          · simp [comment?, List.dropWhile_append, hend]
        · exact .inl ⟨by simp [comment?, hd, hd'], by simp [comment?, hd, hd']⟩
    · exact .inl ⟨comment?_eq_none hc, comment?_eq_none hc⟩

theorem skipGapBlanks_tail (hu : Tail u) (z : List Char) :
    skipGapBlanks (z ++ u) = skipGapBlanks z ++ u := by
  unfold skipGapBlanks
  rw [List.dropWhile_append]
  split
  · rename_i hempty
    obtain ⟨c, t, rfl, -, hc⟩ := hu.head
    rw [List.isEmpty_iff.1 hempty, List.dropWhile_cons_of_neg (ne_true_of_eq_false hc)]
    rfl
  · rfl

theorem skipGap_tail (hu : Tail u) (hv : Tail v) (z : List Char) (hz : Edge z) :
    ∃ y z', z = y ++ z' ∧ skipGap (z ++ u) = z' ++ u ∧ skipGap (z ++ v) = z' ++ v := by
  have hblanks : z.takeWhile isGapBlank ++ skipGapBlanks z = z := List.takeWhile_append_dropWhile
  have hedge : Edge (skipGapBlanks z) := Edge.suffix (hblanks.symm ▸ hz)
  rcases comment?_tail hu hv hedge with ⟨hc, hc'⟩ | ⟨y, z', hz', hc, hc'⟩
  · rw [← skipGapBlanks_tail hu] at hc
    rw [← skipGapBlanks_tail hv] at hc'
    refine ⟨_, _, hblanks.symm, ?_, ?_⟩
    · rw [skipGap_of_not_comment? hc, skipGapBlanks_tail hu]
    · rw [skipGap_of_not_comment? hc', skipGapBlanks_tail hv]
  · have hlt : z'.length < z.length := by
      have hshort := comment?_length hc
      have hle := skipGapBlanks_length z
      simp only [List.length_append] at hshort
      omega
    obtain ⟨x, z'', rfl, hs, hs'⟩ := skipGap_tail hu hv z' (Edge.suffix (hz' ▸ hedge))
    rw [← skipGapBlanks_tail hu] at hc
    rw [← skipGapBlanks_tail hv] at hc'
    refine ⟨z.takeWhile isGapBlank ++ (y ++ x), z'', ?_, ?_, ?_⟩
    · rw [List.append_assoc, List.append_assoc, ← hz', hblanks]
    · rw [skipGap_of_comment? hc, hs]
    · rw [skipGap_of_comment? hc', hs']
termination_by z.length

/-! ## Literals -/

theorem exists_of_enclosed? {opening closing : Char} {stop : Char → Bool}
    (h : enclosed? opening stop closing s = some rest) : ∃ y, s = y ++ closing :: rest := by
  obtain ⟨t, ht, hrest⟩ := Option.bind_eq_some_iff.1 h
  obtain ⟨x, hx⟩ := stretch_suffix stop t
  have hclose : stretch stop t = closing :: rest := eq_append_of_dropFront? hrest
  refine ⟨opening :: x, ?_⟩
  rw [eq_append_of_dropFront? ht, ← hx, hclose]
  rfl

theorem Tail.exists_of_enclosed? {opening closing : Char} {stop : Char → Bool} (ht : Tail t)
    (hc : closing ∈ closers) (h : enclosed? opening stop closing (z ++ t) = some rest) :
    ∃ y z', z = y ++ z' ∧ rest = z' ++ t := by
  obtain ⟨y, hy⟩ := Script.exists_of_enclosed? h
  obtain ⟨z', rfl, hrest⟩ := ht.exists_of_append hc hy
  exact ⟨y ++ [closing], z', by simp, hrest⟩

theorem string?_tail (hu : Tail u) (hv : Tail v) (z : List Char) : Parallel string? z u v := by
  refine parallel_of_inside hu hv (fun ht h => ?_) fun _ _ => string?_inside
  rcases Option.or_eq_some_iff.1 h with h | ⟨-, h⟩
  · exact ht.exists_of_enclosed? (by simp [closers]) h
  · exact ht.exists_of_enclosed? (by simp [closers]) h

theorem regexPiece?_inside (hu : Tail u) (hv : Tail v) {z' : List Char}
    (h : regexPiece? (z ++ u) = some (z' ++ u)) : regexPiece? (z ++ v) = some (z' ++ v) := by
  rcases Option.or_eq_some_iff.1 h with h | ⟨hescape, h⟩
  · rw [regexPiece?, escape?_inside h, Option.some_or]
  · have hescape' : escape? (z ++ v) = none := by
      cases z with
      | nil =>
        obtain ⟨c, t, rfl, hc, -⟩ := hv.head
        refine escape?_eq_none ?_
        rintro d s rfl
        cases hc
      | cons c z =>
        refine escape?_eq_none ?_
        rintro d s rfl hzv
        obtain ⟨e, t, rfl, -⟩ := hu.head
        cases z <;> cases hescape
    rw [regexPiece?, hescape', Option.none_or]
    rcases Option.or_eq_some_iff.1 h with h | ⟨hclass, h⟩
    · rw [enclosed?_inside (by decide) h, Option.some_or]
    · rw [one?_inside h]
      cases hclass' : enclosed? '[' stopsClass ']' (z ++ v) with
      | none => rfl
      | some r =>
        -- brackets that are closed are closed in front of the tail
        obtain ⟨y, z'', rfl, rfl⟩ := hv.exists_of_enclosed? (by simp [closers]) hclass'
        rw [enclosed?_inside (by decide) hclass'] at hclass
        cases hclass

theorem behind_regexPiece? (h : regexPiece? s = some rest) : Behind s rest := by
  refine ⟨?_, length_lt_of_regexPiece? h⟩
  rcases Option.or_eq_some_iff.1 h with h | ⟨-, h⟩
  · exact (reads_escape.takes h).suffix
  · rcases Option.or_eq_some_iff.1 h with h | ⟨-, h⟩
    · exact ((reads_enclosed _ _ _).takes h).suffix
    · exact ((reads_one _).takes h).suffix

theorem isNameRest_of_isBlank {c : Char} (hc : isBlank c = true) : isNameRest c = false := by
  have hall : (blankChars.all fun c => !isNameRest c) = true := by decide +kernel
  simpa using List.all_eq_true.1 hall c (mem_blankChars hc)

theorem behindName_tail (ht : Tail t) (z : List Char) :
    behindName (z ++ t) = behindName z ++ t := by
  unfold behindName
  rw [List.dropWhile_append]
  split
  · rename_i hempty
    obtain ⟨c, t, rfl, hc, -⟩ := ht.head
    rw [List.isEmpty_iff.1 hempty,
      List.dropWhile_cons_of_neg (ne_true_of_eq_false (isNameRest_of_isBlank hc))]
    rfl
  · rfl

theorem exists_of_regex? (ht : Tail t) (h : regex? (z ++ t) = some rest) :
    ∃ y z', z = '/' :: y ++ '/' :: z' ∧ opensComment (y ++ '/' :: z' ++ t) = false ∧
      regexInside? (y ++ '/' :: z' ++ t) = some ('/' :: z' ++ t) ∧ rest = behindName z' ++ t := by
  obtain ⟨r, hr, h⟩ := Option.bind_eq_some_iff.1 h
  have hopen : z ++ t = '/' :: r := eq_append_of_dropFront? hr
  obtain ⟨x, rfl, rfl⟩ := ht.exists_of_append (y := []) (by simp [closers]) hopen
  split at h
  · cases h
  · rename_i hopens
    obtain ⟨inside, hinside, h⟩ := Option.bind_eq_some_iff.1 h
    obtain ⟨r, hclose, h⟩ := Option.bind_eq_some_iff.1 h
    obtain rfl : inside = '/' :: r := eq_append_of_dropFront? hclose
    obtain ⟨s, hs, hpieces⟩ := Option.bind_eq_some_iff.1 hinside
    have hsuffix := (repeated_suffix (fun _ _ h => (behind_regexPiece? h).1) s).trans
      (behind_regexPiece? hs).1
    rw [Option.some.inj hpieces] at hsuffix
    obtain ⟨y, hy⟩ := hsuffix
    obtain ⟨z', rfl, rfl⟩ := ht.exists_of_append (by simp [closers]) hy.symm
    refine ⟨y, z', rfl, by simpa using hopens, hinside, ?_⟩
    rw [← Option.some.inj h, behindName_tail ht]

theorem regex?_tail (hu : Tail u) (hv : Tail v) (z : List Char) : Parallel regex? z u v := by
  refine parallel_of_inside hu hv (fun ht h => ?_) fun {t t' z'} ht ht' h => ?_
  · obtain ⟨y, z', rfl, -, -, rfl⟩ := exists_of_regex? ht h
    refine ⟨'/' :: y ++ '/' :: frontName z', behindName z', ?_, rfl⟩
    rw [List.append_assoc]
    exact congrArg (fun w => '/' :: y ++ '/' :: w) (frontName_append_behindName z').symm
  · obtain ⟨y, z'', rfl, hopens, hinside, hrest⟩ := exists_of_regex? ht h
    obtain rfl := List.append_cancel_right hrest
    have hopens' : opensComment (y ++ '/' :: z'' ++ t') = false := by
      cases y with
      | nil => cases hopens
      | cons c y => exact hopens
    have hinside' : regexInside? (y ++ '/' :: z'' ++ t') = some ('/' :: z'' ++ t') :=
      pieces_inside (by simp) (fun _ _ => behind_regexPiece?)
        (fun _ _ _ => regexPiece?_inside ht ht') rfl hinside
    show (if opensComment (y ++ '/' :: z'' ++ t') then none
      else (regexInside? (y ++ '/' :: z'' ++ t')).bind _) = _
    rw [hopens', hinside', ← behindName_tail ht']
    rfl

/-! ## Template text -/

theorem templatePiece?_cons {c : Char} (hc : c ∉ ['\x60', '\\', '$']) (s : List Char) :
    templatePiece? (c :: s) = some s := by
  simp only [List.mem_cons, List.not_mem_nil, or_false, not_or] at hc
  have hescape : escape? (c :: s) = none := escape?_eq_none fun d t h _ => hc.2.1 h
  rw [templatePiece?, hescape, Option.none_or]
  simp [dropFront?, Ne.symm hc.2.2, one?, hc]

theorem pieces_cons {c : Char} (hc : c ∉ ['\x60', '\\', '$']) (s : List Char) :
    repeated templatePiece? (c :: s) = repeated templatePiece? s :=
  repeated_eq_of_some (templatePiece?_cons hc s) (by simp)

theorem pieces_escape (c : Char) (s : List Char) :
    repeated templatePiece? ('\\' :: c :: s) = repeated templatePiece? s :=
  repeated_eq_of_some rfl (by simp only [List.length_cons]; omega)

theorem pieces_dollar (h : s.head? ≠ some '\x7b') :
    repeated templatePiece? ('$' :: s) = repeated templatePiece? s := by
  refine repeated_eq_of_some ?_ (by simp)
  have hcurly : dropFront? ['\x7b'] s = none := by
    refine dropFront?_curly ?_
    cases s with
    | nil => rfl
    | cons c s => simpa [opensCurly] using h
  simp [templatePiece?, escape?, dropFront?, hcurly]

/-- A backslash that escapes nothing, alone and behind a semicolon. -/
def endings : List (List Char) := [['\\'], [';', '\\']]

/-- Blanks, the first of which no gap takes. -/
structure Stray (b : List Char) : Prop where
  blank : ∀ c ∈ b, isBlank c = true
  first : ∃ c ∈ b.head?, isGapBlank c = false

variable {b : List Char}

theorem Stray.tail (hb : Stray b) (ht : t ∈ endings) : Tail (b ++ t) where
  first := by
    obtain ⟨c, hc, hgap⟩ := hb.first
    obtain ⟨b, rfl⟩ := List.head?_eq_some_iff.1 hc
    exact ⟨c, rfl, hb.blank c (by simp), hgap⟩
  plain := by
    refine List.forall_mem_append.2 ⟨fun c hc hmem => ?_, ?_⟩
    · have hblank := hb.blank c hc
      simp only [closers, List.mem_cons, List.not_mem_nil, or_false] at hmem
      rcases hmem with rfl | rfl | rfl | rfl | rfl | rfl | rfl | rfl <;> cases hblank
    · have hall : (endings.all fun t => t.all fun c => !closers.contains c) = true := by decide
      intro c hc
      simpa using List.all_eq_true.1 (List.all_eq_true.1 hall t ht) c hc

theorem pieces_blanks (hs : ∀ c ∈ s, isBlank c = true) (ht : t ∈ endings) :
    repeated templatePiece? (s ++ t) = ['\\'] := by
  induction s with
  | nil =>
    have hend : repeated templatePiece? ['\\'] = ['\\'] := repeated_eq_of_none rfl
    simp only [endings, List.mem_cons, List.not_mem_nil, or_false] at ht
    rcases ht with rfl | rfl
    · exact hend
    · exact (pieces_cons (by decide) _).trans hend
  | cons c s ih =>
    have hc : c ∉ ['\x60', '\\', '$'] := by
      intro hmem
      have hblank := hs c (by simp)
      simp only [List.mem_cons, List.not_mem_nil, or_false] at hmem
      rcases hmem with rfl | rfl | rfl <;> cases hblank
    rw [List.cons_append, pieces_cons hc]
    exact ih fun d hd => hs d (List.mem_cons_of_mem c hd)

/-- Template text ends in front of the blanks, or goes on up to the backslash. -/
def TextEnds (b z : List Char) : Prop :=
  (∃ y z', z = y ++ z' ∧
    ∀ t ∈ endings, repeated templatePiece? (z ++ (b ++ t)) = z' ++ (b ++ t)) ∨
  ∀ t ∈ endings, repeated templatePiece? (z ++ (b ++ t)) = ['\\']

theorem TextEnds.skip (x : List Char) (h : TextEnds b z) (hx : ∀ t ∈ endings,
    repeated templatePiece? (x ++ z ++ (b ++ t)) = repeated templatePiece? (z ++ (b ++ t))) :
    TextEnds b (x ++ z) := by
  rcases h with ⟨y, z', rfl, h⟩ | h
  · exact .inl ⟨x ++ y, z', by simp, fun t ht => (hx t ht).trans (h t ht)⟩
  · exact .inr fun t ht => (hx t ht).trans (h t ht)

theorem TextEnds.stop (h : ∀ t ∈ endings, templatePiece? (z ++ (b ++ t)) = none) :
    TextEnds b z :=
  .inl ⟨[], z, rfl, fun t ht => repeated_eq_of_none (h t ht)⟩

theorem textEnds (hb : Stray b) (z : List Char) : TextEnds b z := by
  obtain ⟨d, hd, -⟩ := hb.first
  obtain ⟨b', hb'⟩ := List.head?_eq_some_iff.1 hd
  have hblank := hb.blank
  rw [hb'] at hblank
  match z with
  | [] => exact .inr fun t ht => (pieces_blanks hb.blank ht :)
  | c :: z =>
    by_cases hbackslash : c = '\\'
    · subst hbackslash
      cases z with
      | nil =>
        -- the backslash escapes the first of the blanks
        refine .inr fun t ht => ?_
        rw [hb']
        exact (pieces_escape d (b' ++ t)).trans
          (pieces_blanks (fun e he => hblank e (List.mem_cons_of_mem d he)) ht)
      | cons e z => exact (textEnds hb z).skip ['\\', e] fun t ht => pieces_escape e _
    by_cases hquote : c = '\x60'
    · subst hquote
      exact .stop fun t ht => templatePiece?_stop (.inl ⟨z, rfl⟩)
    by_cases hdollar : c = '$'
    · subst hdollar
      by_cases hcurly : z.head? = some '\x7b'
      · obtain ⟨z, rfl⟩ := List.head?_eq_some_iff.1 hcurly
        exact .stop fun t ht => templatePiece?_stop (.inr ⟨z, rfl⟩)
      · refine (textEnds hb z).skip ['$'] fun t ht => pieces_dollar ?_
        cases z with
        | nil =>
          rw [hb']
          rintro ⟨⟩
          cases hblank '\x7b' (by simp)
        | cons e z => exact hcurly
    · exact (textEnds hb z).skip [c] fun t ht => pieces_cons (by simp [*]) _
termination_by z.length

theorem templateText?_tail (hb : Stray b) (z : List Char) (hu : u ∈ endings) (hv : v ∈ endings) :
    Parallel templateText? z (b ++ u) (b ++ v) ∨
      templateText? (z ++ (b ++ u)) = some ['\\'] ∧ templateText? (z ++ (b ++ v)) = some ['\\'] := by
  have hlong : ∀ t, ['\\'] ≠ z ++ (b ++ t) := by
    intro t h
    obtain ⟨c, hc, -⟩ := hb.first
    have hmem : c ∈ ['\\'] := by
      rw [h]
      simp [List.mem_of_mem_head? hc]
    cases List.mem_singleton.1 hmem
    cases hb.blank '\\' (List.mem_of_mem_head? hc)
  have htext : ∀ {s r}, repeated templatePiece? s = r → r ≠ s → templateText? s = some r := by
    intro s r hs hne
    cases hp : templatePiece? s with
    | none => exact absurd (hs.symm.trans (repeated_eq_of_none hp)) hne
    | some t =>
      rw [templateText?, hp, Option.bind_some,
        ← repeated_eq_of_some hp (length_lt_of_templatePiece? hp), hs]
  have hnone : ∀ {s}, repeated templatePiece? s = s → templateText? s = none := by
    intro s hs
    have hstop := repeated_stops (fun _ _ => length_lt_of_templatePiece?) s
    rw [hs] at hstop
    rw [templateText?, hstop, Option.bind_none]
  rcases textEnds hb z with ⟨y, z', rfl, h⟩ | h
  · refine .inl ?_
    cases y with
    | nil => exact .inl ⟨hnone (h u hu), hnone (h v hv)⟩
    | cons c y =>
      have hne : ∀ t : List Char, z' ++ t ≠ c :: y ++ z' ++ t := by
        intro t heq
        have hlength := congrArg List.length heq
        simp only [List.length_append, List.length_cons] at hlength
        omega
      exact .inr ⟨c :: y, z', rfl, htext (h u hu) (hne _), htext (h v hv) (hne _)⟩
  · exact .inr ⟨htext (h u hu) (hlong u), htext (h v hv) (hlong v)⟩

end EventMarkup.Script
