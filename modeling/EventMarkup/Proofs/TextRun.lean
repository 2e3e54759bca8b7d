import EventMarkup.Proofs.Spelling

/-!
# Text runs

Two functions look for interpolations. The reader of a template passes over them on its way to the
next tag, and `expressionOf?` cuts the run that was read into segments. `Factors` says what the
parts of a text are, without any of the two: every mark is the first one in what remains, and no
interpolation opens in the last part. A text has these parts in one way only
(`Factors.unique`), and both functions find them: `factors_readRun` is the main statement.
-/

namespace EventMarkup.Markup

open Text

/-! ## First marks -/

/-- The mark stands nowhere in the text in front of the given place. -/
def StandsFirst (mark before rest : List Char) : Prop :=
  ∀ front back, before ++ mark ++ rest = front ++ mark ++ back → before.length ≤ front.length

theorem cutAt?_eq_some_iff {mark s before rest : List Char} :
    cutAt? mark s = some (before, rest) ↔
      s = before ++ mark ++ rest ∧ StandsFirst mark before rest := by
  have hfirst : ∀ {b r}, cutAt? mark s = some (b, r) → StandsFirst mark b r := by
    intro b r h front back heq
    by_contra hlt
    have hsplit : b ++ (mark ++ r) = front ++ (mark ++ back) := by
      simpa only [List.append_assoc] using heq
    obtain ⟨behind, rfl⟩ : front <+: b :=
      List.prefix_of_prefix_length_le ⟨_, hsplit.symm⟩ (List.prefix_append _ _) (by omega)
    cases behind with
    | nil => simp at hlt
    | cons c behind =>
      have hnone := dropFront?_of_cutAt? h (List.suffix_append front (c :: behind))
      have htail : c :: behind ++ mark ++ r = mark ++ back := by
        rw [List.append_assoc, List.append_cancel_left_eq] at hsplit
        rwa [List.append_assoc]
      rw [htail, dropFront?_append] at hnone
      cases hnone
  constructor
  · exact fun h => ⟨eq_append_of_cutAt? h, hfirst h⟩
  · rintro ⟨hs, hbefore⟩
    cases hcut : cutAt? mark s with
    | none => exact absurd ⟨before, rest, hs.symm⟩ (cutAt?_eq_none_iff.1 hcut)
    | some cut =>
      obtain ⟨b, r⟩ := cut
      have heq := hs.symm.trans (eq_append_of_cutAt? hcut)
      have hle := hbefore b r heq
      have hge := hfirst hcut before rest heq.symm
      rw [List.append_assoc, List.append_assoc] at heq
      obtain ⟨rfl, hrest⟩ := List.append_inj heq (by omega)
      rw [List.append_cancel_left hrest]

theorem StandsFirst.of_append {mark before rest more : List Char}
    (h : StandsFirst mark before (rest ++ more)) : StandsFirst mark before rest := by
  intro front back heq
  refine h front (back ++ more) ?_
  rw [← List.append_assoc, heq, List.append_assoc]

theorem StandsFirst.cons {mark before rest : List Char} {c : Char}
    (h : StandsFirst mark before rest)
    (hc : ∀ back, c :: before ++ mark ++ rest ≠ mark ++ back) :
    StandsFirst mark (c :: before) rest := by
  intro front back heq
  cases front with
  | nil => exact absurd heq (hc back)
  | cons d front =>
    simp only [List.cons_append, List.cons.injEq] at heq
    exact Nat.succ_le_succ (h front back heq.2)

/-! ## The parts of a text -/

/-- The parts of a text: pairs of a static part and the interpolation behind it, and a last static
part. Every mark is the first one in what remains, and the last part holds no opening mark. -/
inductive Factors : List Char → List (List Char × List Char) → List Char → Prop where
  | last {s : List Char} (h : ¬ openMark <:+: s) : Factors s [] s
  | interpolation {before inside rest : List Char} {parts : List (List Char × List Char)}
    {last : List Char} (hopen : StandsFirst openMark before (inside ++ closeMark ++ rest))
    (hclose : StandsFirst closeMark inside rest) (h : Factors rest parts last) :
    Factors (before ++ openMark ++ (inside ++ closeMark ++ rest)) ((before, inside) :: parts) last

/-- Whether a place of a text with the given parts stands in no interpolation. -/
def Outside : List (List Char × List Char) → Nat → Prop
  | [], _ => True
  | (before, inside) :: parts, k =>
    k < before.length ∨
      before.length + inside.length + 4 ≤ k ∧
        Outside parts (k - (before.length + inside.length + 4))

def segmentsOf (parts : List (List Char × List Char)) (last : List Char) : List Segment :=
  parts.flatMap (fun part => [.static part.1, .script part.2]) ++ [.static last]

theorem segmentsOf_injective {parts parts' : List (List Char × List Char)}
    {last last' : List Char} (h : segmentsOf parts last = segmentsOf parts' last') :
    parts = parts' ∧ last = last' := by
  induction parts generalizing parts' with
  | nil =>
    cases parts' with
    | nil => simpa [segmentsOf] using h
    | cons part parts' => simp [segmentsOf] at h
  | cons part parts ih =>
    cases parts' with
    | nil => simp [segmentsOf] at h
    | cons part' parts' =>
      simp only [segmentsOf, List.flatMap_cons, List.cons_append, List.nil_append,
        List.cons.injEq, Segment.static.injEq, Segment.script.injEq] at h
      obtain ⟨hparts, hlast⟩ := ih h.2.2
      exact ⟨congrArg₂ _ (Prod.ext h.1 h.2.1) hparts, hlast⟩

theorem Factors.segments_eq {s last : List Char} {parts : List (List Char × List Char)}
    (h : Factors s parts last) : segments s = segmentsOf parts last := by
  induction h with
  | last h => exact segments_of_not_openMark h
  | @interpolation before inside rest parts last hopen hclose h ih =>
    have hcut := cutAt?_eq_some_iff.2 ⟨rfl, hopen⟩
    have hcut' := cutAt?_eq_some_iff.2 ⟨rfl, hclose⟩
    rw [segments]
    split
    · rename_i heq
      rw [hcut] at heq
      cases heq
    · rename_i heq
      rw [hcut] at heq
      cases heq
      split
      · rename_i heq
        rw [hcut'] at heq
        cases heq
      · rename_i heq
        rw [hcut'] at heq
        cases heq
        rw [ih]
        rfl

theorem Factors.unique {s last last' : List Char} {parts parts' : List (List Char × List Char)}
    (h : Factors s parts last) (h' : Factors s parts' last') : parts' = parts ∧ last' = last :=
  segmentsOf_injective (h'.segments_eq.symm.trans h.segments_eq)

theorem Factors.not_openMark {s last : List Char} {parts : List (List Char × List Char)}
    (h : Factors s parts last) : ¬ openMark <:+: last := by
  induction h with
  | last h => exact h
  | interpolation _ _ _ ih => exact ih

theorem Factors.openMark_infix_iff {s last : List Char} {parts : List (List Char × List Char)}
    (h : Factors s parts last) : openMark <:+: s ↔ parts ≠ [] := by
  cases h with
  | last h => exact iff_of_false h (· rfl)
  | interpolation _ _ _ => exact iff_of_true ⟨_, _, rfl⟩ nofun

/-! ## The script expression of a text -/

/-- The terms of a static part: its literal, unless it is empty. -/
def literalTerms (text : List Char) : List String :=
  if text = [] then [] else [quote (String.ofList text)]

def scriptTerm (inside : List Char) : String := "_s(" ++ trimString (String.ofList inside) ++ ")"

/-- The terms of a text with the given parts. -/
def termsOf (parts : List (List Char × List Char)) (last : List Char) : List String :=
  parts.flatMap (fun part => literalTerms part.1 ++ [scriptTerm part.2]) ++ literalTerms last

theorem filterMap_term?_segmentsOf (parts : List (List Char × List Char)) (last : List Char) :
    (segmentsOf parts last).filterMap Segment.term? = termsOf parts last := by
  have hstatic : ∀ t : List Char,
      [Segment.static t].filterMap Segment.term? = literalTerms t := by
    intro t
    by_cases ht : t = [] <;> simp [Segment.term?, literalTerms, quote, ht]
  induction parts with
  | nil => exact hstatic last
  | cons part parts ih =>
    have hpart : [Segment.static part.1, Segment.script part.2].filterMap Segment.term? =
        literalTerms part.1 ++ [scriptTerm part.2] := by
      rw [← List.singleton_append, List.filterMap_append, hstatic]
      simp [Segment.term?, scriptTerm, trimString]
    simp only [segmentsOf, termsOf, List.flatMap_cons, List.append_assoc] at ih ⊢
    rw [List.filterMap_append, ih, hpart, List.append_assoc]

theorem Factors.expressionOf?_eq {s last : List Char} {parts : List (List Char × List Char)}
    (h : Factors s parts last) :
    expressionOf? (String.ofList s) =
      if parts = [] then none else some ("+".intercalate (termsOf parts last)) := by
  have hopen : (cutAt? openMark s).isSome = true ↔ parts ≠ [] := by
    rw [← h.openMark_infix_iff, Option.isSome_iff_ne_none, ne_eq, cutAt?_eq_none_iff, not_not]
  simp only [expressionOf?, String.toList_ofList, h.segments_eq, filterMap_term?_segmentsOf]
  by_cases hparts : parts = []
  · rw [if_pos hparts, if_neg (fun hsome => hopen.1 hsome hparts)]
  · rw [if_neg hparts, if_pos (hopen.2 hparts)]

/-! ## Reading a run -/

theorem Factors.cons {s last : List Char} {parts : List (List Char × List Char)} {c : Char}
    (h : Factors s parts last) (hc : ∀ back, c :: s ≠ openMark ++ back) :
    ∃ parts' last', Factors (c :: s) parts' last' ∧
      ∀ k, Outside parts' (k + 1) → Outside parts k := by
  cases h with
  | last h =>
    refine ⟨[], c :: s, .last ?_, fun _ _ => trivial⟩
    intro hinfix
    rcases List.infix_cons_iff.1 hinfix with ⟨back, heq⟩ | hinfix
    · exact hc back heq.symm
    · exact h hinfix
  | @interpolation before inside rest parts _ hopen hclose h =>
    refine ⟨(c :: before, inside) :: parts, last, .interpolation (hopen.cons hc) hclose h, ?_⟩
    intro k hk
    rcases hk with hk | ⟨hk, houtside⟩
    · exact .inl (by simpa using hk)
    · simp only [List.length_cons] at hk houtside
      refine .inr ⟨by omega, ?_⟩
      rwa [show k + 1 - (before.length + 1 + inside.length + 4) =
        k - (before.length + inside.length + 4) by omega] at houtside

/-- A run has parts, and behind its beginning no tag starts in it outside of an interpolation. -/
theorem exists_factors_of_readRun {begun : Bool} {s run rest : List Char}
    (h : readRun begun s = .ok (run, rest)) :
    (rest = [] ∨ isTagStart rest = true) ∧ ∃ parts last, Factors run parts last ∧
      ∀ k, (begun = true ∨ 0 < k) → k < run.length → Outside parts k →
        isTagStart (s.drop k) = false := by
  fun_induction readRun begun s generalizing run rest with
  | case1 begun s hstop =>
    cases h
    simp only [Bool.and_eq_true] at hstop
    exact ⟨.inr hstop.2, [], [], .last (by simp [openMark]), fun k _ hk => absurd hk (by simp)⟩
  | case2 begun s htag after hopen inside behind hclose run' rest' hread ih =>
    obtain ⟨rfl, rfl⟩ := Prod.mk.inj (Except.ok.inj h)
    obtain ⟨hrest, parts, last, hfactors, hnone⟩ := ih hread
    have hafter := eq_append_of_cutAt? hclose
    have hfirst : StandsFirst closeMark inside (run' ++ rest') := by
      rw [append_of_readRun hread]
      exact (cutAt?_eq_some_iff.1 hclose).2
    have hnothing : StandsFirst openMark [] (inside ++ closeMark ++ run') :=
      fun _ _ _ => Nat.zero_le _
    refine ⟨hrest, ([], inside) :: parts, last, ?_, ?_⟩
    · have := Factors.interpolation hnothing hfirst.of_append hfactors
      simpa only [List.nil_append, List.append_assoc] using this
    · intro k _ hk houtside
      rcases houtside with houtside | ⟨hle, houtside⟩
      · simp at houtside
      · simp only [List.length_nil, Nat.zero_add] at hle houtside
        have hlength : (openMark ++ inside ++ closeMark).length = inside.length + 4 := by
          simp [openMark, closeMark]
        rw [eq_append_of_dropFront? hopen, hafter, ← List.append_assoc, ← List.append_assoc,
          List.drop_append, List.drop_of_length_le (by omega), List.nil_append, hlength]
        refine hnone _ (.inl rfl) ?_ houtside
        rw [List.length_append, hlength] at hk
        omega
  | case3 => cases h
  | case4 => cases h
  | case5 begun =>
    cases h
    exact ⟨.inl rfl, [], [], .last (by simp [openMark]), fun k _ hk => absurd hk (by simp)⟩
  | case6 begun c t hopen run' rest' hread htag ih =>
    obtain ⟨rfl, rfl⟩ := Prod.mk.inj (Except.ok.inj h)
    obtain ⟨hrest, parts, last, hfactors, hnone⟩ := ih hread
    have hfront : ∀ back, c :: run' ≠ openMark ++ back := by
      intro back heq
      have hcons : c :: t = openMark ++ (back ++ rest') := by
        rw [← append_of_readRun hread, ← List.cons_append, heq, List.append_assoc]
      rw [hcons, dropFront?_append] at hopen
      cases hopen
    obtain ⟨parts', last', hfactors', houtside⟩ := hfactors.cons hfront
    refine ⟨hrest, parts', last', hfactors', ?_⟩
    intro k hk hlt hk'
    cases k with
    | zero =>
      have hbegun : begun = true := hk.resolve_right (Nat.lt_irrefl 0)
      simpa [hbegun] using htag
    | succ k =>
      exact hnone k (.inl rfl) (by simpa using hlt) (houtside k hk')
  | case7 => cases h

/-- A text run ends at the end of the template or at the first start of a tag, behind the first
character of the run, that stands in no interpolation. It has its parts in one way, no
interpolation is left open, and the script expression of the run joins the terms of these parts. -/
theorem factors_readRun {s run rest : List Char} (h : readRun false s = .ok (run, rest)) :
    run ++ rest = s ∧ (s ≠ [] → run ≠ []) ∧ (rest = [] ∨ isTagStart rest = true) ∧
      ∃ parts last, Factors run parts last ∧
        (∀ parts' last', Factors run parts' last' → parts' = parts ∧ last' = last) ∧
        (∀ k, 0 < k → k < run.length → Outside parts k → isTagStart (s.drop k) = false) ∧
        ¬ openMark <:+: last ∧
        (expressionOf? (String.ofList run) = none ↔ parts = []) ∧
        (parts ≠ [] →
          expressionOf? (String.ofList run) = some ("+".intercalate (termsOf parts last))) := by
  have happend := append_of_readRun h
  obtain ⟨hrest, parts, last, hfactors, hnone⟩ := exists_factors_of_readRun h
  refine ⟨happend, ?_, hrest, parts, last, hfactors, fun _ _ => hfactors.unique,
    fun k hk => hnone k (.inr hk), hfactors.not_openMark, ?_, ?_⟩
  · rintro hne rfl
    cases s with
    | nil => exact hne rfl
    | cons c s =>
      have hlt := length_lt_of_readRun h
      rw [← happend] at hlt
      simp at hlt
  · rw [hfactors.expressionOf?_eq]
    split <;> simp_all
  · intro hparts
    rw [hfactors.expressionOf?_eq, if_neg hparts]

theorem factors_readRun_overlapping :
    readRun false "<\x7b\x7b\x7b a<b \x7d\x7d\x7d c</p>".toList =
        .ok ("<\x7b\x7b\x7b a<b \x7d\x7d\x7d c".toList, "</p>".toList) ∧
      Factors "<\x7b\x7b\x7b a<b \x7d\x7d\x7d c".toList [(['<'], "\x7b a<b ".toList)]
        "\x7d c".toList ∧
      expressionOf? "<\x7b\x7b\x7b a<b \x7d\x7d\x7d c" = some "\"<\"+_s(\x7b a<b)+\"\x7d c\"" := by
  have hread : readRun false "<\x7b\x7b\x7b a<b \x7d\x7d\x7d c</p>".toList =
      .ok ("<\x7b\x7b\x7b a<b \x7d\x7d\x7d c".toList, "</p>".toList) := by decide +kernel
  have hopen : cutAt? openMark "<\x7b\x7b\x7b a<b \x7d\x7d\x7d c".toList =
      some (['<'], "\x7b a<b ".toList ++ closeMark ++ "\x7d c".toList) := by decide +kernel
  have hclose : cutAt? closeMark ("\x7b a<b ".toList ++ closeMark ++ "\x7d c".toList) =
      some ("\x7b a<b ".toList, "\x7d c".toList) := by decide +kernel
  have hlast : cutAt? openMark "\x7d c".toList = none := by decide +kernel
  have hparts : Factors "<\x7b\x7b\x7b a<b \x7d\x7d\x7d c".toList [(['<'], "\x7b a<b ".toList)]
      "\x7d c".toList :=
    .interpolation (cutAt?_eq_some_iff.1 hopen).2 (cutAt?_eq_some_iff.1 hclose).2
      (.last (cutAt?_eq_none_iff.1 hlast))
  obtain ⟨-, -, -, parts, last, -, hunique, -, -, -, hsome⟩ := factors_readRun hread
  obtain ⟨rfl, rfl⟩ := hunique _ _ hparts
  exact ⟨hread, hparts, (hsome nofun).trans (by decide +kernel)⟩

end EventMarkup.Markup
