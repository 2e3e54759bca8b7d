import EventMarkup.Proofs.Script.Chain
import EventMarkup.Proofs.Script.Operand
import EventMarkup.Text.Pieces

/-!
# Code from the front

`Spans p s k` says that the pattern takes the text `s` up to `k`, gaps in front of the two texts
apart. So a row spans what its parts span one after the other, and code that is put together from
parts is followed part by part. A value is what spans an assignment wherever a list goes on or is
closed behind it (`IsValue`): arrays of values and objects of values are values, and so are paths,
whatever blanks stand around them (`spans_assignment_of_path`).
-/

namespace EventMarkup.Script

open Peg Text

variable {p q a b : Pattern Rule} {ps : List (Pattern Rule)} {s t k r v w x : List Char}
  {n : Nat}

/-- The pattern takes the text up to what is left of it, gaps in front of the two texts apart. -/
def Spans (p : Pattern Rule) (s k : List Char) : Prop :=
  ∃ r, Takes p (skipGap s) r ∧ skipGap r = skipGap k

namespace Spans

theorem of_takes (hs : skipGap s = s) (h : Takes p s k) : Spans p s k := ⟨k, by rwa [hs], rfl⟩

theorem rule {r : Rule} (h : Spans r.pattern s k) : Spans (.rule r) s k := by
  obtain ⟨r, hr, hk⟩ := h
  exact ⟨r, hr.rule, hk⟩

theorem phrase (h : Spans p s k) : Spans (.phrase p) s k := by
  obtain ⟨r, hr, hk⟩ := h
  exact ⟨r, hr.phrase, hk⟩

theorem either (h : Spans p s k) : Spans (.either p q) s k := by
  obtain ⟨r, hr, hk⟩ := h
  exact ⟨r, hr.either, hk⟩

theorem or (hp : Refuses p (skipGap s)) (h : Spans q s k) : Spans (.either p q) s k := by
  obtain ⟨r, hr, hk⟩ := h
  exact ⟨r, hp.either_takes hr, hk⟩

theorem oneOf (before after : List (Pattern Rule)) (h : ∀ q ∈ before, Refuses q (skipGap s))
    (hp : Spans p s k) : Spans (.oneOf (before ++ p :: after)) s k := by
  obtain ⟨r, hr, hk⟩ := hp
  exact ⟨r, takes_oneOf before after h hr, hk⟩

theorem optional_nil (h : Refuses p (skipGap s)) : Spans (.optional p) s s :=
  ⟨_, takes_optional_iff.2 (.inr ⟨h, rfl⟩), skipGap_skipGap s⟩

theorem row (ha : Spans a s t) (hb : Spans (Script.row (b :: ps)) t k) :
    Spans (Script.row (a :: b :: ps)) s k := by
  obtain ⟨r, hr, hrt⟩ := ha
  obtain ⟨r', hr', hk⟩ := hb
  exact ⟨r', takes_row_iff.2 ⟨r, hr, hrt ▸ hr'⟩, hk⟩

theorem many_nil (h : Refuses a (skipGap s)) : Spans (many a) s s :=
  ⟨_, takes_many_iff.2 (.inr ⟨h, rfl⟩), skipGap_skipGap s⟩

theorem many_of_star (h : Takes (.star (.both gap a)) s k) : Spans (many a) s k := by
  rcases takes_star_gap_iff.1 h with ⟨t, ht, hstar⟩ | ⟨hnone, rfl⟩
  · exact ⟨k, takes_many_iff.2 (.inl ⟨t, ht, hstar⟩), rfl⟩
  · exact many_nil hnone

theorem exists_star (h : Spans (many a) s k) :
    ∃ r, Takes (.star (.both gap a)) s r ∧ skipGap r = skipGap k := by
  obtain ⟨r, hr, hk⟩ := h
  rcases takes_many_iff.1 hr with ⟨t, ht, hstar⟩ | ⟨hnone, rfl⟩
  · exact ⟨r, takes_star_gap_iff.2 (.inl ⟨t, ht, hstar⟩), hk⟩
  · exact ⟨s, takes_star_gap_iff.2 (.inr ⟨hnone, rfl⟩), by rwa [skipGap_skipGap] at hk⟩

theorem many_cons (ha : Spans a s t) (h : Spans (many a) t k) : Spans (many a) s k := by
  obtain ⟨r, hr, hrt⟩ := ha
  have hmany : Spans (many a) r k := by
    obtain ⟨r', hr', hk⟩ := h
    exact ⟨r', hrt.symm ▸ hr', hk⟩
  obtain ⟨r', hstar, hk⟩ := hmany.exists_star
  exact ⟨r', takes_many_iff.2 (.inl ⟨r, hr, hstar⟩), hk⟩

end Spans

/-! ## Known fronts -/

/-- Whether the front of a text keeps it from beginning with a gap. -/
def isSolidFront : List Char → Bool
  | [] => false
  | c :: _ => !isGapBlank c && c != '/'

theorem skipGap_of_isSolidFront (h : isSolidFront w = true) (t : List Char) :
    skipGap (w ++ t) = w ++ t := by
  cases w with
  | nil => cases h
  | cons c w =>
    simp only [isSolidFront, Bool.and_eq_true, Bool.not_eq_true', bne_iff_ne] at h
    exact skipGap_cons h.1 (comment?_eq_none h.2)

theorem spans_of_foresee (hw : isSolidFront w = true) (h : foresee n p w = some (some r))
    (t : List Char) : Spans p (w ++ t) (r ++ t) :=
  .of_takes (skipGap_of_isSolidFront hw t) (takes_of_foresee h)

theorem refuses_skipGap_of_foresee (hw : isSolidFront w = true) (h : foresee n p w = some none)
    (t : List Char) : Refuses p (skipGap (w ++ t)) := by
  rw [skipGap_of_isSolidFront hw]
  exact refuses_of_foresee h

theorem refuses_skipGap_of_mem {marks : List Char} {c : Char} (hc : c ∈ marks)
    (hall : (marks.all fun c => isSolidFront [c] && foresee n p [c] == some none) = true)
    (t : List Char) : Refuses p (skipGap (c :: t)) := by
  have hspec := List.all_eq_true.1 hall c hc
  rw [Bool.and_eq_true, beq_iff_eq] at hspec
  exact refuses_skipGap_of_foresee (w := [c]) hspec.1 hspec.2 t

theorem spans_mark {w : String} {c : Char} (hw : w.toList = [c]) (hc : isSolidFront [c] = true)
    (s : List Char) : Spans (.lit w) (c :: s) s :=
  .of_takes (skipGap_of_isSolidFront (w := [c]) hc s) (takes_lit.2 (by rw [hw]; rfl))

/-! ## Operands -/

theorem spans_callMember (hnew : Refuses (word "new") (skipGap s)) (hp : Spans (.rule .primary) s v)
    (hsuffix : Spans (many (.rule .suffix)) v k) : Spans (.rule .callMember) s k :=
  .rule ((Spans.many_nil hnew).row (hp.row hsuffix))

theorem spans_unary (hfront : Refuses frontOperator (skipGap s))
    (h : Spans (.rule .callMember) s k) (hk : Refuses endOperator (skipGap k)) :
    Spans (.rule .unary) s k :=
  .rule ((Spans.many_nil hfront).row (h.row (Spans.optional_nil hk)))

theorem spans_binary (h : Spans (.rule .unary) s k) (hk : Refuses binaryOperator (skipGap k)) :
    Spans (.rule .binary) s k :=
  .rule (h.row (Spans.many_nil (refuses_row hk)))

theorem spans_assignment (harrows : Refuses arrows (skipGap s)) (h : Spans (.rule .binary) s k)
    (hk : Halts (skipGap k)) : Spans (.rule .assignment) s k :=
  .rule (.or harrows (Spans.row (.rule (h.row (Spans.optional_nil (refuses_row hk.question))))
    (Spans.optional_nil (refuses_row hk.assignOperator))))

theorem spans_expression (h : Spans (.rule .assignment) s k)
    (hk : Refuses (.lit ",") (skipGap k)) : Spans (.rule .expression) s k :=
  .rule (.phrase (h.row (Spans.many_nil (refuses_row hk))))

/-- No operator is in front, and nothing that goes on with an operand. -/
structure Ends (k : List Char) : Prop where
  halts : Halts (skipGap k)
  suffix : Refuses (.rule .suffix) (skipGap k)

def endMarks : List Char := [')', ']', '\x7d', ',', ';', ':']

theorem ends_cons {c : Char} (hc : c ∈ endMarks) (t : List Char) : Ends (c :: t) := by
  have hhalts := halts_cons (List.mem_cons_of_mem '(' hc : c ∈ stopMarks) t
  exact ⟨hhalts.settled.symm ▸ hhalts, refuses_skipGap_of_mem (n := 100) hc (by decide) t⟩

theorem ends_nil : Ends [] := by
  refine ⟨halts_nil.settled.symm ▸ halts_nil, ?_⟩
  rw [halts_nil.settled]
  exact (reads_read? (isTame_rule .suffix)).refuses (by decide +kernel)

theorem spans_assignment_of_front (hw : isSolidFront w = true)
    (hfront : ([arrows, frontOperator, word "new"].all fun p => foresee 100 p w == some none) = true)
    (h : Spans (.rule .primary) (w ++ t) k) (hk : Ends k) : Spans (.rule .assignment) (w ++ t) k := by
  simp only [List.all_cons, List.all_nil, Bool.and_true, Bool.and_eq_true, beq_iff_eq] at hfront
  have hmember : Spans (.rule .callMember) (w ++ t) k :=
    spans_callMember (refuses_skipGap_of_foresee hw hfront.2.2 t) h (.many_nil hk.suffix)
  exact spans_assignment (refuses_skipGap_of_foresee hw hfront.1 t) (spans_binary
    (spans_unary (refuses_skipGap_of_foresee hw hfront.2.1 t) hmember hk.halts.endOperator)
    hk.halts.binaryOperator) hk.halts

/-! ## Items of a list -/

/-- A text with which a list goes on or is closed. -/
def EndsItem (k : List Char) : Prop := ∃ c t, k = c :: t ∧ c ∈ [',', ']', '\x7d']

/-- The pattern takes the text as an item of a list. -/
def IsItem (p : Pattern Rule) (x : List Char) : Prop := ∀ k, EndsItem k → Spans p (x ++ k) k

/-- The text is an assignment as an item of a list. -/
def IsValue (x : List Char) : Prop := IsItem (.rule .assignment) x

theorem EndsItem.ends (h : EndsItem k) : Ends k := by
  obtain ⟨c, t, rfl, hc⟩ := h
  have hall : ([',', ']', '\x7d'].all fun c => endMarks.contains c) = true := by decide
  exact ends_cons (List.contains_iff_mem.1 (List.all_eq_true.1 hall c hc)) t

theorem endsItem_items (xs : List (List Char)) (hk : EndsItem k) :
    EndsItem (xs.flatMap ([','] ++ ·) ++ k) := by
  cases xs with
  | nil => exact hk
  | cons x xs => exact ⟨',', _, rfl, by decide⟩

theorem spans_many_items {xs : List (List Char)} (h : ∀ x ∈ xs, IsItem p x) (hk : EndsItem k)
    (hcomma : Refuses (.lit ",") (skipGap k)) :
    Spans (many (row [.lit ",", p])) (xs.flatMap ([','] ++ ·) ++ k) k := by
  induction xs with
  | nil => exact .many_nil (refuses_row hcomma)
  | cons x xs ih =>
    obtain ⟨hx, hxs⟩ := List.forall_mem_cons.1 h
    have htext : (x :: xs).flatMap ([','] ++ ·) ++ k =
        ',' :: (x ++ (xs.flatMap ([','] ++ ·) ++ k)) := by
      simp
    rw [htext]
    exact .many_cons ((spans_mark rfl rfl _).row (hx _ (endsItem_items xs hk))) (ih hxs)

theorem isValue_array {xs : List (List Char)} (h : ∀ x ∈ xs, IsValue x) :
    IsValue ('[' :: ([','].intercalate xs ++ [']'])) := by
  intro k hk
  have helement : ∀ x ∈ xs, IsItem (.optional (.rule .arrayElement)) x := by
    intro x hx k hk
    obtain ⟨r, hr, hrk⟩ := h x hx k hk
    exact .either (.rule (Spans.row (.optional_nil (refuses_dots_of_assignment hr)) ⟨r, hr, hrk⟩))
  have hclose : EndsItem (']' :: k) := ⟨_, _, rfl, by decide⟩
  have hcomma : Refuses (.lit ",") (skipGap (']' :: k)) :=
    refuses_skipGap_of_foresee (n := 100) (w := [']']) rfl (by decide) _
  have hlist : Spans (holedList (.rule .arrayElement)) ([','].intercalate xs ++ ']' :: k)
      (']' :: k) := by
    cases xs with
    | nil =>
      exact Spans.row (.optional_nil (refuses_skipGap_of_foresee (n := 200) (w := [']']) rfl
        (by decide) _)) (.many_nil (refuses_row hcomma))
    | cons x xs =>
      obtain ⟨hx, hxs⟩ := List.forall_mem_cons.1 helement
      rw [intercalate_cons, List.append_assoc]
      exact Spans.row (hx _ (endsItem_items xs hclose)) (spans_many_items hxs hclose hcomma)
  have htext : '[' :: ([','].intercalate xs ++ [']']) ++ k =
      ['['] ++ ([','].intercalate xs ++ ']' :: k) := by
    simp
  rw [htext]
  refine spans_assignment_of_front rfl (by decide) (.rule (.or ?_ (.either ?_))) hk.ends
  · exact refuses_skipGap_of_foresee (n := 100) rfl (by decide) _
  · exact (spans_mark rfl rfl _).row (hlist.row (spans_mark rfl rfl k))

theorem spans_assignment_object {xs : List (List Char)}
    (h : ∀ x ∈ xs, IsItem (.rule .property) x) (hk : Ends k) :
    Spans (.rule .assignment) ('\x7b' :: ([','].intercalate xs ++ ['\x7d']) ++ k) k := by
  have hclose : EndsItem ('\x7d' :: k) := ⟨_, _, rfl, by decide⟩
  have hcomma : Refuses (.lit ",") (skipGap ('\x7d' :: k)) :=
    refuses_skipGap_of_foresee (n := 100) (w := ['\x7d']) rfl (by decide) _
  have hlist : Spans (commaList (.rule .property)) ([','].intercalate xs ++ '\x7d' :: k)
      ('\x7d' :: k) := by
    cases xs with
    | nil =>
      exact .optional_nil (refuses_skipGap_of_foresee (n := 200) (w := ['\x7d']) rfl (by decide) _)
    | cons x xs =>
      obtain ⟨hx, hxs⟩ := List.forall_mem_cons.1 h
      rw [intercalate_cons, List.append_assoc]
      exact .either (Spans.row (hx _ (endsItem_items xs hclose))
        (Spans.row (spans_many_items hxs hclose hcomma) (.optional_nil hcomma)))
  have htext : '\x7b' :: ([','].intercalate xs ++ ['\x7d']) ++ k =
      ['\x7b'] ++ ([','].intercalate xs ++ '\x7d' :: k) := by
    simp
  rw [htext]
  refine spans_assignment_of_front rfl (by decide) (.rule (.or ?_ (.or ?_ (.either ?_)))) hk
  · exact refuses_skipGap_of_foresee (n := 100) rfl (by decide) _
  · exact refuses_skipGap_of_foresee (n := 100) rfl (by decide) _
  · exact (spans_mark rfl rfl _).row (hlist.row (spans_mark rfl rfl k))

theorem isValue_object {xs : List (List Char)} (h : ∀ x ∈ xs, IsItem (.rule .property) x) :
    IsValue ('\x7b' :: ([','].intercalate xs ++ ['\x7d'])) := fun _ hk =>
  spans_assignment_object h hk.ends

theorem isItem_property {key : List Char} (hkey : ∀ t, Spans (.rule .propertyKey) (key ++ ':' :: t)
    (':' :: t)) (hdots : ∀ t, Refuses (.lit "...") (skipGap (key ++ t))) (hx : IsValue x) :
    IsItem (.rule .property) (key ++ ':' :: x) := by
  intro k hk
  rw [List.append_assoc]
  exact .rule (.or (refuses_row (hdots _))
    (.either ((hkey _).row ((spans_mark rfl rfl _).row (hx k hk)))))

theorem spans_suffix_call (h : Spans (.rule .assignment) s (')' :: t)) :
    Spans (.rule .suffix) ('(' :: s) t := by
  obtain ⟨r, hr, hrt⟩ := h
  have hcomma : Refuses (.lit ",") (skipGap (')' :: t)) :=
    refuses_skipGap_of_foresee (n := 100) (w := [')']) rfl (by decide) t
  have hargument : Spans (.rule .argument) s (')' :: t) :=
    .rule (Spans.row (.optional_nil (refuses_dots_of_assignment hr)) ⟨r, hr, hrt⟩)
  have hlist : Spans (commaList (.rule .argument)) s (')' :: t) :=
    .either (hargument.row (Spans.row (.many_nil (refuses_row hcomma)) (.optional_nil hcomma)))
  have harguments : Spans (.rule .arguments) ('(' :: s) t :=
    .rule ((spans_mark rfl rfl s).row (hlist.row (spans_mark rfl rfl t)))
  obtain ⟨v, hv, hvt⟩ := harguments
  have hopen : skipGap ('(' :: s) = '(' :: s := skipGap_of_isSolidFront (w := ['(']) rfl s
  rw [hopen] at hv
  exact ⟨v, hopen.symm ▸ takes_suffix_of_arguments hv, hvt⟩

/-! ## Paths -/

theorem Spans.congr_left (hs : skipGap s = skipGap t) (h : Spans p t k) : Spans p s k := by
  obtain ⟨r, hr, hk⟩ := h
  exact ⟨r, hs ▸ hr, hk⟩

/-- The text is a path that the script grammar reads the same way: with blanks of the gap around
it, with a first name that is no reserved word, and with plain accesses. -/
def IsPlainPath (s : List Char) : Prop :=
  ∃ cut : PathCut s, (∀ c ∈ cut.before ++ cut.after, isGapBlank c = true) ∧
    cut.name ∉ reservedWords.map String.toList ∧ ∀ a ∈ cut.accesses, a.IsPlain

theorem isNameRest_of_isGapBlank {c : Char} (hc : isGapBlank c = true) : isNameRest c = false := by
  have hall : (gapBlanks.all fun c => !isNameRest c) = true := by decide +kernel
  simpa using List.all_eq_true.1 hall c (mem_gapBlanks hc)

theorem one?_isNameRest_append {b : List Char} (hb : ∀ c ∈ b, isGapBlank c = true)
    (hk : one? isNameRest k = none) : one? isNameRest (b ++ k) = none := by
  cases b with
  | nil => exact hk
  | cons c b => simp [one?, isNameRest_of_isGapBlank (hb c List.mem_cons_self)]

theorem IsPlainPath.frontName_skipGap (h : IsPlainPath s) (hk : one? isNameRest k = none) :
    startsName (skipGap (s ++ k)) = true ∧
      frontName (skipGap (s ++ k)) = frontName (skipGap s) := by
  obtain ⟨cut, hblank, -, -⟩ := h
  obtain ⟨hbefore, hafter⟩ := List.forall_mem_append.1 hblank
  have hname : ∀ k, one? isNameRest k = none → startsName (skipGap (s ++ k)) = true ∧
      frontName (skipGap (s ++ k)) = cut.name := by
    intro k hk
    have htext : s ++ k =
        cut.before ++ (cut.name ++ (cut.accesses.flatMap Access.spelling ++ (cut.after ++ k))) := by
      conv => lhs; rw [cut.eq_append]
      simp
    obtain ⟨hstarts, hfront, -⟩ := frontName_of_isAsciiName cut.name_isAsciiName
      (one?_isNameRest_accesses (one?_isNameRest_append hafter hk) cut.accesses)
    rw [htext, skipGap_blanks hbefore, skipGap_of_startsName hstarts]
    exact ⟨hstarts, hfront⟩
  have hself := hname [] rfl
  rw [List.append_nil] at hself
  exact ⟨(hname k hk).1, (hname k hk).2.trans hself.2.symm⟩

theorem spans_member_of_isPlainPath (h : IsPlainPath s) : Spans member s [] := by
  obtain ⟨cut, hblank, hname, hplain⟩ := h
  obtain ⟨hbefore, hafter⟩ := List.forall_mem_append.1 hblank
  have hgap : skipGap cut.after = [] := by
    have hblanks := skipGap_blanks hafter []
    rwa [List.append_nil, halts_nil.settled] at hblanks
  have hends : EndsPath cut.after := by
    refine ⟨?_, ?_⟩
    · simpa using one?_isNameRest_append hafter (k := []) rfl
    · have hnone := endsPath_nil.noFunction
      rwa [halts_nil.settled, ← hgap] at hnone
  have hstar : Takes (.star (.both gap memberAccess))
      (cut.accesses.flatMap Access.spelling ++ cut.after) cut.after := by
    refine takes_star_accesses id cut.accesses_wellFormed hplain hends
      (takes_star_gap_iff.2 (.inr ⟨?_, rfl⟩))
    rw [hgap]
    exact (reads_read? (by decide)).refuses (by decide +kernel)
  have hid := identifier?_of_isAsciiName cut.name_isAsciiName hname
    (endsPath_accesses hends cut.accesses).name
  have hsettled := skipGap_of_startsName (takes_identifier (reads_identifier.takes hid)).1
  have hmembers : Spans (row [many memberAccess])
      (cut.accesses.flatMap Access.spelling ++ cut.after) cut.after := .many_of_star hstar
  obtain ⟨r, hr, hend⟩ :=
    (Spans.of_takes hsettled (reads_identifier.takes hid).either).row hmembers
  have hspans : Spans member (cut.name ++ (cut.accesses.flatMap Access.spelling ++ cut.after)) [] :=
    ⟨r, hr, hend.trans (hgap.trans halts_nil.settled.symm)⟩
  rw [cut.eq_append]
  exact hspans.congr_left (skipGap_blanks hbefore _)

/-- Whether a front keeps what stands before it from going on as a name or as a function. -/
def endsName (w : List Char) : Bool :=
  isSolidFront w && (one? isNameRest w).isNone &&
    [word "function", .lit "=>", .rule .arrowFunction].all fun p => foresee 100 p w == some none

theorem one?_append_of_isNone (hsolid : isSolidFront w = true)
    (h : (one? isNameRest w).isNone = true) (t : List Char) : one? isNameRest (w ++ t) = none := by
  cases w with
  | nil => cases hsolid
  | cons c w =>
    have hc : isNameRest c = false := by simpa [one?] using h
    simp [one?, hc]

theorem spans_assignment_of_path (h : IsPlainPath s) (hw : endsName w = true)
    (hsuffix : Spans (many (.rule .suffix)) (w ++ t) v) (hv : Ends v) :
    Spans (.rule .assignment) (s ++ (w ++ t)) v := by
  obtain ⟨cut, hblank, hname, hplain⟩ := h
  obtain ⟨hbefore, hafter⟩ := List.forall_mem_append.1 hblank
  simp only [endsName, Bool.and_eq_true, List.all_cons, List.all_nil, and_true, beq_iff_eq] at hw
  obtain ⟨⟨hsolid, hrest⟩, hfunction, harrow, hnext⟩ := hw
  have hsettled := skipGap_of_isSolidFront hsolid t
  have hgap : skipGap (cut.after ++ (w ++ t)) = w ++ t := (skipGap_blanks hafter _).trans hsettled
  have hends : EndsPath (cut.after ++ (w ++ t)) := by
    refine ⟨one?_isNameRest_append hafter ?_, ?_⟩
    · exact one?_append_of_isNone hsolid hrest t
    · rw [hgap]
      exact refuses_of_foresee hfunction
  generalize hU : cut.accesses.flatMap Access.spelling ++ (cut.after ++ (w ++ t)) = U
  have hchain : EndsPath U := hU ▸ endsPath_accesses hends cut.accesses
  have hid := identifier?_of_isAsciiName cut.name_isAsciiName hname hchain.name
  have hgapName := skipGap_of_startsName (takes_identifier (reads_identifier.takes hid)).1
  have hnone : ∀ {p : Pattern Rule}, foresee 100 p w = some none → foresee 100 p ['.'] = some none →
      foresee 100 p ['['] = some none → Refuses p (skipGap U) := by
    intro p hpw hpoint hopen
    rw [← hU]
    cases cut.accesses with
    | nil =>
      rw [List.flatMap_nil, List.nil_append, hgap]
      exact refuses_of_foresee hpw
    | cons a accesses =>
      rw [List.flatMap_cons, List.append_assoc, skipGap_access]
      obtain ⟨c, r, hc, hmark⟩ := a.exists_spelling
      rw [hc, List.append_assoc]
      rcases hmark with rfl | rfl
      · exact refuses_of_foresee hpoint
      · exact refuses_of_foresee hopen
  have hmember : Spans (.rule .callMember) (cut.name ++ U) v := by
    obtain ⟨r, hstar, hr⟩ := (hsuffix.congr_left (hgap.trans hsettled.symm)).exists_star
    have hstar := takes_star_accesses takes_suffix_of_memberAccess cut.accesses_wellFormed hplain
      hends hstar
    have hmany : Spans (many (.rule .suffix)) U v := by
      obtain ⟨r', hr', heq⟩ := Spans.many_of_star (hU ▸ hstar)
      exact ⟨r', hr', heq.trans hr⟩
    refine spans_callMember ?_ (.of_takes hgapName (takes_primary_of_name cut.name_isAsciiName hname
      hchain)) hmany
    rw [hgapName]
    exact refuses_word_of_identifier (by decide) hid
  have hfront : Refuses frontOperator (skipGap (cut.name ++ U)) := by
    obtain ⟨r, hr, -⟩ := hmember
    rw [hgapName] at hr ⊢
    exact refuses_frontOperator hgapName hr
  have harrows : Refuses arrows (skipGap (cut.name ++ U)) := by
    rw [hgapName]
    exact refuses_arrows_of_identifier hid (hnone harrow (by decide) (by decide))
      (hnone hnext (by decide) (by decide))
  have htext : s ++ (w ++ t) = cut.before ++ (cut.name ++ U) := by
    conv => lhs; rw [cut.eq_append]
    simp [← hU]
  rw [htext]
  exact (spans_assignment harrows (spans_binary (spans_unary hfront hmember hv.halts.endOperator)
    hv.halts.binaryOperator) hv.halts).congr_left (skipGap_blanks hbefore _)

/-- A path is a value. -/
theorem isValue_path (h : IsPlainPath x) : IsValue x := by
  intro k hk
  have hends := hk.ends
  obtain ⟨c, t, rfl, hc⟩ := hk
  have hall : ([',', ']', '\x7d'].all fun c => endsName [c]) = true := by decide
  exact spans_assignment_of_path (w := [c]) h (List.all_eq_true.1 hall c hc)
    (.many_nil hends.suffix) hends

end EventMarkup.Script
