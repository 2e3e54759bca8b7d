import EventMarkup.Proofs.Iteration.Cut
import EventMarkup.Proofs.Script.PathCut

/-!
# Blanks around the items of a list

The items of a list may have blanks around them (`Spaced`), and these are taken off again when the
items are read. For names they make no difference. A pattern in braces is another matter: it is told
by its first character, and the blanks are taken off only after the list has been cut. With blanks
behind it there is no list any more, and with blanks before it the list is cut at the first comma in
the braces, if there is one. `read?_spaced_eq_iff` says which spacings are read as they are meant,
and `exists_misread_spacing` shows two that are not.
-/

namespace EventMarkup.Iteration

open Peg Text Script

/-! ## Spelling -/

/-- A piece of text with blanks around it. -/
structure Spaced where
  before : List Char
  core : List Char
  after : List Char

namespace Spaced

def spelling (x : Spaced) : List Char := x.before ++ (x.core ++ x.after)

/-- Nothing but blanks stands around the piece. -/
structure AmongBlanks (x : Spaced) : Prop where
  before : ∀ c ∈ x.before, isBlank c = true
  after : ∀ c ∈ x.after, isBlank c = true

end Spaced

/-- The names that may be bound are those that are not mistaken for the word of a separator. -/
def IsBoundName (name : List Char) : Prop := IsAsciiName name ∧ name ∉ separatorWords

/-- A pattern in braces, without a closing brace or a separator inside. -/
def IsBracePattern (p : List Char) : Prop :=
  ∃ inner, '\x7d' ∉ inner ∧ p = '\x7b' :: (inner ++ ['\x7d']) ∧
    ¬ ∃ u w v, IsSeparator w ∧ p = u ++ (w ++ v)

def spacedList (first second : Spaced) (third : Option Spaced) : List Char :=
  '(' :: (first.spelling ++ ',' :: (second.spelling ++ listEnd (third.map Spaced.spelling)))

/-- What is meant by a list of items in front of a source. -/
def meant (first second : Spaced) (third : Option Spaced) (source : List Char) : Iteration where
  source := String.ofList (trim source)
  item := String.ofList first.core
  iterator1 := some (String.ofList second.core)
  iterator2 := third.map fun x => String.ofList x.core

variable {b s t u w rest x y : List Char} {c : Char}

/-! ## Trimming -/

theorem trimStart_append (hb : ∀ c ∈ b, isBlank c = true) : trimStart (b ++ s) = trimStart s :=
  List.dropWhile_append_of_pos hb

theorem trimStart_of_head? (h : ∀ c ∈ s.head?, isBlank c = false) : trimStart s = s := by
  cases s with
  | nil => rfl
  | cons c s => exact List.dropWhile_cons_of_neg (ne_true_of_eq_false (h c rfl))

theorem trimEnd_append (hb : ∀ c ∈ b, isBlank c = true) : trimEnd (s ++ b) = trimEnd s := by
  unfold trimEnd
  rw [List.reverse_append, List.dropWhile_append_of_pos (by simpa using hb)]

theorem trimEnd_of_getLast? (h : ∀ c ∈ s.getLast?, isBlank c = false) : trimEnd s = s := by
  have hstart : trimStart s.reverse = s.reverse :=
    trimStart_of_head? (by rwa [List.head?_reverse])
  unfold trimEnd
  rw [← trimStart, hstart, List.reverse_reverse]

theorem Spaced.trim_spelling {x : Spaced} (hx : x.AmongBlanks)
    (hhead : ∃ c, x.core.head? = some c ∧ isBlank c = false)
    (hlast : ∀ c ∈ x.core.getLast?, isBlank c = false) : trim x.spelling = x.core := by
  obtain ⟨c, hc, hblank⟩ := hhead
  obtain ⟨more, hmore⟩ := List.head?_eq_some_iff.1 hc
  unfold trim spelling
  rw [trimStart_append hx.before, trimStart_of_head?, trimEnd_append hx.after,
    trimEnd_of_getLast? hlast]
  simp [hmore, hblank]

/-! ## No separator in a list -/

theorem FreeBefore.append (hx : FreeBefore (y ++ rest) x) (hy : FreeBefore rest y) :
    FreeBefore rest (x ++ y) := by
  induction x with
  | nil => exact hy
  | cons c x ih =>
    obtain ⟨hfirst, hmore⟩ := freeBefore_cons_iff.1 hx
    exact freeBefore_cons_iff.2 ⟨by simpa using hfirst, ih hmore⟩

theorem StartsSeparator.isBlank_head (h : StartsSeparator (c :: s)) : isBlank c = true := by
  obtain ⟨_, ⟨before, word, after, ⟨hne, hblank⟩, -, -, rfl⟩, hprefix⟩ := h
  obtain ⟨d, before, rfl⟩ := List.exists_cons_of_ne_nil hne
  obtain ⟨rfl, -⟩ := List.cons_prefix_cons.1 hprefix
  exact hblank d List.mem_cons_self

theorem freeBefore_of_nonblank (hx : ∀ c ∈ x, isBlank c = false) : FreeBefore rest x := by
  induction x with
  | nil => exact freeBefore_nil
  | cons c x ih =>
    obtain ⟨hc, hx⟩ := List.forall_mem_cons.1 hx
    exact freeBefore_cons_iff.2 ⟨fun h => ne_true_of_eq_false hc h.isBlank_head, ih hx⟩

/-- The first piece of a text that has no blanks in it. -/
def firstWord (s : List Char) : List Char := (trimStart s).takeWhile fun c => !isBlank c

theorem StartsSeparator.firstWord_mem (h : StartsSeparator s) : firstWord s ∈ separatorWords := by
  obtain ⟨_, ⟨before, word, after, ⟨-, hbefore⟩, hword, ⟨hne, hafter⟩, rfl⟩, t, rfl⟩ := h
  obtain ⟨d, after, rfl⟩ := List.exists_cons_of_ne_nil hne
  have hd : isBlank d = true := hafter d List.mem_cons_self
  have hnonblank : ∀ word ∈ separatorWords, ∀ c ∈ word, (!isBlank c) = true := by
    have hall : (separatorWords.all fun word => word.all fun c => !isBlank c) = true := by decide
    simpa only [List.all_eq_true] using hall
  have heq : firstWord (before ++ (word ++ d :: after) ++ t) = word := by
    unfold firstWord
    simp only [List.append_assoc, List.cons_append]
    rw [trimStart_append hbefore, trimStart_of_head? (head?_word hword),
      List.takeWhile_append_of_pos (hnonblank word hword),
      List.takeWhile_cons_of_neg (by simp [hd]), List.append_nil]
  rwa [heq]

theorem freeBefore_of_blanks (hx : ∀ c ∈ x, isBlank c = true)
    (h : firstWord rest ∉ separatorWords) : FreeBefore rest x := by
  rintro u v rfl - hstarts
  have hv : ∀ c ∈ v, isBlank c = true := fun c hc => hx c (List.mem_append_right u hc)
  have hmem := hstarts.firstWord_mem
  unfold firstWord at hmem
  rw [trimStart_append hv] at hmem
  exact h hmem

/-- The marks behind an item have no place in a separator. -/
def IsMark (c : Char) : Prop := c = ',' ∨ c = ')'

theorem IsMark.isBlank_eq (h : IsMark c) : isBlank c = false := by
  rcases h with rfl | rfl <;> rfl

theorem IsMark.notMem_word (h : IsMark c) : ∀ word ∈ separatorWords, c ∉ word := by
  rcases h with rfl | rfl <;> decide

theorem firstWord_cons (hc : isBlank c = false) :
    firstWord (c :: s) = c :: s.takeWhile fun c => !isBlank c := by
  unfold firstWord
  rw [trimStart_of_head? (by rintro _ ⟨⟩; exact hc), List.takeWhile_cons_of_pos (by simp [hc])]

theorem IsMark.firstWord_notMem (h : IsMark c) : firstWord (c :: s) ∉ separatorWords := by
  intro hmem
  rw [firstWord_cons h.isBlank_eq] at hmem
  exact h.notMem_word _ hmem List.mem_cons_self

namespace IsBoundName

variable {name : List Char}

theorem isWordRest_eq (h : IsBoundName name) : ∀ c ∈ name, isWordRest c = true := by
  obtain ⟨hname, -⟩ := h
  cases name with
  | nil => exact hname.elim
  | cons c name =>
    exact List.forall_mem_cons.2 ⟨isWordRest_of_isWordStart hname.1, hname.2⟩

theorem isBlank_eq (h : IsBoundName name) : ∀ c ∈ name, isBlank c = false := by
  intro c hc
  rw [Bool.eq_false_iff]
  intro hblank
  have hword : isWordRest c = false :=
    isWordRest_of_isPathBlank (by simp [isPathBlank, hblank])
  exact ne_true_of_eq_false hword (h.isWordRest_eq c hc)

theorem ne_nil (h : IsBoundName name) : name ≠ [] := by
  rintro rfl
  exact h.1

theorem firstWord_notMem (h : IsBoundName name) {after : List Char}
    (hafter : ∀ c ∈ after, isBlank c = true) (hc : IsMark c) :
    firstWord (name ++ (after ++ c :: s)) ∉ separatorWords := by
  obtain ⟨d, more, rfl⟩ := List.exists_cons_of_ne_nil h.ne_nil
  obtain ⟨hd, hmore⟩ := List.forall_mem_cons.1 h.isBlank_eq
  rw [List.cons_append, firstWord_cons hd,
    List.takeWhile_append_of_pos (by simpa using hmore)]
  cases after with
  | nil =>
    intro hmem
    refine hc.notMem_word _ hmem ?_
    simp [List.takeWhile_cons_of_pos, hc.isBlank_eq]
  | cons e after =>
    rw [List.cons_append, List.takeWhile_cons_of_neg (by simp [hafter e List.mem_cons_self]),
      List.append_nil]
    exact h.2

end IsBoundName

namespace IsBracePattern

variable {p : List Char}

theorem head?_eq (h : IsBracePattern p) : p.head? = some '\x7b' := by
  obtain ⟨inner, -, rfl, -⟩ := h
  rfl

theorem getLast?_eq (h : IsBracePattern p) : p.getLast? = some '\x7d' := by
  obtain ⟨inner, -, rfl, -⟩ := h
  rw [← List.cons_append, List.getLast?_concat]

/-- A separator that starts in a pattern would have to run over the closing brace. -/
theorem freeBefore (h : IsBracePattern p) : FreeBefore rest p := by
  rintro u v rfl hv ⟨w, hw, hprefix⟩
  rcases List.prefix_or_prefix_of_prefix hprefix (List.prefix_append v rest) with hinside | hover
  · obtain ⟨-, -, -, hfree⟩ := h
    obtain ⟨t, rfl⟩ := hinside
    exact hfree ⟨u, w, t, hw, rfl⟩
  · have hlast := h.getLast?_eq
    rw [List.getLast?_append, List.getLast?_eq_some_getLast hv, Option.some_or,
      ← List.getLast?_eq_some_getLast hv] at hlast
    have hmem : '\x7d' ∈ w := hover.subset (List.mem_of_getLast? hlast)
    obtain ⟨before, word, after, hbefore, hword, hafter, rfl⟩ := hw
    have hnotMem : ∀ word ∈ separatorWords, '\x7d' ∉ word := by decide
    rcases List.mem_append.1 hmem with hmem | hmem
    · exact absurd (hbefore.2 _ hmem) (by decide)
    · rcases List.mem_append.1 hmem with hmem | hmem
      · exact hnotMem word hword hmem
      · exact absurd (hafter.2 _ hmem) (by decide)

end IsBracePattern

namespace Spaced

/-- The piece is a name or a pattern in braces, and nothing but blanks stands around it. -/
structure Bindable (x : Spaced) : Prop where
  amongBlanks : x.AmongBlanks
  core : IsBoundName x.core ∨ IsBracePattern x.core

/-- The piece is a name, and nothing but blanks stands around it. -/
structure IsName (x : Spaced) : Prop where
  amongBlanks : x.AmongBlanks
  core : IsBoundName x.core

theorem IsName.bindable {x : Spaced} (h : x.IsName) : x.Bindable := ⟨h.amongBlanks, .inl h.core⟩

theorem Bindable.trim_eq {x : Spaced} (h : x.Bindable) : trim x.spelling = x.core := by
  obtain ⟨hblanks, hname | hbrace⟩ := h
  · obtain ⟨c, more, hcore⟩ := List.exists_cons_of_ne_nil hname.ne_nil
    refine trim_spelling hblanks ⟨c, by simp [hcore], ?_⟩ fun d hd => ?_
    · exact hname.isBlank_eq c (hcore ▸ List.mem_cons_self)
    · exact hname.isBlank_eq d (List.mem_of_getLast? hd)
  · refine trim_spelling hblanks ⟨_, hbrace.head?_eq, rfl⟩ fun d hd => ?_
    cases hbrace.getLast?_eq.symm.trans hd
    rfl

theorem Bindable.core_ne_nil {x : Spaced} (h : x.Bindable) : x.core ≠ [] := by
  rcases h.core with hname | ⟨inner, -, hcore, -⟩
  · exact hname.ne_nil
  · simp [hcore]

theorem Bindable.spelling_ne_nil {x : Spaced} (h : x.Bindable) : x.spelling ≠ [] := by
  simp [spelling, h.core_ne_nil]

theorem IsName.isItem {x : Spaced} (h : x.IsName) : Iteration.IsItem x.spelling rest := by
  have hchars : ∀ c ∈ x.spelling, isBlank c = true ∨ isWordRest c = true := by
    simp only [spelling, List.forall_mem_append]
    exact ⟨fun c hc => .inl (h.amongBlanks.before c hc), fun c hc => .inr (h.core.isWordRest_eq c hc),
      fun c hc => .inl (h.amongBlanks.after c hc)⟩
  refine .plain (fun c hc => ⟨?_, ?_⟩) fun hopen => ?_
  · rintro rfl
    exact absurd (hchars _ hc) (by decide)
  · rintro rfl
    exact absurd (hchars _ hc) (by decide)
  · exact absurd (hchars _ (List.mem_of_mem_head? hopen)) (by decide)

theorem Bindable.freeBefore {x : Spaced} (h : x.Bindable) (hc : IsMark c) :
    FreeBefore (c :: s) x.spelling := by
  obtain ⟨hblanks, hcore⟩ := h
  have hafter : FreeBefore (c :: s) x.after :=
    freeBefore_of_blanks hblanks.after hc.firstWord_notMem
  rcases hcore with hname | hbrace
  · refine (freeBefore_of_blanks hblanks.before ?_).append
      ((freeBefore_of_nonblank hname.isBlank_eq).append hafter)
    rw [List.append_assoc]
    exact hname.firstWord_notMem hblanks.after hc
  · refine (freeBefore_of_blanks hblanks.before ?_).append (hbrace.freeBefore.append hafter)
    obtain ⟨more, hmore⟩ := List.head?_eq_some_iff.1 hbrace.head?_eq
    rw [hmore, List.cons_append, List.cons_append, firstWord_cons rfl]
    simp [separatorWords]

end Spaced

/-! ## Reading a list -/

section Lists

variable {first second : Spaced} {third : Option Spaced} {source : List Char}

theorem freeBefore_mark (hc : IsMark c) (h : FreeBefore rest s) : FreeBefore rest (c :: s) :=
  freeBefore_cons_iff.2 ⟨fun hstarts => ne_true_of_eq_false hc.isBlank_eq hstarts.isBlank_head, h⟩

theorem freeBefore_listEnd (hthird : ∀ x ∈ third, x.IsName) :
    FreeBefore rest (listEnd (third.map Spaced.spelling)) := by
  have hclose : IsMark ')' := .inr rfl
  cases third with
  | none => exact freeBefore_mark hclose freeBefore_nil
  | some x =>
    exact freeBefore_mark (.inl rfl) (((hthird x rfl).bindable.freeBefore hclose).append
      (freeBefore_mark hclose freeBefore_nil))

theorem freeBefore_spacedList (hfirst : first.Bindable) (hsecond : second.IsName)
    (hthird : ∀ x ∈ third, x.IsName) : FreeBefore rest (spacedList first second third) := by
  have hend : FreeBefore rest (listEnd (third.map Spaced.spelling)) := freeBefore_listEnd hthird
  have hmark : ∃ d t, IsMark d ∧ listEnd (third.map Spaced.spelling) = d :: t := by
    cases third with
    | none => exact ⟨')', [], .inr rfl, rfl⟩
    | some x => exact ⟨',', _, .inl rfl, rfl⟩
  obtain ⟨d, t, hd, heq⟩ := hmark
  have htail : FreeBefore rest (second.spelling ++ listEnd (third.map Spaced.spelling)) := by
    refine FreeBefore.append ?_ hend
    rw [heq]
    exact hsecond.bindable.freeBefore hd
  have hcomma : IsMark ',' := .inl rfl
  refine freeBefore_cons_iff.2 ⟨fun h => absurd h.isBlank_head (by decide), ?_⟩
  exact (hfirst.freeBefore hcomma).append (freeBefore_mark hcomma htail)

theorem getLast?_spacedList : (spacedList first second third).getLast? = some ')' := by
  have h : ∃ t, spacedList first second third = t ++ [')'] := by
    unfold spacedList
    cases third with
    | none => exact ⟨'(' :: (first.spelling ++ ',' :: second.spelling), by simp [listEnd]⟩
    | some x =>
      exact ⟨'(' :: (first.spelling ++ ',' :: (second.spelling ++ ',' :: x.spelling)),
        by simp [listEnd]⟩
  obtain ⟨t, h⟩ := h
  rw [h, List.getLast?_concat]

theorem trim_spacedList : trim (spacedList first second third) = spacedList first second third := by
  unfold trim
  rw [trimStart_of_head? (by rintro _ ⟨⟩; rfl), trimEnd_of_getLast?]
  rw [getLast?_spacedList]
  rintro _ ⟨⟩
  rfl

theorem read?_spacedList (hfirst : first.Bindable) (hsecond : second.IsName)
    (hthird : ∀ x ∈ third, x.IsName) (hw : IsSeparator w) :
    read? (String.ofList (spacedList first second third ++ (w ++ source))) =
      some (bind (String.ofList (trim source)) (spacedList first second third)) := by
  have hfree : FreeBefore (w ++ source) (spacedList first second third) :=
    freeBefore_spacedList hfirst hsecond hthird
  obtain ⟨cut, hleft, hright⟩ := hfree.exists_firstCut hw
  rw [cut.read?_eq String.toList_ofList, hleft, hright, trim_spacedList]
  have hsource : trim (trimStart source) = trim source := by
    unfold trim
    rw [trimStart_of_head? (head?_trimStart source)]
  rw [hsource]

theorem exists_listCut_spacedList (hthird : ∀ x ∈ third, x.IsName) (hsecond : second.IsName)
    (hfirst : IsItem first.spelling (',' :: (second.spelling ++ listEnd (third.map Spaced.spelling)))) :
    ∃ cut : ListCut (spacedList first second third), cut.first = first.spelling ∧
      cut.second = second.spelling ∧ cut.third = third.map Spaced.spelling := by
  refine ⟨⟨first.spelling, second.spelling, third.map Spaced.spelling, rfl, hfirst, hsecond.isItem,
    fun item hitem => ?_⟩, rfl, rfl, rfl⟩
  obtain ⟨x, hx, rfl⟩ := Option.map_eq_some_iff.1 hitem
  exact (hthird x hx).isItem

theorem bind_spacedList (hfirst : first.Bindable) (hsecond : second.IsName)
    (hthird : ∀ x ∈ third, x.IsName)
    (hitem : IsItem first.spelling (',' :: (second.spelling ++ listEnd (third.map Spaced.spelling)))) :
    bind (String.ofList (trim source)) (spacedList first second third) =
      meant first second third source := by
  obtain ⟨cut, hcutFirst, hcutSecond, hcutThird⟩ := exists_listCut_spacedList hthird hsecond hitem
  rw [cut.bind_eq, hcutFirst, hcutSecond, hcutThird, hfirst.trim_eq, hsecond.bindable.trim_eq]
  unfold meant
  congr 1
  cases third with
  | none => rfl
  | some x =>
    have hx := (hthird x rfl).bindable
    simp [hx.trim_eq, Option.filter, hx.spelling_ne_nil]

/-- The spacing with which the first item of a list is found: a pattern in braces has no blanks
around it, or it has blanks before it and no mark of a list inside. -/
def Spaced.Fits (x : Spaced) : Prop :=
  IsBoundName x.core ∨ (x.before = [] ∧ x.after = []) ∨ (x.before ≠ [] ∧ ∀ c ∈ x.core, ¬ IsMark c)

theorem Spaced.Fits.isItem {x : Spaced} (h : x.Fits) (hx : x.Bindable) : IsItem x.spelling rest := by
  by_cases hname : IsBoundName x.core
  · exact Spaced.IsName.isItem ⟨hx.amongBlanks, hname⟩
  · have hbrace := hx.core.resolve_left hname
    rcases h.resolve_left hname with ⟨hbefore, hafter⟩ | ⟨hbefore, hmarks⟩
    · obtain ⟨inner, hinner, hcore, -⟩ := hbrace
      unfold Spaced.spelling
      rw [hbefore, hafter, hcore, List.nil_append, List.append_nil]
      exact .braced hinner
    · refine .plain (fun c hc => not_or.1 fun hmark : IsMark c => ?_) fun hopen => ?_
      · simp only [Spaced.spelling, List.mem_append] at hc
        rcases hc with hc | hc | hc
        · exact ne_true_of_eq_false hmark.isBlank_eq (hx.amongBlanks.before c hc)
        · exact hmarks c hc hmark
        · exact ne_true_of_eq_false hmark.isBlank_eq (hx.amongBlanks.after c hc)
      · obtain ⟨d, before, hd⟩ := List.exists_cons_of_ne_nil hbefore
        rw [Spaced.spelling, hd] at hopen
        cases hopen
        exact absurd (hx.amongBlanks.before _ (hd ▸ List.mem_cons_self)) (by decide)

/-- Where a text that starts with a spaced pattern is cut so that its first item is that pattern,
the pattern is found with the blanks around it. -/
theorem Spaced.fits_of_isItem {x : Spaced} (hblanks : x.AmongBlanks)
    (hbrace : IsBracePattern x.core) {item tail : List Char} (hitem : IsItem item (',' :: tail))
    (htrim : trim item = x.core) (heq : x.spelling ++ ',' :: t = item ++ ',' :: tail) :
    x.Fits := by
  refine .inr ?_
  cases hitem with
  | @braced inner _ hinner =>
    have hcore : x.core = '\x7b' :: (inner ++ ['\x7d']) := by
      rw [← htrim, trim, trimStart_of_head? (by rintro _ ⟨⟩; rfl), trimEnd_of_getLast?]
      rw [← List.cons_append, List.getLast?_concat]
      rintro _ ⟨⟩
      rfl
    rw [Spaced.spelling, hcore] at heq
    cases hbefore : x.before with
    | nil =>
      rw [hbefore, List.nil_append, List.append_assoc, List.append_cancel_left_eq] at heq
      cases hafter : x.after with
      | nil => exact .inl ⟨rfl, rfl⟩
      | cons d after =>
        rw [hafter] at heq
        cases heq
        exact absurd (hblanks.after ',' (hafter ▸ List.mem_cons_self)) (by decide)
    | cons d before =>
      rw [hbefore] at heq
      obtain ⟨rfl, -⟩ := List.cons.inj heq
      exact absurd (hblanks.before '\x7b' (hbefore ▸ List.mem_cons_self)) (by decide)
  | plain hchars hclose =>
    cases hbefore : x.before with
    | nil =>
      have hmem : '\x7d' ∈ item ++ ',' :: tail := by
        rw [← heq, Spaced.spelling]
        simp [List.mem_of_getLast? hbrace.getLast?_eq]
      obtain ⟨more, hmore⟩ := List.head?_eq_some_iff.1 hbrace.head?_eq
      rw [Spaced.spelling, hbefore, hmore] at heq
      cases item with
      | nil => cases heq
      | cons c item =>
        obtain ⟨rfl, -⟩ := List.cons.inj heq
        exact absurd hmem (hclose rfl)
    | cons d before =>
      refine .inr ⟨by simp, fun c hc hmark => not_or.2 (hchars c ?_) hmark⟩
      exact (trim_isInfix item).subset (htrim ▸ hc)

/-- A list is read as it is meant exactly if its first item is found with the blanks around it. -/
theorem read?_spaced_eq_iff (hfirst : first.Bindable) (hsecond : second.IsName)
    (hthird : ∀ x ∈ third, x.IsName) (hw : IsSeparator w) :
    read? (String.ofList (spacedList first second third ++ (w ++ source))) =
      some (meant first second third source) ↔ first.Fits := by
  rw [read?_spacedList hfirst hsecond hthird hw, Option.some_inj]
  refine ⟨fun h => ?_, fun h => bind_spacedList hfirst hsecond hthird (h.isItem hfirst)⟩
  rcases hfirst.core with hname | hbrace
  · exact .inl hname
  have hitem := congrArg Iteration.item h
  by_cases hcut : Nonempty (ListCut (spacedList first second third))
  · obtain ⟨cut⟩ := hcut
    rw [cut.bind_eq] at hitem
    exact Spaced.fits_of_isItem hfirst.amongBlanks hbrace cut.first_isItem
      (String.ofList_injective hitem) (List.cons.inj cut.eq_append).2
  -- without a list the whole text would be bound, which is longer than the pattern
  · rw [bind_eq_of_no_listCut hcut] at hitem
    have hlength := congrArg List.length (String.ofList_injective hitem)
    simp only [spacedList, Spaced.spelling, List.length_cons, List.length_append] at hlength
    omega

end Lists

/-- With blanks behind the pattern in `({id,name} , i) in rows` there is no list: the whole of it is
bound as one name. -/
theorem exists_misread_spacing :
    ¬ ∀ (first second : Spaced) (third : Option Spaced) (source : List Char),
      first.Bindable → second.IsName → (∀ x ∈ third, x.IsName) →
        read? (String.ofList (spacedList first second third ++ (" in ".toList ++ source))) =
          some (meant first second third source) := by
  intro h
  have hfree : ¬ ∃ u w v, IsSeparator w ∧ "\x7bid,name\x7d".toList = u ++ (w ++ v) := by
    rintro ⟨u, _, v, ⟨before, word, after, ⟨hne, hblank⟩, -, -, rfl⟩, heq⟩
    have hnonblank : ("\x7bid,name\x7d".toList.all fun c => !isBlank c) = true := by decide
    obtain ⟨c, before, rfl⟩ := List.exists_cons_of_ne_nil hne
    have hc := List.all_eq_true.1 hnonblank c (by simp [heq])
    rw [hblank c List.mem_cons_self] at hc
    cases hc
  have hfirst : Spaced.Bindable ⟨[], "\x7bid,name\x7d".toList, [' ']⟩ :=
    ⟨⟨by simp, List.forall_mem_singleton.2 rfl⟩,
      .inr ⟨"id,name".toList, by decide, by decide, hfree⟩⟩
  have hsecond : Spaced.IsName ⟨[' '], ['i'], []⟩ :=
    ⟨⟨List.forall_mem_singleton.2 rfl, by simp⟩, ⟨rfl, by simp⟩, by decide⟩
  exact absurd (h _ _ none "rows".toList hfirst hsecond (by simp)) (by decide +kernel)

/-- With blanks before the pattern the list is cut at the comma in it. -/
example : read? "( \x7bid,name\x7d, i) in rows" = some
    { source := "rows", item := "\x7bid", iterator1 := some "name\x7d", iterator2 := some "i" } := by
  decide +kernel

end EventMarkup.Iteration
