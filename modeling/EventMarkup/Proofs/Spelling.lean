import EventMarkup.Markup.Forest
import Mathlib.Data.List.DropRight

/-!
# Forests and how they are spelled

Every forest of plain nodes can be spelled as a template: tags around the children, attributes
behind the name of the tag, and texts as they are. Reading the spelling gives the forest back,
whatever is nested in what. A node is plain if the spelling can show all of it: its names consist of
the right characters, its values hold no double quote, and a tag cannot start inside of a text.

The proof goes through the steps that a forest asks for. `readSteps_spellAll` says that the spelling
is read as these steps, up to any place where a text must end, and `foldl_stepsAll` says that the
steps put the forest together. Both follow the tree.
-/

namespace EventMarkup

open Markup Text

section OfAttributes

variable (tag : String) (attributes : List Attribute) (selfClosing : Bool)

theorem Element.apply_written (e : Element) (a : Attribute) :
    (e.apply a).tag = e.tag ∧ (e.apply a).attributes = e.attributes ∧
      (e.apply a).selfClosing = e.selfClosing := by
  rw [Element.apply]
  split
  · rw [Element.listen]
    split <;> exact ⟨rfl, rfl, rfl⟩
  · split
    · split <;> exact ⟨rfl, rfl, rfl⟩
    · exact ⟨rfl, rfl, rfl⟩

theorem Element.foldl_apply_written (e : Element) :
    (attributes.foldl Element.apply e).tag = e.tag ∧
      (attributes.foldl Element.apply e).attributes = e.attributes ∧
      (attributes.foldl Element.apply e).selfClosing = e.selfClosing := by
  induction attributes generalizing e with
  | nil => exact ⟨rfl, rfl, rfl⟩
  | cons a attributes ih =>
    obtain ⟨htag, hattributes, hself⟩ := Element.apply_written e a
    rw [List.foldl_cons, ← htag, ← hattributes, ← hself]
    exact ih _

@[simp] theorem Element.ofAttributes_tag :
    (Element.ofAttributes tag attributes selfClosing).tag = tag :=
  (Element.foldl_apply_written attributes _).1

@[simp] theorem Element.ofAttributes_attributes :
    (Element.ofAttributes tag attributes selfClosing).attributes = attributes :=
  (Element.foldl_apply_written attributes _).2.1

@[simp] theorem Element.ofAttributes_selfClosing :
    (Element.ofAttributes tag attributes selfClosing).selfClosing = selfClosing :=
  (Element.foldl_apply_written attributes _).2.2

end OfAttributes

/-! ## Spelling -/

def Attribute.spell (a : Attribute) : List Char :=
  match a.value with
  | none => ' ' :: a.name.toList
  | some value => ' ' :: a.name.toList ++ '=' :: '"' :: value.toList ++ ['"']

/-- Whether an element has no content: it ends itself, or its tag says so. -/
def Element.isEmpty (e : Element) : Bool := e.selfClosing || voidTags.contains e.tag

def Element.spellTag (e : Element) : List Char :=
  '<' :: e.tag.toList ++ e.attributes.flatMap Attribute.spell ++
    (if e.selfClosing then ['/', '>'] else ['>'])

namespace Node

mutual

def spell : Node → List Char
  | .element e children =>
    e.spellTag ++
      (if e.isEmpty then [] else spellAll children ++ '<' :: '/' :: e.tag.toList ++ ['>'])
  | .interpolation _ run => run.toList
  | .text run => run.toList

def spellAll : List Node → List Char
  | [] => []
  | n :: ns => spell n ++ spellAll ns

end

/-- Whether the node is a text, with interpolations or without. -/
def isRun : Node → Bool
  | .element _ _ => false
  | .interpolation _ _ => true
  | .text _ => true

end Node

/-! ## Plain nodes -/

/-- An attribute whose name and value the spelling can show. -/
structure Attribute.Plain (a : Attribute) : Prop where
  name_ne : a.name.toList ≠ []
  name_chars : ∀ c ∈ a.name.toList, isAttributeChar c = true
  value_chars : ∀ value ∈ a.value, '"' ∉ value.toList

/-- An element whose tag the spelling can show, with what its attributes say. -/
structure Element.Plain (e : Element) : Prop where
  derived : e = Element.ofAttributes e.tag e.attributes e.selfClosing
  tag_start : ∃ c ∈ e.tag.toList.head?, c.isAlpha = true
  tag_chars : ∀ c ∈ e.tag.toList, isTagChar c = true
  attributes : ∀ a ∈ e.attributes, a.Plain

theorem Element.plain_ofAttributes {tag : String} {attributes : List Attribute}
    (hstart : ∃ c ∈ tag.toList.head?, c.isAlpha = true)
    (hchars : ∀ c ∈ tag.toList, isTagChar c = true) (hattributes : ∀ a ∈ attributes, a.Plain)
    (selfClosing : Bool) : (Element.ofAttributes tag attributes selfClosing).Plain where
  derived := by simp
  tag_start := by simpa using hstart
  tag_chars := by simpa using hchars
  attributes := by simpa using hattributes

/-- A text in which every interpolation is closed and no tag starts outside of them. -/
structure PlainRun (text : String) : Prop where
  not_blank : allBlank text.toList = false
  static : ∀ s, Segment.static s ∈ segments text.toList → '<' ∉ s ∧ ¬ openMark <:+: s

namespace Node

mutual

/-- A node that the spelling can show, with all nodes below it. -/
def Plain : Node → Prop
  | .element e children => e.Plain ∧ (e.isEmpty = true → children = []) ∧ PlainAll children
  | .interpolation expression run =>
    PlainRun run ∧ openMark <:+: run.toList ∧ expressionOf? run = some expression
  | .text run =>
    allBlank run.toList = false ∧ '<' ∉ run.toList ∧ ¬ openMark <:+: run.toList

/-- Nodes that the spelling can show side by side: no text stands next to another. -/
def PlainAll : List Node → Prop
  | [] => True
  | n :: ns => Plain n ∧ (n.isRun = true → ∀ m ∈ ns.head?, m.isRun = false) ∧ PlainAll ns

end

end Node

/-! ## Reading a text -/

/-- A place where every text ends: the end of the template or the start of a tag. -/
def RunEnd (s : List Char) : Prop := s = [] ∨ isTagStart s = true

theorem cutAt?_eq_none_iff {mark s : List Char} : cutAt? mark s = none ↔ ¬ mark <:+: s := by
  constructor
  · rintro h ⟨before, rest, rfl⟩
    induction before with
    | nil =>
      cases mark with
      | nil => cases rest <;> simp [cutAt?, dropFront?] at h
      | cons c mark =>
        have hd := dropFront?_append (c :: mark) rest
        simp only [List.cons_append] at hd
        simp [cutAt?, hd] at h
    | cons c before ih =>
      simp only [List.cons_append, cutAt?] at h
      split at h
      · cases h
      · exact ih (by simpa using h)
  · intro h
    cases hc : cutAt? mark s with
    | none => rfl
    | some cut => exact absurd ⟨_, _, (eq_append_of_cutAt? hc).symm⟩ h

theorem dropFront?_append_eq_none {mark s t : List Char} (hlen : mark.length ≤ s.length)
    (h : dropFront? mark s = none) : dropFront? mark (s ++ t) = none := by
  induction mark generalizing s with
  | nil => simp [dropFront?] at h
  | cons c mark ih =>
    cases s with
    | nil => simp at hlen
    | cons d s =>
      by_cases hc : c = d
      · rw [dropFront?, if_pos hc] at h
        rw [List.cons_append, dropFront?, if_pos hc]
        exact ih (by simpa using hlen) h
      · rw [List.cons_append, dropFront?, if_neg hc]

theorem dropFront?_of_cutAt? {mark s before rest : List Char}
    (h : cutAt? mark s = some (before, rest)) {c : Char} {b : List Char}
    (hb : c :: b <:+ before) : dropFront? mark (c :: b ++ mark ++ rest) = none := by
  induction s generalizing before with
  | nil =>
    simp only [cutAt?, Option.map_eq_some_iff, Prod.mk.injEq] at h
    obtain ⟨_, _, rfl, _⟩ := h
    simp at hb
  | cons d s ih =>
    rw [cutAt?] at h
    split at h
    · cases h
      simp at hb
    · rename_i hd
      simp only [Option.map_eq_some_iff, Prod.mk.injEq, Prod.exists] at h
      obtain ⟨b', r, hcut, rfl, rfl⟩ := h
      rcases List.suffix_cons_iff.1 hb with heq | hb
      · cases heq
        rw [eq_append_of_cutAt? hcut] at hd
        simpa using hd
      · exact ih hcut hb

theorem cutAt?_append {mark s t before rest : List Char}
    (h : cutAt? mark s = some (before, rest)) :
    cutAt? mark (s ++ t) = some (before, rest ++ t) := by
  induction s generalizing before with
  | nil =>
    simp only [cutAt?, Option.map_eq_some_iff, Prod.mk.injEq] at h
    obtain ⟨r, hd, rfl, rfl⟩ := h
    cases mark with
    | nil => cases hd; cases t <;> simp [cutAt?, dropFront?]
    | cons c mark => simp [dropFront?] at hd
  | cons c s ih =>
    rw [cutAt?] at h
    rw [List.cons_append, cutAt?, ← List.cons_append]
    split at h
    · rename_i r hd
      cases h
      rw [eq_append_of_dropFront? hd, List.append_assoc, dropFront?_append]
    · rename_i hd
      simp only [Option.map_eq_some_iff, Prod.mk.injEq, Prod.exists] at h
      obtain ⟨b, r, hcut, rfl, rfl⟩ := h
      have hlen : mark.length ≤ (c :: s).length := by
        rw [eq_append_of_cutAt? hcut]
        simp
        omega
      rw [dropFront?_append_eq_none hlen hd, ih hcut]
      rfl

theorem exists_of_isTagStart {s : List Char} (h : isTagStart s = true) :
    ∃ c r, s = '<' :: c :: r ∧ (c.isAlpha || c == '/' || c == '!') = true := by
  unfold isTagStart at h
  split at h
  · exact ⟨_, _, rfl, h⟩
  · cases h

theorem RunEnd.dropFront?_openMark {c : Char} {s rest : List Char} (hrest : RunEnd rest)
    (h : dropFront? openMark (c :: s) = none) : dropFront? openMark (c :: s ++ rest) = none := by
  cases s with
  | nil =>
    rcases hrest with rfl | hrest
    · exact h
    · obtain ⟨d, r, rfl, _⟩ := exists_of_isTagStart hrest
      by_cases hc : '\x7b' = c <;> simp [openMark, dropFront?, hc]
  | cons d s => exact dropFront?_append_eq_none (by simp [openMark]) h

theorem readRun_cons {begun : Bool} {c : Char} {s run rest : List Char} (hc : c ≠ '<')
    (hmark : dropFront? openMark (c :: s) = none) (h : readRun true s = .ok (run, rest)) :
    readRun begun (c :: s) = .ok (c :: run, rest) := by
  have htag : isTagStart (c :: s) = false := by
    unfold isTagStart
    split
    · rename_i heq
      exact absurd (List.cons.inj heq).1 hc
    · rfl
  rw [readRun, htag, Bool.and_false, if_neg Bool.false_ne_true]
  split
  · rename_i heq
    rw [hmark] at heq
    cases heq
  · simp [h]

theorem readRun_interpolation {begun : Bool} {after inside s run rest : List Char}
    (hcut : cutAt? closeMark after = some (inside, s)) (h : readRun true s = .ok (run, rest)) :
    readRun begun (openMark ++ after) = .ok (openMark ++ inside ++ closeMark ++ run, rest) := by
  rw [readRun]
  have htag : isTagStart (openMark ++ after) = false := rfl
  rw [htag, Bool.and_false, if_neg Bool.false_ne_true]
  split
  · rename_i heq
    rw [dropFront?_append] at heq
    cases heq
    split
    · rename_i hcut'
      rw [hcut] at hcut'
      cases hcut'
      rw [h]
    · rename_i hcut'
      rw [hcut] at hcut'
      cases hcut'
  · rename_i heq
    rw [dropFront?_append] at heq
    cases heq

theorem RunEnd.readRun_nil {rest : List Char} (hrest : RunEnd rest) :
    readRun true rest = .ok ([], rest) := by
  rcases hrest with rfl | hrest
  · simp [readRun, isTagStart, openMark, dropFront?]
  · rw [readRun, hrest, Bool.and_self, if_pos rfl]

theorem readRun_static {begun : Bool} {before s run rest : List Char} (htag : '<' ∉ before)
    (hmark : ∀ c b, c :: b <:+ before → dropFront? openMark (c :: b ++ s) = none)
    (h : readRun (begun || !before.isEmpty) s = .ok (run, rest)) :
    readRun begun (before ++ s) = .ok (before ++ run, rest) := by
  induction before generalizing begun with
  | nil => simpa using h
  | cons c before ih =>
    have hc : c ≠ '<' := fun e => htag (e ▸ List.mem_cons_self)
    refine readRun_cons hc (hmark c before (List.suffix_refl _)) ?_
    exact ih (fun hm => htag (List.mem_cons_of_mem _ hm))
      (fun d b hb => hmark d b (hb.trans (List.suffix_cons _ _))) (by simpa using h)

theorem readRun_of_static {begun : Bool} {s rest : List Char}
    (hstatic : ∀ t, Segment.static t ∈ segments s → '<' ∉ t ∧ ¬ openMark <:+: t)
    (hrest : RunEnd rest) (hbegun : begun = true ∨ s ≠ []) :
    readRun begun (s ++ rest) = .ok (s, rest) := by
  fun_induction segments s generalizing begun with
  | case1 s hopen =>
    obtain ⟨htag, -⟩ := hstatic s (by simp)
    have hb : (begun || !s.isEmpty) = true := by
      rcases hbegun with rfl | hne
      · rfl
      · simp [hne]
    have hend : readRun (begun || !s.isEmpty) rest = .ok ([], rest) := hb ▸ hrest.readRun_nil
    have h := readRun_static htag ?_ hend
    · rwa [List.append_nil] at h
    · intro c b hb
      refine hrest.dropFront?_openMark ?_
      cases hd : dropFront? openMark (c :: b) with
      | none => rfl
      | some after =>
        refine absurd (List.IsInfix.trans ⟨[], after, ?_⟩ hb.isInfix) (cutAt?_eq_none_iff.1 hopen)
        simpa using (eq_append_of_dropFront? hd).symm
  | case2 s before after hopen hclose =>
    obtain ⟨-, hmark⟩ := hstatic s (by simp)
    rw [cutAt?_eq_none_iff.2 hmark] at hopen
    cases hopen
  | case3 s before after hopen inside t hclose ih =>
    obtain ⟨htag, -⟩ := hstatic before (by simp)
    have hin : readRun true (t ++ rest) = .ok (t, rest) :=
      ih (fun u hu => hstatic u (by simp [hu])) (.inl rfl)
    have hclose' : cutAt? closeMark (after ++ rest) = some (inside, t ++ rest) :=
      cutAt?_append hclose
    have hmid : readRun (begun || !before.isEmpty) (openMark ++ (after ++ rest)) =
        .ok (openMark ++ inside ++ closeMark ++ t, rest) := readRun_interpolation hclose' hin
    have h := readRun_static htag ?_ hmid
    · rw [eq_append_of_cutAt? hopen, eq_append_of_cutAt? hclose]
      rw [eq_append_of_cutAt? hclose] at h
      simpa using h
    · intro c b hb
      have hd := dropFront?_of_cutAt? hopen hb
      have := dropFront?_append_eq_none (t := rest) (by simp [openMark]; omega) hd
      simpa using this

/-! ## Reading a tag -/

section While

variable {α : Type} {p : α → Bool} {s rest : List α}

theorem takeWhile_front (hs : ∀ c ∈ s, p c = true) (hrest : ∀ c ∈ rest.head?, p c = false) :
    (s ++ rest).takeWhile p = s := by
  rw [List.takeWhile_append_of_pos hs]
  cases rest with
  | nil => simp
  | cons c rest => simp [hrest c (by simp)]

theorem dropWhile_front (hs : ∀ c ∈ s, p c = true) (hrest : ∀ c ∈ rest.head?, p c = false) :
    (s ++ rest).dropWhile p = rest := by
  rw [List.dropWhile_append_of_pos hs]
  cases rest with
  | nil => simp
  | cons c rest => simp [hrest c (by simp)]

end While

theorem skipBlanks_of_head {s : List Char} (h : ∀ c ∈ s.head?, isTagBlank c = false) :
    skipBlanks s = s := dropWhile_front (s := []) (by simp) h

theorem skipBlanks_blank (s : List Char) : skipBlanks (' ' :: s) = skipBlanks s := rfl

theorem readTagEnd_skipBlanks (s : List Char) : readTagEnd (skipBlanks s) = readTagEnd s := by
  have h : skipBlanks (skipBlanks s) = skipBlanks s := List.dropWhile_idempotent _ _
  rw [readTagEnd, readTagEnd, h]

theorem isTagBlank_of_isAttributeChar {c : Char} (h : isAttributeChar c = true) :
    isTagBlank c = false := by
  cases hb : isTagBlank c with
  | false => rfl
  | true =>
    simp only [isTagBlank, Bool.or_eq_true, beq_iff_eq] at hb
    rcases hb with (((rfl | rfl) | rfl) | rfl) | rfl <;> exact absurd h (by decide)

/-- What may follow an attribute: another one, or the end of the tag. -/
def AttributeEnd (s : List Char) : Prop :=
  (∃ r, s = '/' :: r) ∨ (∃ r, s = '>' :: r) ∨
    ∃ c r, s = ' ' :: c :: r ∧ isAttributeChar c = true

theorem AttributeEnd.head {s : List Char} (h : AttributeEnd s) :
    ∀ c ∈ s.head?, isAttributeChar c = false := by
  rcases h with ⟨r, rfl⟩ | ⟨r, rfl⟩ | ⟨c, r, rfl, -⟩ <;> simp <;> decide

theorem AttributeEnd.skipBlanks_ne {s : List Char} (h : AttributeEnd s) (r : List Char) :
    skipBlanks s ≠ '=' :: r := by
  rcases h with ⟨t, rfl⟩ | ⟨t, rfl⟩ | ⟨c, t, rfl, hc⟩
  · rw [skipBlanks_of_head (by simp; decide)]
    simp
  · rw [skipBlanks_of_head (by simp; decide)]
    simp
  · rw [skipBlanks_blank, skipBlanks_of_head (by simpa using isTagBlank_of_isAttributeChar hc)]
    rintro ⟨⟩
    exact absurd hc (by decide)

theorem cutAt?_singleton {c : Char} {before : List Char} (rest : List Char) (h : c ∉ before) :
    cutAt? [c] (before ++ c :: rest) = some (before, rest) := by
  induction before with
  | nil => simp [cutAt?, dropFront?]
  | cons d before ih =>
    have hd : ¬ c = d := fun e => h (e ▸ List.mem_cons_self)
    have hbefore := ih (fun hm => h (List.mem_cons_of_mem _ hm))
    simp [cutAt?, dropFront?, hd, hbefore]

theorem readValue_quoted {name value : List Char} (rest : List Char) (h : '"' ∉ value) :
    readValue name ('"' :: value ++ '"' :: rest) = .ok (value, rest) := by
  rw [List.cons_append, readValue, if_pos (.inl rfl), cutAt?_singleton rest h]

theorem readAttribute_spell {a : Attribute} (ha : a.Plain) {rest : List Char}
    (hrest : AttributeEnd rest) :
    ∃ rest', readAttribute (a.spell.tail ++ rest) = .ok (a, rest') ∧
      readTagEnd rest' = readTagEnd rest := by
  obtain ⟨name, value⟩ := a
  obtain ⟨-, hname, hvalue⟩ := ha
  dsimp only at hname hvalue
  cases value with
  | none =>
    refine ⟨skipBlanks rest, ?_, readTagEnd_skipBlanks rest⟩
    have hspell : (Attribute.spell ⟨name, none⟩).tail = name.toList := rfl
    rw [hspell, readAttribute, takeWhile_front hname hrest.head,
      dropWhile_front hname hrest.head]
    split
    · rename_i r hr
      exact absurd hr (hrest.skipBlanks_ne r)
    · rw [String.ofList_toList]
  | some value =>
    refine ⟨rest, ?_, rfl⟩
    have hspell : (Attribute.spell ⟨name, some value⟩).tail ++ rest =
        name.toList ++ '=' :: ('"' :: value.toList ++ '"' :: rest) := by
      simp [Attribute.spell]
    have heq : ∀ c ∈ ('=' :: ('"' :: value.toList ++ '"' :: rest)).head?,
        isAttributeChar c = false := by
      simp
      decide
    rw [hspell, readAttribute, takeWhile_front hname heq, dropWhile_front hname heq]
    have hblank : ∀ s, skipBlanks ('=' :: s) = '=' :: s := fun _ => rfl
    have hquote : skipBlanks ('"' :: value.toList ++ '"' :: rest) =
        '"' :: value.toList ++ '"' :: rest := rfl
    simp only [hblank, hquote, readValue_quoted rest (hvalue value rfl), String.ofList_toList]

theorem Attribute.Plain.spell_eq {a : Attribute} (ha : a.Plain) :
    ∃ c r, a.spell = ' ' :: c :: r ∧ isAttributeChar c = true := by
  obtain ⟨name, value⟩ := a
  obtain ⟨hne, hname, -⟩ := ha
  obtain ⟨c, r, hc⟩ := List.exists_cons_of_ne_nil hne
  dsimp only at hc hname
  have hchar := hname c (by simp [hc])
  cases value with
  | none => exact ⟨c, r, by simp [Attribute.spell, hc], hchar⟩
  | some value => exact ⟨c, _, by simp [Attribute.spell, hc]; rfl, hchar⟩

theorem attributeEnd_spell {attributes : List Attribute} (h : ∀ a ∈ attributes, a.Plain)
    (selfClosing : Bool) (rest : List Char) :
    AttributeEnd (attributes.flatMap Attribute.spell ++
      ((if selfClosing then ['/', '>'] else ['>']) ++ rest)) := by
  cases attributes with
  | nil =>
    cases selfClosing with
    | true => exact .inl ⟨_, rfl⟩
    | false => exact .inr (.inl ⟨_, rfl⟩)
  | cons a attributes =>
    obtain ⟨c, r, hspell, hc⟩ := (h a List.mem_cons_self).spell_eq
    exact .inr (.inr ⟨c, _, by simp [hspell]; rfl, hc⟩)

theorem readTagEnd_spell {attributes : List Attribute} (h : ∀ a ∈ attributes, a.Plain)
    (selfClosing : Bool) (rest : List Char) :
    readTagEnd (attributes.flatMap Attribute.spell ++
      ((if selfClosing then ['/', '>'] else ['>']) ++ rest)) =
      .ok ⟨attributes, selfClosing, rest⟩ := by
  induction attributes with
  | nil =>
    cases selfClosing with
    | true =>
      have hfront : skipBlanks ('/' :: '>' :: rest) = '/' :: '>' :: rest := rfl
      have hend : skipEnd (skipBlanks ('>' :: rest)) = rest := rfl
      rw [List.flatMap_nil, List.nil_append, if_pos rfl, List.cons_append, List.cons_append,
        List.nil_append, readTagEnd, hfront]
      simp [hend]
    | false =>
      have hfront : skipBlanks ('>' :: rest) = '>' :: rest := rfl
      rw [List.flatMap_nil, List.nil_append, if_neg Bool.false_ne_true, List.cons_append,
        List.nil_append, readTagEnd, hfront]
      simp
  | cons a attributes ih =>
    have ha := h a List.mem_cons_self
    have hattributes := fun b hb => h b (List.mem_cons_of_mem a hb)
    have hend := attributeEnd_spell hattributes selfClosing rest
    obtain ⟨after, hread, hafter⟩ := readAttribute_spell ha hend
    rw [ih hattributes] at hafter
    obtain ⟨c, r, hspell, hc⟩ := ha.spell_eq
    have hfront : skipBlanks (a.spell ++ (attributes.flatMap Attribute.spell ++
        ((if selfClosing then ['/', '>'] else ['>']) ++ rest))) =
        a.spell.tail ++ (attributes.flatMap Attribute.spell ++
        ((if selfClosing then ['/', '>'] else ['>']) ++ rest)) := by
      rw [hspell]
      show skipBlanks (c :: (r ++ _)) = c :: (r ++ _)
      exact skipBlanks_of_head (by simpa using isTagBlank_of_isAttributeChar hc)
    have hslash : c ≠ '/' := by
      rintro rfl
      exact absurd hc (by decide)
    have hgreater : c ≠ '>' := by
      rintro rfl
      exact absurd hc (by decide)
    rw [List.flatMap_cons, List.append_assoc, readTagEnd, hfront]
    rw [hspell] at hread ⊢
    simp only [List.tail_cons, List.cons_append] at hread ⊢
    rw [if_neg hslash, if_neg hgreater, dif_pos hc, hread]
    simp [hafter]

theorem AttributeEnd.head_tagChar {s : List Char} (h : AttributeEnd s) :
    ∀ c ∈ s.head?, isTagChar c = false := by
  rcases h with ⟨r, rfl⟩ | ⟨r, rfl⟩ | ⟨c, r, rfl, -⟩ <;> simp <;> decide

theorem Element.Plain.tag_eq {e : Element} (he : e.Plain) :
    ∃ c r, e.tag.toList = c :: r ∧ c.isAlpha = true := by
  obtain ⟨c, hc, hstart⟩ := he.tag_start
  obtain ⟨r, hr⟩ := List.head?_eq_some_iff.1 hc
  exact ⟨c, r, hr, hstart⟩

theorem readStep_spellTag {e : Element} (he : e.Plain) (rest : List Char) :
    readStep (e.spellTag ++ rest) = .ok (some (stepOfElement e), rest) := by
  obtain ⟨c, r, htag, hc⟩ := he.tag_eq
  have hend := attributeEnd_spell he.attributes e.selfClosing rest
  have hread : readOpeningTag (e.tag.toList ++ (e.attributes.flatMap Attribute.spell ++
      ((if e.selfClosing then ['/', '>'] else ['>']) ++ rest))) =
      .ok (stepOfElement e, rest) := by
    rw [readOpeningTag, takeWhile_front he.tag_chars hend.head_tagChar,
      dropWhile_front he.tag_chars hend.head_tagChar, readTagEnd_spell he.attributes]
    simp only [String.ofList_toList, ← he.derived]
  have hbang : c ≠ '!' := by
    rintro rfl
    exact absurd hc (by decide)
  have hslash : c ≠ '/' := by
    rintro rfl
    exact absurd hc (by decide)
  have hspell : e.spellTag ++ rest = '<' :: (e.tag.toList ++
      (e.attributes.flatMap Attribute.spell ++
        ((if e.selfClosing then ['/', '>'] else ['>']) ++ rest))) := by
    simp [Element.spellTag]
  rw [hspell]
  rw [htag] at hread ⊢
  simp only [List.cons_append] at hread ⊢
  unfold readStep
  rw [if_pos (by simp [isTagStart, hc])]
  simp [hbang, hslash, hread]

theorem readStep_closing {tag : String} (htag : ∀ c ∈ tag.toList, isTagChar c = true)
    (rest : List Char) :
    readStep ('<' :: '/' :: (tag.toList ++ '>' :: rest)) = .ok (some (.closes tag), rest) := by
  have hend : ∀ c ∈ ('>' :: rest).head?, isTagChar c = false := by
    simp
    decide
  have hfront : skipEnd (skipBlanks ('>' :: rest)) = rest := rfl
  have hstart : isTagStart ('<' :: '/' :: (tag.toList ++ '>' :: rest)) = true := rfl
  unfold readStep
  rw [if_pos hstart]
  simp only [readClosingTag, takeWhile_front htag hend, dropWhile_front htag hend,
    String.ofList_toList, hfront]

theorem PlainRun.ne_nil {text : String} (h : PlainRun text) : text.toList ≠ [] := by
  intro he
  exact absurd h.not_blank (by simp [he, allBlank])

theorem PlainRun.head_ne {text : String} (h : PlainRun text) : text.toList.head? ≠ some '<' := by
  intro hhead
  obtain ⟨r, hr⟩ := List.head?_eq_some_iff.1 hhead
  have hstatic := h.static
  rw [segments] at hstatic
  split at hstatic
  · exact (hstatic text.toList (by simp)).1 (by simp [hr])
  · rename_i before after hopen
    split at hstatic
    · exact (hstatic text.toList (by simp)).1 (by simp [hr])
    · refine (hstatic before (by simp)).1 ?_
      have heq := eq_append_of_cutAt? hopen
      rw [hr] at heq
      cases before with
      | nil => simp [openMark] at heq
      | cons c before =>
        simp only [List.cons_append, List.cons.injEq] at heq
        exact heq.1 ▸ List.mem_cons_self

theorem readStep_run {text : String} (h : PlainRun text) {rest : List Char}
    (hrest : RunEnd rest) :
    readStep (text.toList ++ rest) = .ok (some (stepOfRun text.toList), rest) := by
  have hne := h.ne_nil
  have htag : ¬ isTagStart (text.toList ++ rest) = true := by
    intro ht
    obtain ⟨c, r, hs, -⟩ := exists_of_isTagStart ht
    obtain ⟨d, s, hd⟩ := List.exists_cons_of_ne_nil hne
    rw [hd, List.cons_append] at hs
    exact h.head_ne (by rw [hd, (List.cons.inj hs).1]; rfl)
  unfold readStep
  rw [if_neg htag, readRun_of_static h.static hrest (.inr hne)]

/-! ## Steps of a forest -/

namespace Node

mutual

/-- The steps that a plain node is read as. -/
def steps : Node → List Step
  | .element e children =>
    if e.isEmpty then [.empty e] else .opens e :: (stepsAll children ++ [.closes e.tag])
  | .interpolation expression run => [.text (.interpolation expression run)]
  | .text run => [.text (.text run)]

def stepsAll : List Node → List Step
  | [] => []
  | n :: ns => steps n ++ stepsAll ns

end

end Node

theorem Draft.foldl_add_opened (roots : List Node) (f : Frame) (outer : List Frame)
    (ns : List Node) :
    ns.foldl Draft.add ⟨roots, f :: outer⟩ =
      ⟨roots, { f with children := f.children ++ ns } :: outer⟩ := by
  induction ns generalizing f with
  | nil => simp
  | cons n ns ih =>
    rw [List.foldl_cons]
    exact (ih _).trans (by simp)

theorem Draft.foldl_add_roots (roots ns : List Node) :
    ns.foldl Draft.add ⟨roots, []⟩ = ⟨roots ++ ns, []⟩ := by
  induction ns generalizing roots with
  | nil => simp
  | cons n ns ih =>
    rw [List.foldl_cons]
    exact (ih _).trans (by simp)

theorem Draft.close_innermost (roots : List Node) (e : Element) (children : List Node)
    (outer : List Frame) :
    Draft.close ⟨roots, ⟨e, children⟩ :: outer⟩ e.tag =
      Draft.add ⟨roots, outer⟩ (.element e children) := by
  simp [Draft.close, List.findIdx?_cons, Draft.endMany, Draft.endInnermost, Frame.node]

mutual

theorem foldl_steps (n : Node) (h : n.Plain) (d : Draft) :
    n.steps.foldl Draft.step d = d.add n := by
  cases n with
  | element e children =>
    obtain ⟨-, hempty, hchildren⟩ := h
    rw [Node.steps]
    by_cases he : e.isEmpty = true
    · rw [if_pos he, hempty he]
      rfl
    · rw [if_neg he, List.foldl_cons, List.foldl_append, foldl_stepsAll children hchildren]
      show Draft.close (children.foldl Draft.add ⟨d.roots, ⟨e, []⟩ :: d.opened⟩) e.tag = _
      rw [Draft.foldl_add_opened, Draft.close_innermost]
      rfl
  | interpolation expression text => rfl
  | text text => rfl

theorem foldl_stepsAll (ns : List Node) (h : Node.PlainAll ns) (d : Draft) :
    (Node.stepsAll ns).foldl Draft.step d = ns.foldl Draft.add d := by
  cases ns with
  | nil => rfl
  | cons n ns =>
    obtain ⟨hn, -, hns⟩ := h
    rw [Node.stepsAll, List.foldl_append, foldl_steps n hn, foldl_stepsAll ns hns]
    rfl

end

theorem Step.read_of_readStep {s rest : List Char} {step : Step} (hne : s ≠ [])
    (h : readStep s = .ok (some step, rest)) :
    Step.read s = (Step.read rest).map (step :: ·) := by
  cases s with
  | nil => exact absurd rfl hne
  | cons c s =>
    rw [Step.read]
    split
    · rename_i hread
      rw [h] at hread
      cases hread
      cases Step.read rest <;> rfl
    · rename_i hread
      rw [h] at hread
      cases hread

theorem stepOfRun_interpolation {expression text : String} (h : PlainRun text)
    (hexpression : expressionOf? text = some expression) :
    stepOfRun text.toList = .text (.interpolation expression text) := by
  rw [stepOfRun, if_neg (by simp [h.not_blank])]
  simp [hexpression]

theorem segments_of_not_openMark {s : List Char} (h : ¬ openMark <:+: s) :
    segments s = [.static s] := by
  rw [segments]
  split
  · rfl
  · rename_i hopen
    rw [cutAt?_eq_none_iff.2 h] at hopen
    cases hopen

theorem stepOfRun_text {text : String} (hblank : allBlank text.toList = false)
    (hmark : ¬ openMark <:+: text.toList) :
    stepOfRun text.toList = .text (.text text) := by
  have hnone : expressionOf? text = none := by
    simp [expressionOf?, cutAt?_eq_none_iff.2 hmark]
  rw [stepOfRun, if_neg (by simp [hblank])]
  simp [hnone]

theorem runEnd_spellAll {ns : List Node} (h : Node.PlainAll ns)
    (hapart : ∀ m ∈ ns.head?, m.isRun = false) {rest : List Char} (hrest : RunEnd rest) :
    RunEnd (Node.spellAll ns ++ rest) := by
  match ns with
  | [] => exact hrest
  | .element e children :: ns =>
    obtain ⟨c, r, htag, hc⟩ := h.1.1.tag_eq
    right
    simp [Node.spellAll, Node.spell, Element.spellTag, htag, isTagStart, hc]
  | .interpolation _ _ :: _ => exact absurd (hapart _ rfl) (by simp [Node.isRun])
  | .text _ :: _ => exact absurd (hapart _ rfl) (by simp [Node.isRun])

mutual

theorem read_spell (n : Node) (h : n.Plain) (rest : List Char)
    (hrest : n.isRun = true → RunEnd rest) :
    Step.read (n.spell ++ rest) = (Step.read rest).map (n.steps ++ ·) := by
  cases n with
  | element e children =>
    obtain ⟨he, -, hchildren⟩ := h
    rw [Node.spell, Node.steps, List.append_assoc,
      Step.read_of_readStep (by simp [Element.spellTag]) (readStep_spellTag he _)]
    cases hempty : e.isEmpty with
    | true =>
      have hstep : stepOfElement e = .empty e := if_pos hempty
      rw [if_pos rfl, if_pos rfl, hstep]
      rfl
    | false =>
      have hstep : stepOfElement e = .opens e := by
        rw [stepOfElement, if_neg]
        exact ne_true_of_eq_false hempty
      have hclosing := readStep_closing he.tag_chars rest
      have hassoc : Node.spellAll children ++ '<' :: '/' :: e.tag.toList ++ ['>'] ++ rest =
          Node.spellAll children ++ '<' :: '/' :: (e.tag.toList ++ '>' :: rest) := by
        simp
      rw [if_neg Bool.false_ne_true, if_neg Bool.false_ne_true, hstep, hassoc,
        read_spellAll children hchildren _ (.inr rfl), Step.read_of_readStep (by simp) hclosing]
      cases Step.read rest with
      | ok steps => simp [Except.map]
      | error fault => rfl
  | interpolation expression text =>
    obtain ⟨hrun, -, hexpression⟩ := h
    rw [Node.spell, Node.steps,
      Step.read_of_readStep (by simp [hrun.ne_nil]) (readStep_run hrun (hrest rfl)),
      stepOfRun_interpolation hrun hexpression]
    rfl
  | text text =>
    obtain ⟨hblank, htag, hmark⟩ := h
    have hrun : PlainRun text := by
      refine ⟨hblank, fun s hs => ?_⟩
      rw [segments_of_not_openMark hmark, List.mem_singleton] at hs
      cases hs
      exact ⟨htag, hmark⟩
    rw [Node.spell, Node.steps,
      Step.read_of_readStep (by simp [hrun.ne_nil]) (readStep_run hrun (hrest rfl)),
      stepOfRun_text hblank hmark]
    rfl

/-- The spelling of plain nodes is read as their steps, up to where a text must end. -/
theorem read_spellAll (ns : List Node) (h : Node.PlainAll ns) (rest : List Char)
    (hrest : RunEnd rest) :
    Step.read (Node.spellAll ns ++ rest) = (Step.read rest).map (Node.stepsAll ns ++ ·) := by
  cases ns with
  | nil =>
    simp only [Node.spellAll, Node.stepsAll, List.nil_append]
    cases Step.read rest <;> rfl
  | cons n ns =>
    obtain ⟨hn, hapart, hns⟩ := h
    rw [Node.spellAll, Node.stepsAll, List.append_assoc,
      read_spell n hn _ fun hrun => runEnd_spellAll hns (hapart hrun) hrest,
      read_spellAll ns hns rest hrest]
    cases Step.read rest with
    | ok steps => simp [Except.map]
    | error fault => rfl

end

/-! ## The forest that a template spells -/

/-- A template that spells a forest of plain nodes is read as that forest. -/
theorem readForest_spellAll (forest : List Node) (h : Node.PlainAll forest) :
    readForest (String.ofList (Node.spellAll forest)) = .ok forest := by
  have hread : Step.read (Node.spellAll forest) = .ok (Node.stepsAll forest) := by
    have hall := read_spellAll forest h [] (.inl rfl)
    rw [List.append_nil, Step.read] at hall
    simpa [Except.map] using hall
  have hforest : forestOf (Node.stepsAll forest) = forest := by
    rw [forestOf, foldl_stepsAll forest h]
    show (forest.foldl Draft.add ⟨[], []⟩).finish = forest
    rw [Draft.foldl_add_roots]
    rfl
  simp only [readForest, String.toList_ofList, hread, hforest]

def listForest : List Node :=
  [.element (.ofAttributes "ul" [⟨"id", some "a b"⟩, ⟨"@click.stop", some "f()"⟩] false)
    [.element (.ofAttributes "li" [⟨"v-for", some "x in xs"⟩] false)
      [.interpolation "\"n: \"+_s(x < 1)" "n: \x7b\x7b x < 1 \x7d\x7d"],
     .element (.ofAttributes "br" [] false) [],
     .text "-"]]

theorem readForest_spellAll_listForest :
    Node.PlainAll listForest ∧
      readForest (String.ofList (Node.spellAll listForest)) = .ok listForest := by
  have hul : (Element.ofAttributes "ul" [⟨"id", some "a b"⟩, ⟨"@click.stop", some "f()"⟩]
      false).Plain := by
    refine Element.plain_ofAttributes ⟨'u', rfl, rfl⟩ (List.all_eq_true.1 (by decide)) ?_ false
    simp only [List.forall_mem_cons]
    exact ⟨⟨by decide, List.all_eq_true.1 (by decide), by simp⟩,
      ⟨by decide, List.all_eq_true.1 (by decide), by simp⟩, by simp⟩
  have hli : (Element.ofAttributes "li" [⟨"v-for", some "x in xs"⟩] false).Plain := by
    refine Element.plain_ofAttributes ⟨'l', rfl, rfl⟩ (List.all_eq_true.1 (by decide)) ?_ false
    simp only [List.forall_mem_cons]
    exact ⟨⟨by decide, List.all_eq_true.1 (by decide), by simp⟩, by simp⟩
  have hbr : (Element.ofAttributes "br" [] false).Plain :=
    Element.plain_ofAttributes ⟨'b', rfl, rfl⟩ (List.all_eq_true.1 (by decide)) (by simp) false
  have hsegments : segments "n: \x7b\x7b x < 1 \x7d\x7d".toList =
      [.static "n: ".toList, .script " x < 1 ".toList, .static []] := by
    decide +kernel
  have hrun : PlainRun "n: \x7b\x7b x < 1 \x7d\x7d" := by
    refine ⟨by decide, fun s hs => ?_⟩
    simp only [hsegments, List.mem_cons, List.not_mem_nil, or_false, reduceCtorEq, false_or,
      Segment.static.injEq] at hs
    rcases hs with rfl | rfl <;> exact ⟨by decide, cutAt?_eq_none_iff.1 (by decide)⟩
  have hplain : Node.PlainAll listForest := by
    have hexpression : expressionOf? "n: \x7b\x7b x < 1 \x7d\x7d" = some "\"n: \"+_s(x < 1)" := by
      decide +kernel
    refine ⟨⟨hul, by simp [Element.isEmpty, voidTags], ?_⟩, by simp [Node.isRun], trivial⟩
    refine ⟨⟨hli, by simp [Element.isEmpty, voidTags], ?_⟩, by simp [Node.isRun], ?_⟩
    · exact ⟨⟨hrun, ⟨"n: ".toList, " x < 1 \x7d\x7d".toList, by decide⟩, hexpression⟩, by simp, trivial⟩
    · refine ⟨⟨hbr, by simp, trivial⟩, by simp [Node.isRun], ?_⟩
      exact ⟨⟨by decide, by decide, cutAt?_eq_none_iff.1 (by decide)⟩, by simp, trivial⟩
  exact ⟨hplain, readForest_spellAll listForest hplain⟩

end EventMarkup
