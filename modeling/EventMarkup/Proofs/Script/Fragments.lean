import EventMarkup.Proofs.Script.Segments
import EventMarkup.Script.Forbidden

/-!
# Words of the code

The literals of a text cut its code into fragments. What stripping leaves of a literal belongs to no
word, so the words of a stripped text are those of its fragments one after the other, and a
forbidden word is found where the first one stands as a whole in a fragment.
-/

namespace EventMarkup.Script

open Text

/-! ## Whole words -/

/-- A word stands alone between two texts: it is not empty, it consists of characters of words, and
neither of the texts continues it. -/
structure StandsAlone (before word after : List Char) : Prop where
  ne_nil : word ≠ []
  chars : ∀ c ∈ word, isWordChar c = true
  left : ∀ c ∈ before.getLast?, isWordChar c = false
  right : ∀ c ∈ after.head?, isWordChar c = false

def HasWord (text word : List Char) : Prop :=
  ∃ before after, text = before ++ word ++ after ∧ StandsAlone before word after

/-- The first whole word of a text that is wanted. -/
def firstWord? (wanted : List Char → Bool) (text : List Char) : Option (List Char) :=
  (pieces (fun c => !isWordChar c) text).find? wanted

section FirstWord

variable {wanted : List Char → Bool} {text word : List Char}

theorem firstWord?_append {c : Char} (hc : isWordChar c = false) (s t : List Char) :
    firstWord? wanted (s ++ c :: t) = (firstWord? wanted s).or (firstWord? wanted t) := by
  rw [firstWord?, pieces_append (by simp [hc]), List.find?_append]
  rfl

theorem firstWord?_word (h : ∀ c ∈ word, isWordChar c = true) :
    firstWord? wanted word = if wanted word then some word else none := by
  rw [firstWord?, pieces_eq_singleton fun c hc => by simp [h c hc]]
  cases hw : wanted word <;> simp [hw]

variable (hempty : wanted [] = false)

include hempty

theorem firstWord?_nil : firstWord? wanted [] = none := by
  simp [firstWord?, pieces, hempty]

theorem firstWord?_cons {c : Char} (hc : isWordChar c = false) (t : List Char) :
    firstWord? wanted (c :: t) = firstWord? wanted t := by
  have h : firstWord? wanted ([] ++ c :: t) = (firstWord? wanted []).or (firstWord? wanted t) :=
    firstWord?_append hc [] t
  rwa [firstWord?_nil hempty, List.nil_append, Option.none_or] at h

theorem exists_of_firstWord?_append {front : List Char} (hfront : ∀ c ∈ front, isWordChar c = true)
    (h : firstWord? wanted (front ++ text) = some word) :
    ∃ before after, front ++ text = before ++ word ++ after ∧ StandsAlone before word after ∧
      wanted word = true ∧ firstWord? wanted before = none := by
  -- `front` is the part of the first word that the induction on the text has passed
  induction text generalizing front with
  | nil =>
    rw [List.append_nil, firstWord?_word hfront] at h
    obtain ⟨hw, rfl⟩ : wanted front = true ∧ front = word := by simpa using h
    have hne : front ≠ [] := by
      rintro rfl
      simp [hempty] at hw
    exact ⟨[], [], by simp, ⟨hne, hfront, by simp, by simp⟩, hw, firstWord?_nil hempty⟩
  | cons c text ih =>
    cases hc : isWordChar c with
    | true =>
      have hmore : ∀ d ∈ front ++ [c], isWordChar d = true := by
        simpa [or_imp, forall_and, hc] using hfront
      simpa using ih hmore (by simpa using h)
    | false =>
      rw [firstWord?_append hc, firstWord?_word hfront] at h
      cases hw : wanted front with
      | true =>
        obtain rfl : front = word := by simpa [hw] using h
        have hne : front ≠ [] := by
          rintro rfl
          simp [hempty] at hw
        exact ⟨[], c :: text, by simp, ⟨hne, hfront, by simp, by simpa using hc⟩, hw,
          firstWord?_nil hempty⟩
      | false =>
        have hbehind : firstWord? wanted text = some word := by simpa [hw] using h
        obtain ⟨before, after, rfl, hword, hwanted, hnone⟩ := ih (List.forall_mem_nil _) hbehind
        refine ⟨front ++ c :: before, after, by simp, ⟨hword.ne_nil, hword.chars, ?_, hword.right⟩,
          hwanted, ?_⟩
        · cases before with
          | nil => simpa using hc
          | cons d before => simpa [List.getLast?_append] using hword.left
        · rw [firstWord?_append hc, hnone, firstWord?_word hfront, if_neg (by simp [hw])]
          rfl

theorem firstWord?_of_standsAlone {before after : List Char} (h : StandsAlone before word after) :
    firstWord? wanted (before ++ word ++ after) =
      (firstWord? wanted before).or
        ((if wanted word then some word else none).or (firstWord? wanted after)) := by
  have hafter : firstWord? wanted (word ++ after) =
      (if wanted word then some word else none).or (firstWord? wanted after) := by
    cases after with
    | nil => rw [List.append_nil, firstWord?_word h.chars, firstWord?_nil hempty, Option.or_none]
    | cons c after =>
      have hc := h.right c rfl
      rw [firstWord?_append hc, firstWord?_word h.chars, firstWord?_cons hempty hc]
  rw [List.append_assoc]
  rcases List.eq_nil_or_concat before with rfl | ⟨before, c, rfl⟩
  · rw [firstWord?_nil hempty, List.nil_append, Option.none_or, hafter]
  · have hc := h.left c (by simp)
    rw [List.concat_eq_append, List.append_assoc, List.singleton_append, firstWord?_append hc,
      hafter, firstWord?_append hc, firstWord?_nil hempty, Option.or_none]

theorem firstWord?_eq_none_iff :
    firstWord? wanted text = none ↔ ∀ v, wanted v = true → ¬ HasWord text v := by
  constructor
  · rintro hnone v hv ⟨before, after, rfl, hword⟩
    rw [firstWord?_of_standsAlone hempty hword, if_pos hv] at hnone
    simp at hnone
  · intro h
    rw [Option.eq_none_iff_forall_ne_some]
    intro w hw
    obtain ⟨before, after, heq, hword, hwanted, -⟩ :=
      exists_of_firstWord?_append hempty (List.forall_mem_nil _) hw
    exact h w hwanted ⟨before, after, heq, hword⟩

/-- A word is the first that is wanted exactly if it stands alone and no wanted word stands in
front of it. -/
theorem firstWord?_eq_some_iff :
    firstWord? wanted text = some word ↔
      ∃ before after, text = before ++ word ++ after ∧ StandsAlone before word after ∧
        wanted word = true ∧ ∀ v, wanted v = true → ¬ HasWord before v := by
  constructor
  · intro h
    obtain ⟨before, after, heq, hword, hwanted, hnone⟩ :=
      exists_of_firstWord?_append hempty (List.forall_mem_nil _) h
    exact ⟨before, after, heq, hword, hwanted, (firstWord?_eq_none_iff hempty).1 hnone⟩
  · rintro ⟨before, after, rfl, hword, hwanted, hnone⟩
    rw [firstWord?_of_standsAlone hempty hword, (firstWord?_eq_none_iff hempty).2 hnone,
      if_pos hwanted]
    rfl

end FirstWord

/-! ## Fragments -/

/-- Code put in front of the first fragment. -/
def joinFront (code : List Char) : List (List Char) → List (List Char)
  | [] => [code]
  | f :: fs => (code ++ f) :: fs

mutual

/-- The stretches of code between the literals of a text, in order, with those in the holes of its
templates. -/
def Segments.fragments : Segments → List (List Char)
  | .nil => [[]]
  | .code c more => joinFront [c] more.fragments
  | .string _ _ more => [] :: more.fragments
  | .template _ holes more => [] :: (holes.fragments ++ more.fragments)

def Holes.fragments : Holes → List (List Char)
  | .nil => []
  | .hole content _ more => content.fragments ++ more.fragments

end

mutual

/-- The segments with nothing in their strings and no template text. -/
def Segments.emptied : Segments → Segments
  | .nil => .nil
  | .code c more => .code c more.emptied
  | .string mark _ more => .string mark [] more.emptied
  | .template _ holes more => .template [] holes.emptied more.emptied

def Holes.emptied : Holes → Holes
  | .nil => .nil
  | .hole content _ more => .hole content.emptied [] more.emptied

end

theorem joinFront_joinFront (s t : List Char) (fs : List (List Char)) :
    joinFront s (joinFront t fs) = joinFront (s ++ t) fs := by
  cases fs <;> simp [joinFront]

theorem joinFront_nil {fs : List (List Char)} (h : fs ≠ []) : joinFront [] fs = fs := by
  cases fs with
  | nil => exact absurd rfl h
  | cons f fs => rfl

theorem Segments.fragments_ne_nil (s : Segments) : s.fragments ≠ [] := by
  cases s with
  | code c more => cases h : more.fragments <;> simp [fragments, joinFront, h]
  | _ => simp [fragments]

mutual

theorem Segments.fragments_emptied (s : Segments) : s.emptied.fragments = s.fragments := by
  match s with
  | .nil => rfl
  | .code c more => simp [Segments.emptied, Segments.fragments, more.fragments_emptied]
  | .string mark content more => simp [Segments.emptied, Segments.fragments, more.fragments_emptied]
  | .template run holes more =>
    simp [Segments.emptied, Segments.fragments, holes.fragments_emptied, more.fragments_emptied]

theorem Holes.fragments_emptied (holes : Holes) : holes.emptied.fragments = holes.fragments := by
  match holes with
  | .nil => rfl
  | .hole content run more =>
    simp [Holes.emptied, Holes.fragments, content.fragments_emptied, more.fragments_emptied]

end

theorem findSome?_cons_eq_or {α β : Type} (f : α → Option β) (a : α) (l : List α) :
    (a :: l).findSome? f = (f a).or (l.findSome? f) := by
  cases h : f a <;> simp [h]

section Stripped

variable {wanted : List Char → Bool}

theorem firstWord?_of_joinFront_nil {s : Segments}
    (h : firstWord? wanted ([] ++ s.stripped) =
      (joinFront [] s.fragments).findSome? (firstWord? wanted)) :
    firstWord? wanted s.stripped = s.fragments.findSome? (firstWord? wanted) := by
  rwa [joinFront_nil s.fragments_ne_nil] at h

variable (hempty : wanted [] = false)

include hempty

theorem firstWord?_coverRun (run : List Piece) (t : List Char) :
    firstWord? wanted (coverRun run ++ t) = firstWord? wanted t := by
  cases run with
  | nil => rfl
  | cons p run => exact firstWord?_cons hempty (by decide) t

mutual

theorem Segments.firstWord?_stripped (s : Segments) (front : List Char) :
    firstWord? wanted (front ++ s.stripped) =
      (joinFront front s.fragments).findSome? (firstWord? wanted) := by
  match s with
  | .nil => simp [Segments.stripped, Segments.written, Segments.fragments, joinFront]
  | .code c more =>
    have hcode := more.firstWord?_stripped (front ++ [c])
    rw [List.append_assoc, ← joinFront_joinFront] at hcode
    exact hcode
  | .string mark content more =>
    have hmore := firstWord?_of_joinFront_nil (more.firstWord?_stripped [])
    calc firstWord? wanted (front ++ ' ' :: more.stripped)
      _ = (firstWord? wanted front).or (firstWord? wanted more.stripped) :=
        firstWord?_append (by decide) front more.stripped
      _ = ((front ++ []) :: more.fragments).findSome? (firstWord? wanted) := by
        rw [hmore, findSome?_cons_eq_or, List.append_nil]
  | .template run holes more =>
    have hmore := firstWord?_of_joinFront_nil (more.firstWord?_stripped [])
    have hholes := holes.firstWord?_stripped ('\x60' :: more.stripped)
    calc firstWord? wanted
          (front ++ '\x60' :: (coverRun run ++ (holes.stripped ++ '\x60' :: more.stripped)))
      _ = (firstWord? wanted front).or
          ((holes.fragments.findSome? (firstWord? wanted)).or
            (firstWord? wanted more.stripped)) := by
        rw [firstWord?_append (by decide), firstWord?_coverRun hempty, hholes,
          firstWord?_cons hempty (by decide)]
      _ = ((front ++ []) :: (holes.fragments ++ more.fragments)).findSome?
          (firstWord? wanted) := by
        rw [hmore, findSome?_cons_eq_or, List.append_nil, List.findSome?_append]

theorem Holes.firstWord?_stripped (holes : Holes) (t : List Char) :
    firstWord? wanted (holes.stripped ++ t) =
      (holes.fragments.findSome? (firstWord? wanted)).or (firstWord? wanted t) := by
  match holes with
  | .nil => simp [Holes.stripped, Holes.written, Holes.fragments]
  | .hole content run more =>
    have hcontent := firstWord?_of_joinFront_nil (content.firstWord?_stripped [])
    have hmore := more.firstWord?_stripped t
    calc firstWord? wanted
          ('$' :: '\x7b' :: (content.stripped ++ '\x7d' :: (coverRun run ++ more.stripped)) ++ t)
      _ = (firstWord? wanted content.stripped).or (firstWord? wanted (more.stripped ++ t)) := by
        rw [List.cons_append, List.cons_append, firstWord?_cons hempty (by decide),
          firstWord?_cons hempty (by decide), List.append_assoc, List.cons_append,
          List.append_assoc, firstWord?_append (by decide), firstWord?_coverRun hempty]
      _ = ((content.fragments ++ more.fragments).findSome? (firstWord? wanted)).or
          (firstWord? wanted t) := by
        rw [hcontent, hmore, List.findSome?_append, Option.or_assoc]

end

end Stripped

/-! ## Forbidden words -/

def isForbidden (word : List Char) : Bool := forbiddenWords.contains (String.ofList word)

def HasForbidden (text : List Char) : Prop := ∃ w ∈ forbiddenWords, HasWord text w.toList

/-- A word is forbidden and stands in one of the fragments as a whole word, and none stands in
front of it, neither in the same fragment nor in an earlier one. -/
def FirstForbidden (fragments : List (List Char)) (word : String) : Prop :=
  word ∈ forbiddenWords ∧ ∃ earlier before after later,
    fragments = earlier ++ (before ++ word.toList ++ after) :: later ∧
      StandsAlone before word.toList after ∧ (∀ f ∈ earlier, ¬ HasForbidden f) ∧
      ¬ HasForbidden before

theorem isForbidden_toList {word : String} :
    isForbidden word.toList = true ↔ word ∈ forbiddenWords := by
  simp [isForbidden]

theorem not_hasForbidden_iff {text : List Char} :
    ¬ HasForbidden text ↔ ∀ v, isForbidden v = true → ¬ HasWord text v := by
  constructor
  · intro h v hv hword
    rw [← String.toList_ofList (l := v)] at hv hword
    exact h ⟨String.ofList v, isForbidden_toList.1 hv, hword⟩
  · rintro h ⟨w, hw, hword⟩
    exact h w.toList (isForbidden_toList.2 hw) hword

theorem firstWord?_isForbidden_eq_none_iff {text : List Char} :
    firstWord? isForbidden text = none ↔ ¬ HasForbidden text :=
  (firstWord?_eq_none_iff (by decide)).trans not_hasForbidden_iff.symm

theorem findSome?_eq_some_iff_firstForbidden {fragments : List (List Char)} {word : String} :
    fragments.findSome? (firstWord? isForbidden) = some word.toList ↔
      FirstForbidden fragments word := by
  rw [List.findSome?_eq_some_iff]
  constructor
  · rintro ⟨earlier, fragment, later, rfl, hfirst, hearlier⟩
    obtain ⟨before, after, rfl, hword, hforbidden, hbefore⟩ :=
      (firstWord?_eq_some_iff (by decide)).1 hfirst
    exact ⟨isForbidden_toList.1 hforbidden, earlier, before, after, later, rfl, hword,
      fun f hf => firstWord?_isForbidden_eq_none_iff.1 (hearlier f hf),
      not_hasForbidden_iff.2 hbefore⟩
  · rintro ⟨hforbidden, earlier, before, after, later, rfl, hword, hearlier, hbefore⟩
    exact ⟨earlier, _, later, rfl,
      (firstWord?_eq_some_iff (by decide)).2 ⟨before, after, rfl, hword,
        isForbidden_toList.2 hforbidden, not_hasForbidden_iff.1 hbefore⟩,
      fun f hf => firstWord?_isForbidden_eq_none_iff.2 (hearlier f hf)⟩

theorem forbiddenWord?_eq (text : String) :
    forbiddenWord? text =
      (firstWord? isForbidden (withoutLiterals text.toList)).map String.ofList := by
  rw [forbiddenWord?, words, List.find?_map, firstWord?]
  rfl

namespace Segments

variable {s : Segments} (h : s.wellFormed = true)

include h

theorem forbiddenWord?_spelling :
    forbiddenWord? (String.ofList s.spelling) =
      (s.fragments.findSome? (firstWord? isForbidden)).map String.ofList := by
  rw [forbiddenWord?_eq, String.toList_ofList, s.withoutLiterals_spelling h,
    firstWord?_of_joinFront_nil (s.firstWord?_stripped (by decide) [])]

theorem forbiddenWord?_spelling_eq_some_iff {word : String} :
    forbiddenWord? (String.ofList s.spelling) = some word ↔ FirstForbidden s.fragments word := by
  rw [forbiddenWord?_spelling h, ← findSome?_eq_some_iff_firstForbidden, Option.map_eq_some_iff]
  constructor
  · rintro ⟨w, hw, rfl⟩
    rwa [String.toList_ofList]
  · exact fun hw => ⟨word.toList, hw, String.ofList_toList⟩

theorem forbiddenWord?_spelling_eq_none_iff :
    forbiddenWord? (String.ofList s.spelling) = none ↔ ∀ f ∈ s.fragments, ¬ HasForbidden f := by
  rw [forbiddenWord?_spelling h, Option.map_eq_none_iff, List.findSome?_eq_none_iff]
  exact forall₂_congr fun f _ => firstWord?_isForbidden_eq_none_iff

end Segments

/-- Stripping a text whose literals are closed puts a space in the place of each string and of each
stretch of template text and keeps everything else, at any depth. Its forbidden word is the first
one that stands as a whole word in a fragment of its code, and is the same whatever the literals
hold. -/
theorem Segments.stripped_and_firstForbidden (s : Segments) (h : s.wellFormed = true) :
    stripLiterals (String.ofList s.spelling) = String.ofList s.stripped ∧
      (∀ word, forbiddenWord? (String.ofList s.spelling) = some word ↔
        FirstForbidden s.fragments word) ∧
      (forbiddenWord? (String.ofList s.spelling) = none ↔
        ∀ f ∈ s.fragments, ¬ HasForbidden f) ∧
      ∀ s' : Segments, s'.wellFormed = true → s'.emptied = s.emptied →
        forbiddenWord? (String.ofList s'.spelling) = forbiddenWord? (String.ofList s.spelling) := by
  refine ⟨?_, fun word => forbiddenWord?_spelling_eq_some_iff h,
    forbiddenWord?_spelling_eq_none_iff h, fun s' h' hs => ?_⟩
  · rw [stripLiterals, String.toList_ofList, s.withoutLiterals_spelling h]
  · rw [forbiddenWord?_spelling h, forbiddenWord?_spelling h', ← s.fragments_emptied,
      ← s'.fragments_emptied, hs]

def Segments.behind (code : String) (more : Segments) : Segments := code.toList.foldr .code more

/-- A template with a template in its hole, which has a string in its own. -/
def Segments.nested : Segments :=
  .string '\'' [.plain 'n', .plain 'e', .plain 'w'] <| .behind " + " <|
    .template [.plain '$', .plain 'a', .escaped '\x60']
      (.hole
        (.behind " \x7bk: " <|
          .template []
            (.hole (.behind "b[" <| .string '"' [.plain 'i', .plain 'f'] <| .behind "]" .nil) [] .nil)
            (.behind "\x7d " .nil))
        [.plain 'd', .plain 'o'] .nil)
      (.behind " + delete x" .nil)

theorem Segments.stripped_and_firstForbidden_nested :
    stripLiterals
        "'new' + \x60$a\\\x60$\x7b \x7bk: \x60$\x7bb[\"if\"]\x7d\x60\x7d \x7ddo\x60 + delete x" =
      "  + \x60 $\x7b \x7bk: \x60$\x7bb[ ]\x7d\x60\x7d \x7d \x60 + delete x" ∧
    forbiddenWord?
        "'new' + \x60$a\\\x60$\x7b \x7bk: \x60$\x7bb[\"if\"]\x7d\x60\x7d \x7ddo\x60 + delete x" =
      some "delete" := by
  obtain ⟨hstrip, hword, -⟩ := nested.stripped_and_firstForbidden (by decide)
  exact ⟨hstrip, (hword "delete").2 (findSome?_eq_some_iff_firstForbidden.1 (by decide))⟩

end EventMarkup.Script
