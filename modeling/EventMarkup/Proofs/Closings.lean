import EventMarkup.Proofs.Lineage
import EventMarkup.Proofs.Resumption
import EventMarkup.Proofs.WellFormed

/-!
# Closing what is open

The end of a template ends all elements that are still open. Closing tags for them, from the
innermost outwards, do the same: the forest stays as it is and nothing is open any more
(`readForest_append_closings`). Each of these tags finds the innermost element at once, also if
elements of one name stand in each other, and ends it alone.
-/

namespace EventMarkup

open Markup Text

/-- The tags of the elements that are open at the end of a template, outermost first. -/
def openTags (source : String) : List String :=
  match Step.read source.toList with
  | .ok steps => ((steps.foldl Draft.step .empty).opened.map (·.element.tag)).reverse
  | .error _ => []

def spellClosings (tags : List String) : String :=
  String.ofList (tags.flatMap fun tag => '<' :: '/' :: tag.toList ++ ['>'])

namespace Markup

/-! ## Closing tags put together -/

theorem Draft.map_tag_opened_add (d : Draft) (n : Node) :
    (d.add n).opened.map (·.element.tag) = d.opened.map (·.element.tag) := by
  obtain ⟨roots, opened⟩ := d
  cases opened <;> rfl

theorem Draft.foldl_closes {tags : List String} {d : Draft}
    (h : d.opened.map (·.element.tag) = tags) :
    (tags.map Step.closes).foldl Draft.step d = ⟨d.finish, []⟩ := by
  induction tags generalizing d with
  | nil =>
    obtain ⟨roots, opened⟩ := d
    obtain rfl := List.map_eq_nil_iff.1 h
    rfl
  | cons tag tags ih =>
    obtain ⟨roots, opened⟩ := d
    obtain ⟨⟨e, children⟩, outer, rfl, rfl, houter⟩ := List.map_eq_cons_iff.1 h
    have hclose : Draft.step ⟨roots, ⟨e, children⟩ :: outer⟩ (.closes e.tag) =
        Draft.endInnermost ⟨roots, ⟨e, children⟩ :: outer⟩ :=
      Draft.close_innermost roots e children outer
    have hopened : (Draft.endInnermost ⟨roots, ⟨e, children⟩ :: outer⟩).opened.map
        (·.element.tag) = tags := (Draft.map_tag_opened_add ⟨roots, outer⟩ _).trans houter
    rw [List.map_cons, List.foldl_cons, hclose, ih hopened, Draft.finish_endInnermost]

/-! ## Closing tags read -/

theorem runEnd_spellClosings (tags : List String) : RunEnd (spellClosings tags).toList := by
  cases tags with
  | nil => exact .inl rfl
  | cons tag tags =>
    right
    simp [spellClosings, isTagStart]

theorem read_spellClosings {tags : List String}
    (h : ∀ tag ∈ tags, ∀ c ∈ tag.toList, isTagChar c = true) :
    Step.read (spellClosings tags).toList = .ok (tags.map Step.closes) := by
  rw [spellClosings, String.toList_ofList]
  induction tags with
  | nil => rw [List.flatMap_nil, Step.read, List.map_nil]
  | cons tag tags ih =>
    obtain ⟨htag, htags⟩ := List.forall_mem_cons.1 h
    have hspell : (tag :: tags).flatMap (fun tag => '<' :: '/' :: tag.toList ++ ['>']) =
        '<' :: '/' :: (tag.toList ++
          '>' :: tags.flatMap fun tag => '<' :: '/' :: tag.toList ++ ['>']) := by
      simp
    rw [hspell, Step.read_of_readStep (by simp) (readStep_closing htag _), ih htags]
    rfl

end Markup

/-! ## Templates -/

/-- A template with closing tags for all elements that are open at its end is read as it is without
them, and at the end of these tags no element is open. -/
theorem readForest_append_closings {source : String} {forest : List Node}
    (h : readForest source = .ok forest) (hends : endsInside source.toList = false) :
    readForest (source ++ spellClosings (openTags source).reverse) = .ok forest ∧
      openTags (source ++ spellClosings (openTags source).reverse) = [] := by
  obtain ⟨steps, hread, rfl⟩ := readForest_eq_ok_iff.1 h
  have htags : (openTags source).reverse =
      (steps.foldl Draft.step .empty).opened.map (·.element.tag) := by
    simp only [openTags, hread, List.reverse_reverse]
  have hchars : ∀ tag ∈ (openTags source).reverse, ∀ c ∈ tag.toList, isTagChar c = true := by
    intro tag htag
    rw [htags] at htag
    obtain ⟨f, hf, rfl⟩ := List.mem_map.1 htag
    exact ((Draft.Has.empty.foldl (addsNodes_of_read hread)).opened f hf).1 [] |>.1.tag_chars
  have hclosings := read_spellClosings hchars
  have hfinish := Draft.foldl_closes htags.symm
  have hread' : Step.read (source ++ spellClosings (openTags source).reverse).toList =
      .ok (steps ++ (openTags source).reverse.map Step.closes) := by
    rw [String.toList_append, read_append hread hends (runEnd_spellClosings _), hclosings]
    rfl
  constructor
  · refine readForest_eq_ok_iff.2 ⟨_, hread', ?_⟩
    rw [forestOf, List.foldl_append, hfinish]
    rfl
  · rw [openTags, hread']
    simp only [List.foldl_append, hfinish]
    rfl

theorem readForest_append_closings_nested :
    endsInside "<p><i><p>1 < 2</b".toList = false ∧ openTags "<p><i><p>1 < 2</b" = ["p", "i", "p"] ∧
      ∃ forest, readForest "<p><i><p>1 < 2</b" = .ok forest ∧
        readForest "<p><i><p>1 < 2</b</p></i></p>" = .ok forest ∧
        openTags "<p><i><p>1 < 2</b</p></i></p>" = [] := by
  have hends : endsInside "<p><i><p>1 < 2</b".toList = false := by decide +kernel
  have htags : openTags "<p><i><p>1 < 2</b" = ["p", "i", "p"] := by decide +kernel
  obtain ⟨forest, hforest⟩ : ∃ forest, readForest "<p><i><p>1 < 2</b" = .ok forest :=
    exists_ok_of_isOk (by decide +kernel)
  have hclosed := readForest_append_closings hforest hends
  rw [htags] at hclosed
  exact ⟨hends, htags, forest, hforest, hclosed⟩

end EventMarkup
