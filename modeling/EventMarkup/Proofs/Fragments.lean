import EventMarkup.Proofs.WellFormed
import EventMarkup.Template

/-!
# Fragments in the order of the document

The chains of a forest are its elements in the order of the document, each with the tags that lead
to it from a root. An element that binds an event has one fragment, and nothing else has any; its
path are the tags of the chain with ` > ` between them (`Fragment.ofForest_of_tags`).

Paths are made tag by tag, and the empty path stands for no path at all. So a tag that is empty is
lost where a path begins with it (`Fragment.ofForest_eq_chains`). No tag of a template is.
-/

namespace EventMarkup

open Markup Text

/-- An element with the tags that lead to it, its own at last. -/
structure Chain where
  tags : List String
  element : Element

namespace Node

mutual

/-- The elements of a tree below the given tags, each before the elements in it. -/
def chains (above : List String) : Node → List Chain
  | .element e children => ⟨above ++ [e.tag], e⟩ :: chainsAll (above ++ [e.tag]) children
  | _ => []

def chainsAll (above : List String) : List Node → List Chain
  | [] => []
  | n :: ns => chains above n ++ chainsAll above ns

end

mutual

theorem map_element_chains (above : List String) (n : Node) :
    (n.chains above).map (·.element) = elementsOf [n] := by
  cases n with
  | element e children => simp [chains, map_element_chainsAll _ children]
  | interpolation expression text => rfl
  | text text => rfl

theorem map_element_chainsAll (above : List String) (ns : List Node) :
    (chainsAll above ns).map (·.element) = elementsOf ns := by
  cases ns with
  | nil => rfl
  | cons n ns =>
    rw [chainsAll, List.map_append, map_element_chains above n, map_element_chainsAll above ns,
      ← elementsOf_append, List.singleton_append]

end

mutual

theorem mem_tags_of_mem_chains {above : List String} {n : Node} {c : Chain}
    (hc : c ∈ n.chains above) {tag : String} (htag : tag ∈ c.tags) :
    tag ∈ above ∨ ∃ e ∈ elementsOf [n], e.tag = tag := by
  cases n with
  | element e children =>
    have hhead : tag ∈ above ++ [e.tag] →
        tag ∈ above ∨ ∃ f ∈ elementsOf [.element e children], f.tag = tag := by
      rw [List.mem_append, List.mem_singleton]
      exact Or.imp_right fun heq => ⟨e, by simp, heq.symm⟩
    rcases List.mem_cons.1 hc with rfl | hbelow
    · exact hhead htag
    · rcases mem_tags_of_mem_chainsAll hbelow htag with habove | ⟨f, hf, heq⟩
      · exact hhead habove
      · exact .inr ⟨f, by simp [hf], heq⟩
  | interpolation expression text => cases hc
  | text text => cases hc

/-- The tags of a chain are tags of the forest, but for those that were there before. -/
theorem mem_tags_of_mem_chainsAll {above : List String} {ns : List Node} {c : Chain}
    (hc : c ∈ chainsAll above ns) {tag : String} (htag : tag ∈ c.tags) :
    tag ∈ above ∨ ∃ e ∈ elementsOf ns, e.tag = tag := by
  cases ns with
  | nil => cases hc
  | cons n ns =>
    rw [← List.singleton_append, elementsOf_append]
    rcases List.mem_append.1 hc with hc | hc
    · exact (mem_tags_of_mem_chains hc htag).imp_right fun ⟨e, he, heq⟩ =>
        ⟨e, List.mem_append_left _ he, heq⟩
    · exact (mem_tags_of_mem_chainsAll hc htag).imp_right fun ⟨e, he, heq⟩ =>
        ⟨e, List.mem_append_right _ he, heq⟩

end

end Node

/-! ## The code of an element -/

/-- What binds the events of one side of an element: an entry for each event, in order. -/
def bindingText (key : String) (entries : List (String × Handler)) : String :=
  key ++ ":\x7b" ++
    ",".intercalate (entries.map fun (event, handler) => quote event ++ ":" ++ handler.source) ++
      "\x7d"

namespace Element

/-- Whether an event is bound on either side of an element. -/
def Binds (e : Element) : Prop := e.events.entries ≠ [] ∨ e.nativeEvents.entries ≠ []

instance : DecidablePred Binds := fun e =>
  inferInstanceAs (Decidable (e.events.entries ≠ [] ∨ e.nativeEvents.entries ≠ []))

def bindingsText (e : Element) : String :=
  match e.events.entries, e.nativeEvents.entries with
  | [], native => bindingText "nativeOn" native
  | events, [] => bindingText "on" events
  | events, native => bindingText "on" events ++ "," ++ bindingText "nativeOn" native

theorem hasHandlers_iff (e : Element) : e.hasHandlers = true ↔ e.Binds := by
  simp [hasHandlers, Binds, EventTable.isEmpty]

theorem code?_eq (e : Element) : e.code? = if e.Binds then some e.bindingsText else none := by
  unfold code?
  by_cases hbinds : e.Binds
  · rw [if_pos (e.hasHandlers_iff.2 hbinds), if_pos hbinds]
    have hsource : ∀ key (t : EventTable), t.source key = bindingText key t.entries :=
      fun _ _ => rfl
    simp only [hsource, EventTable.isEmpty, bindingsText]
    cases hevents : e.events.entries with
    | nil =>
      cases hnative : e.nativeEvents.entries with
      | nil => exact absurd hbinds (by simp [Binds, hevents, hnative])
      | cons y ys => simp
    | cons x xs => cases hnative : e.nativeEvents.entries <;> simp
  · rw [if_neg (mt e.hasHandlers_iff.1 hbinds), if_neg hbinds]

end Element

/-! ## Paths -/

/-- The path that tags make; empty tags at the front are lost. -/
def pathOf (tags : List String) : String := " > ".intercalate (tags.dropWhile (· = ""))

theorem intercalate_cons_ne_empty {separator x : String} (hx : x ≠ "") (xs : List String) :
    separator.intercalate (x :: xs) ≠ "" := by
  cases xs <;> simp [hx]

theorem pathOf_nil : pathOf [] = "" := by simp [pathOf]

theorem below_pathOf (tags : List String) (tag : String) :
    Fragment.below (pathOf tags) tag = pathOf (tags ++ [tag]) := by
  unfold Fragment.below pathOf
  rw [List.dropWhile_append]
  cases hkept : tags.dropWhile (· = "") with
  | nil => by_cases htag : tag = "" <;> simp [htag]
  | cons t ts =>
    have hne : t ≠ "" := by
      have hhead := List.head?_dropWhile_not (· = "") tags
      simpa [hkept] using hhead
    have hpath : " > ".intercalate (t :: ts) ≠ "" := intercalate_cons_ne_empty hne ts
    rw [if_neg (by simpa using hpath), if_neg (by simp),
      String.intercalate_append_of_ne_nil (List.cons_ne_nil t ts) (List.cons_ne_nil tag []),
      String.intercalate_singleton]

theorem pathOf_of_ne_empty {tags : List String} (h : ∀ tag ∈ tags, tag ≠ "") :
    pathOf tags = " > ".intercalate tags := by
  cases tags with
  | nil => rfl
  | cons t ts =>
    have ht : t ≠ "" := h t List.mem_cons_self
    rw [pathOf, List.dropWhile_cons_of_neg (by simpa using ht)]

/-! ## Fragments -/

/-- The fragments of chains: one for each element that binds an event, with its path. -/
def fragmentsOf (path : List String → String) (chains : List Chain) : List Fragment :=
  (chains.filter fun c => c.element.Binds).map fun c => ⟨path c.tags, c.element.bindingsText⟩

theorem fragmentsOf_append (path : List String → String) (xs ys : List Chain) :
    fragmentsOf path (xs ++ ys) = fragmentsOf path xs ++ fragmentsOf path ys := by
  simp [fragmentsOf]

namespace Fragment

theorem ofElement_eq (path : List String → String) (c : Chain) :
    ofElement (path c.tags) c.element = fragmentsOf path [c] := by
  rw [ofElement, Element.code?_eq]
  by_cases h : c.element.Binds <;> simp [fragmentsOf, h]

mutual

theorem ofNode_eq_chains (above : List String) (n : Node) :
    ofNode (pathOf above) n = fragmentsOf pathOf (n.chains above) := by
  cases n with
  | element e children =>
    rw [ofNode, below_pathOf, ofForest_eq_chains, Node.chains,
      ofElement_eq pathOf ⟨above ++ [e.tag], e⟩, ← fragmentsOf_append, List.singleton_append]
  | interpolation expression text => rfl
  | text text => rfl

/-- The fragments of a forest are those of its chains, whatever the tags are. -/
theorem ofForest_eq_chains (above : List String) (ns : List Node) :
    ofForest (pathOf above) ns = fragmentsOf pathOf (Node.chainsAll above ns) := by
  cases ns with
  | nil => rfl
  | cons n ns =>
    rw [ofForest, ofNode_eq_chains, ofForest_eq_chains above ns, Node.chainsAll,
      fragmentsOf_append]

end

/-- The code of a forest, element by element. -/
theorem map_code_ofForest (ns : List Node) :
    (ofForest "" ns).map (·.code) = (elementsOf ns).filterMap Element.code? := by
  rw [← pathOf_nil, ofForest_eq_chains, ← Node.map_element_chainsAll []]
  induction Node.chainsAll [] ns with
  | nil => rfl
  | cons c cs ih =>
    rw [← List.singleton_append, fragmentsOf_append, List.map_append, ih, List.map_append,
      List.filterMap_append]
    by_cases h : c.element.Binds <;> simp [fragmentsOf, Element.code?_eq, h]

theorem ofForest_of_tags_ne {ns : List Node} (h : ∀ e ∈ elementsOf ns, e.tag ≠ "") :
    ofForest "" ns = fragmentsOf (" > ".intercalate ·) (Node.chainsAll [] ns) := by
  rw [← pathOf_nil, ofForest_eq_chains]
  refine List.map_congr_left fun c hc => ?_
  have htags : ∀ tag ∈ c.tags, tag ≠ "" := by
    intro tag htag
    have hforest := Node.mem_tags_of_mem_chainsAll (List.mem_of_mem_filter hc) htag
    rcases hforest with habove | ⟨e, he, rfl⟩
    · cases habove
    · exact h e he
  rw [pathOf_of_ne_empty htags]

end Fragment

/-! ## Templates -/

theorem allElements_wellFormed {source : String} {forest : List Node}
    (h : readForest source = .ok forest) : AllElements Element.WellFormed forest := by
  obtain ⟨steps, hread, rfl⟩ := readForest_eq_ok_iff.1 h
  refine allElements_iff.2 fun n hn e he => ?_
  have hnode := allNodes_forestOf (addsNodes_of_read hread) n hn
  cases n with
  | element f children =>
    cases he
    exact hnode.1
  | interpolation expression text => cases he
  | text text => cases he

/-- Where no tag is empty, and so in every template, each element that binds an event has one
fragment, in the order of the document, and nothing else has any. Its path are the tags from a root
down to it, and its code is what binds its events, those of the element before those of the rendered
element. -/
theorem Fragment.ofForest_of_tags :
    (∀ ns, (∀ e ∈ elementsOf ns, e.tag ≠ "") →
      ofForest "" ns = ((Node.chainsAll [] ns).filter fun c => c.element.Binds).map fun c =>
        ⟨" > ".intercalate c.tags, c.element.bindingsText⟩) ∧
      (∀ ns, (Node.chainsAll [] ns).map (·.element) = elementsOf ns) ∧
      ∀ source t, Template.compile source = .ok t →
        t.fragments = ((Node.chainsAll [] t.roots).filter fun c => c.element.Binds).map fun c =>
          ⟨" > ".intercalate c.tags, c.element.bindingsText⟩ := by
  refine ⟨fun ns h => ofForest_of_tags_ne h, Node.map_element_chainsAll [], fun source t h => ?_⟩
  obtain ⟨forest, hread, rfl⟩ := Template.compile_eq_ok_iff.1 h
  refine ofForest_of_tags_ne fun e he hempty => ?_
  obtain ⟨c, rest, htag, -⟩ := (allElements_wellFormed hread e he).tag
  rw [hempty] at htag
  cases htag

theorem Fragment.ofForest_of_tags_button :
    ofForest "" [.element { tag := "form" } [.element { tag := "p" } [.text "x"], .element
        { tag := "button"
          events := ⟨[("click", .single ⟨"save", none⟩), ("input", .single ⟨"a = 1", none⟩)],
            by decide⟩
          nativeEvents := ⟨[("focus", .single ⟨"load", none⟩)], by decide⟩ } []]] =
      [⟨"form > button",
        "on:\x7b\"click\":save,\"input\":function($event)\x7ba = 1\x7d\x7d," ++
          "nativeOn:\x7b\"focus\":load\x7d"⟩] := by
  rw [ofForest_of_tags.1 _ (by simp)]
  decide +kernel

end EventMarkup
