import EventMarkup.Proofs.Bindings
import EventMarkup.Proofs.Continuation

/-!
# Well-formed nodes

The reader of a template takes any text, with stray quotes and slashes, tags that are cut off and
characters that fit nowhere, and still it makes no node that breaks the rules of the tree. The rules
stand in `Node.WellFormed`: names consist of the right characters, an element that has no content
has no children, a text holds no opening mark and an interpolation is what its text says. The
iteration of an element is that of the last attribute that asks for a readable one.

Each part that is read adds well-formed nodes only (`addsNodes_of_readStep`), whatever an element
that it opens will hold, so all nodes of the forest are well-formed (`wellFormed_of_readForest`).
That no blank text becomes a root needs the draft besides: a blank part adds a node only below an
open element.
-/

namespace EventMarkup

open Markup Text

/-! ## Attributes -/

/-- An attribute with a name of the right characters. It is static if it carries no script. -/
structure Attribute.WellFormed (a : Attribute) : Prop where
  name_ne : a.name ≠ ""
  name_chars : ∀ c ∈ a.name.toList, isAttributeChar c = true
  static_iff : a.kind = .static ↔ isDirective a.name = false

/-- The iteration that an attribute asks for, if it can be read. -/
def Attribute.iteration? (a : Attribute) : Option Iteration :=
  if a.name = iterationName then a.value.bind Iteration.read? else none

theorem wellFormed_of_readAttribute {c : Char} {s rest : List Char} {a : Attribute}
    (hc : isAttributeChar c = true) (h : readAttribute (c :: s) = .ok (a, rest)) :
    a.WellFormed := by
  have hname : a.name.toList = (c :: s).takeWhile isAttributeChar := by
    unfold readAttribute at h
    split at h
    · dsimp only at h
      split at h
      · cases h
        exact String.toList_ofList
      · cases h
    · cases h
      exact String.toList_ofList
  refine ⟨?_, ?_, a.kind_eq_static_iff⟩
  · intro hempty
    rw [hempty, List.takeWhile_cons_of_pos hc] at hname
    cases hname
  · rw [hname]
    exact fun d hd => List.mem_takeWhile_imp hd

theorem wellFormed_of_readTagEnd {s : List Char} {e : TagEnd} (h : readTagEnd s = .ok e) :
    ∀ a ∈ e.attributes, a.WellFormed := by
  fun_induction readTagEnd s generalizing e with
  | case1 => cases h; simp
  | case2 => cases h; simp
  | case3 => cases h; simp
  | case4 s c rest hs hslash hclose hname a after hread tag htag ih =>
    cases h
    intro b hb
    rcases List.mem_cons.1 hb with rfl | hb
    · exact wellFormed_of_readAttribute hname hread
    · exact ih htag b hb
  | case5 => cases h
  | case6 => cases h
  | case7 s c rest hs hslash hclose hname ih => exact ih h

/-! ## Elements -/

/-- An element with a name of the right characters and well-formed attributes, of which the last
readable iteration counts. -/
structure Element.WellFormed (e : Element) : Prop where
  tag : ∃ c rest, e.tag.toList = c :: rest ∧ c.isAlpha = true ∧ ∀ d ∈ rest, isTagChar d = true
  attributes : ∀ a ∈ e.attributes, a.WellFormed
  iteration : e.iteration = (e.attributes.filterMap Attribute.iteration?).getLast?

theorem read?_empty : Iteration.read? "" = none := by decide

theorem Element.iteration_apply (e : Element) (a : Attribute) :
    (e.apply a).iteration = a.iteration?.or e.iteration := by
  unfold Element.apply Attribute.iteration?
  by_cases hname : a.name = iterationName
  · rw [if_neg (Attribute.kind_ne_on_of_name_eq hname), if_pos hname, if_pos hname]
    cases hvalue : a.value with
    | none => simp [read?_empty]
    | some value =>
      cases hread : Iteration.read? value <;> simp [hread]
  · rw [if_neg hname, if_neg hname]
    split
    · unfold Element.listen
      dsimp only
      split <;> rfl
    · rfl

theorem Element.iteration_foldl_apply (attributes : List Attribute) (e : Element) :
    (attributes.foldl Element.apply e).iteration =
      (attributes.filterMap Attribute.iteration?).getLast?.or e.iteration := by
  induction attributes generalizing e with
  | nil => rfl
  | cons a attributes ih =>
    rw [List.foldl_cons, ih, Element.iteration_apply]
    cases ha : a.iteration? with
    | none => simp [ha]
    | some i => cases hlast : (attributes.filterMap Attribute.iteration?).getLast? <;>
        simp [ha, List.getLast?_cons, hlast]

theorem Element.wellFormed_ofAttributes {c : Char} {r : List Char} {attributes : List Attribute}
    (hc : c.isAlpha = true) (hattributes : ∀ a ∈ attributes, a.WellFormed) (selfClosing : Bool) :
    (Element.ofAttributes (String.ofList ((c :: r).takeWhile isTagChar)) attributes
      selfClosing).WellFormed where
  tag := by
    have hchar : isTagChar c = true := by simp [isTagChar, Char.isAlphanum, hc]
    refine ⟨c, r.takeWhile isTagChar, ?_, hc, fun d hd => List.mem_takeWhile_imp hd⟩
    rw [Element.ofAttributes_tag, String.toList_ofList, List.takeWhile_cons_of_pos hchar]
  attributes := by simpa using hattributes
  iteration := by
    rw [Element.ofAttributes_attributes, Element.ofAttributes, Element.iteration_foldl_apply,
      Option.or_none]

theorem Element.WellFormed.tag_chars {e : Element} (h : e.WellFormed) :
    ∀ c ∈ e.tag.toList, isTagChar c = true := by
  obtain ⟨c, rest, htag, hc, hrest⟩ := h.tag
  rw [htag]
  exact List.forall_mem_cons.2 ⟨by simp [isTagChar, Char.isAlphanum, hc], hrest⟩

/-! ## Nodes -/

/-- A node that keeps the rules of the tree, apart from the nodes below it. -/
def Node.WellFormed : Node → Prop
  | .element e children => e.WellFormed ∧ (e.isEmpty = true → children = [])
  | .interpolation expression run => expressionOf? run = some expression
  | .text run =>
    run ≠ "" ∧ ¬ openMark <:+: run.toList ∧ (allBlank run.toList = true → run = " ")

theorem Node.wellFormed_space : (Node.text " ").WellFormed :=
  ⟨by decide, cutAt?_eq_none_iff.1 (by decide), fun _ => rfl⟩

namespace Markup

theorem addsNodes_stepOfElement {e : Element} (h : e.WellFormed) :
    (stepOfElement e).AddsNodes Node.WellFormed := by
  unfold stepOfElement
  split
  · exact ⟨h, fun _ => rfl⟩
  · rename_i hempty
    exact fun _ => ⟨h, fun he => absurd he hempty⟩

theorem addsNodes_stepOfRun (run : List Char) : (stepOfRun run).AddsNodes Node.WellFormed := by
  unfold stepOfRun
  split
  · exact Node.wellFormed_space
  · rename_i hblank
    dsimp only
    split
    · rename_i expression hexpression
      intro n hn
      obtain rfl := List.mem_singleton.1 hn
      exact hexpression
    · rename_i hexpression
      intro n hn
      obtain rfl := List.mem_singleton.1 hn
      refine ⟨?_, ?_, ?_⟩
      · intro hempty
        rw [String.ofList_eq_empty_iff] at hempty
        exact hblank (hempty ▸ rfl)
      · intro hopen
        rw [expressionOf?, if_pos] at hexpression
        · cases hexpression
        · rw [Option.isSome_iff_ne_none]
          exact fun hcut => cutAt?_eq_none_iff.1 hcut hopen
      · rw [String.toList_ofList]
        exact fun h => absurd h hblank

theorem addsNodes_of_readStep {s rest : List Char} {step : Step}
    (h : readStep s = .ok (some step, rest)) : step.AddsNodes Node.WellFormed := by
  cases partFront s with
  | comment r => cases h
  | @declaration r hr =>
    rw [readStep_declaration hr] at h
    cases h
  | closing r =>
    cases h
    trivial
  | @opening c hc r =>
    rw [readStep_openingTag hc] at h
    obtain ⟨read, hread, heq⟩ := map_eq_ok h
    cases heq
    unfold readOpeningTag at hread
    dsimp only at hread
    split at hread
    · rename_i e he
      cases hread
      exact addsNodes_stepOfElement
        (Element.wellFormed_ofAttributes hc (wellFormed_of_readTagEnd he) e.selfClosing)
    · cases hread
  | run htag =>
    rw [readStep_text htag] at h
    obtain ⟨read, -, heq⟩ := map_eq_ok h
    cases heq
    exact addsNodes_stepOfRun read.1

theorem addsNodes_of_read {s : List Char} {steps : List Step} (h : Step.read s = .ok steps) :
    ∀ step ∈ steps, step.AddsNodes Node.WellFormed :=
  forall_of_read (fun _ _ _ hstep => addsNodes_of_readStep hstep) h

/-! ## Roots -/

theorem mem_roots_add {d : Draft} {n root : Node} (h : root ∈ (d.add n).roots) :
    root ∈ d.roots ∨ d.opened = [] ∧ root = n := by
  unfold Draft.add at h
  split at h
  · rename_i hopened
    exact (List.mem_append.1 h).imp id fun h => ⟨hopened, List.mem_singleton.1 h⟩
  · exact .inl h

section Roots

variable {P : Node → Prop} (helement : ∀ e children, P (.element e children)) {d : Draft}

include helement

theorem forall_roots_endMany (h : ∀ root ∈ d.roots, P root) (n : Nat) :
    ∀ root ∈ (d.endMany n).roots, P root := by
  induction n generalizing d with
  | zero => exact h
  | succ n ih =>
    refine ih fun root hroot => ?_
    unfold Draft.endInnermost at hroot
    split at hroot
    · exact h root hroot
    · rcases mem_roots_add hroot with hroot | ⟨-, rfl⟩
      · exact h root hroot
      · exact helement _ _

theorem forall_roots_step (h : ∀ root ∈ d.roots, P root) {s : Step}
    (hs : ∀ n, s = .text n → P n) : ∀ root ∈ (d.step s).roots, P root := by
  intro root hroot
  cases s with
  | opens e => exact h root hroot
  | empty e =>
    rcases mem_roots_add hroot with hroot | ⟨-, rfl⟩
    · exact h root hroot
    · exact helement e []
  | text n =>
    rcases mem_roots_add hroot with hroot | ⟨-, rfl⟩
    · exact h root hroot
    · exact hs _ rfl
  | blank =>
    unfold Draft.step at hroot
    dsimp only at hroot
    split at hroot
    · exact h root hroot
    · rename_i hopened
      rcases mem_roots_add hroot with hroot | ⟨hnil, -⟩
      · exact h root hroot
      · exact absurd (List.isEmpty_iff.2 hnil) hopened
  | closes tag =>
    unfold Draft.step Draft.close at hroot
    dsimp only at hroot
    split at hroot
    · exact forall_roots_endMany helement h _ root hroot
    · exact h root hroot

/-- What holds of all elements and of all runs holds of all roots, since a space needs an element
around it. -/
theorem forall_forestOf {steps : List Step} (hsteps : ∀ n, Step.text n ∈ steps → P n) :
    ∀ root ∈ forestOf steps, P root := by
  have hrun : ∀ d : Draft, (∀ root ∈ d.roots, P root) →
      ∀ root ∈ (steps.foldl Draft.step d).roots, P root := by
    induction steps with
    | nil => exact fun _ h => h
    | cons s steps ih =>
      intro d h
      refine ih (fun n hn => hsteps n (List.mem_cons_of_mem _ hn)) _
        (forall_roots_step helement h ?_)
      rintro n rfl
      exact hsteps n List.mem_cons_self
  exact forall_roots_endMany helement (hrun .empty (by simp [Draft.empty])) _

end Roots

theorem not_allBlank_of_readStep {s rest : List Char} {run : String}
    (h : readStep s = .ok (some (.text (.text run)), rest)) : allBlank run.toList = false := by
  obtain ⟨r, hr⟩ := exists_stepOfRun_of_readStep h
  unfold stepOfRun at hr
  split at hr
  · cases hr
  · rename_i hblank
    dsimp only at hr
    split at hr
    · cases hr
    · cases hr
      rwa [String.toList_ofList, ← Bool.not_eq_true]

end Markup

/-! ## Templates -/

/-- All nodes of a template are well-formed, and no blank text is a root. -/
theorem wellFormed_of_readForest {source : String} {forest : List Node}
    (h : readForest source = .ok forest) :
    (∀ n ∈ Node.preorderAll forest, n.WellFormed) ∧
      ∀ run, Node.text run ∈ forest → allBlank run.toList = false := by
  obtain ⟨steps, hread, rfl⟩ := readForest_eq_ok_iff.1 h
  refine ⟨allNodes_forestOf (addsNodes_of_read hread), fun run hrun => ?_⟩
  refine forall_forestOf (P := fun n => ∀ run, n = .text run → allBlank run.toList = false)
    (fun _ _ _ h => nomatch h) ?_ _ hrun run rfl
  rintro n hn run rfl
  exact forall_of_read (P := fun step => ∀ run, step = .text (.text run) →
      allBlank run.toList = false)
    (fun s step rest hstep run hrun => not_allBlank_of_readStep (hrun ▸ hstep)) hread _ hn run rfl

theorem wellFormed_of_readForest_repeated :
    ∃ forest,
      readForest "<a v-for='x in xs' v-for \u00e9 v-for=\"(y, i) of ys\" v-for=z> <br></p>" =
        .ok forest ∧
      (∀ n ∈ Node.preorderAll forest, n.WellFormed) ∧
      (∀ run, Node.text run ∈ forest → allBlank run.toList = false) ∧
      (elementsOf forest).map (·.iteration) = [some ⟨"ys", "y", some "i", none⟩, none] := by
  have hread : (readForest
      "<a v-for='x in xs' v-for \u00e9 v-for=\"(y, i) of ys\" v-for=z> <br></p>").toOption.map
      (fun forest => (elementsOf forest).map (·.iteration)) =
      some [some ⟨"ys", "y", some "i", none⟩, none] := by decide +kernel
  obtain ⟨forest, hforest, hiterations⟩ := exists_ok_of_toOption_map hread
  obtain ⟨hnodes, hroots⟩ := wellFormed_of_readForest hforest
  exact ⟨forest, hforest, hnodes, hroots, hiterations⟩

end EventMarkup
