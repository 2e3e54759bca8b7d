import EventMarkup.Proofs.Spelling

/-!
# Nodes of a template

What holds of every node that a step adds holds of every node of the forest, however the tags are
nested, left open or closed in the wrong order (`allNodes_forestOf`): no step of the draft changes
a node but for what an open element holds, and none makes up nodes other than its own. So every
element of a forest that was read is what its own tag and attributes say
(`isWritten_of_readForest`).
-/

namespace EventMarkup

open Markup

def Node.element? : Node → Option Element
  | .element e _ => some e
  | _ => none

/-- The elements of several trees, each before the elements in it. -/
def elementsOf (ns : List Node) : List Element := (Node.preorderAll ns).filterMap Node.element?

theorem Node.preorderAll_append (ns ms : List Node) :
    preorderAll (ns ++ ms) = preorderAll ns ++ preorderAll ms := by
  induction ns with
  | nil => rfl
  | cons n ns ih => simp [preorderAll, ih]

@[simp] theorem elementsOf_nil : elementsOf [] = [] := rfl

@[simp] theorem elementsOf_append (ns ms : List Node) :
    elementsOf (ns ++ ms) = elementsOf ns ++ elementsOf ms := by
  rw [elementsOf, Node.preorderAll_append, List.filterMap_append]
  rfl

@[simp] theorem elementsOf_element (e : Element) (children ns : List Node) :
    elementsOf (.element e children :: ns) = e :: (elementsOf children ++ elementsOf ns) := by
  simp [elementsOf, Node.preorderAll, Node.preorder, Node.element?]

@[simp] theorem elementsOf_text (text : String) (ns : List Node) :
    elementsOf (.text text :: ns) = elementsOf ns := rfl

@[simp] theorem elementsOf_interpolation (expression text : String) (ns : List Node) :
    elementsOf (.interpolation expression text :: ns) = elementsOf ns := rfl

/-- Whether a property holds of all nodes of several trees, at any depth. -/
def AllNodes (P : Node → Prop) (ns : List Node) : Prop := ∀ n ∈ Node.preorderAll ns, P n

section AllNodes

variable {P : Node → Prop} {ns ms : List Node}

theorem allNodes_nil : AllNodes P [] := by simp [AllNodes, Node.preorderAll]

theorem AllNodes.append (hn : AllNodes P ns) (hm : AllNodes P ms) : AllNodes P (ns ++ ms) := by
  intro n h
  rw [Node.preorderAll_append] at h
  exact (List.mem_append.1 h).elim (hn n) (hm n)

theorem allNodes_element {e : Element} (he : P (.element e ns)) (hns : AllNodes P ns) :
    AllNodes P [.element e ns] := by
  simpa [AllNodes, Node.preorderAll, Node.preorder] using And.intro he hns

end AllNodes

def AllElements (P : Element → Prop) (ns : List Node) : Prop := ∀ e ∈ elementsOf ns, P e

theorem allElements_iff {P : Element → Prop} {ns : List Node} :
    AllElements P ns ↔ AllNodes (fun n => ∀ e ∈ n.element?, P e) ns := by
  simp only [AllElements, AllNodes, elementsOf, List.mem_filterMap, Option.mem_def]
  exact ⟨fun h n hn e he => h e ⟨n, hn, he⟩, fun h e ⟨n, hn, he⟩ => h n hn e he⟩

/-- Whether an element is what its own tag and attributes say. -/
def Element.IsWritten (e : Element) : Prop :=
  e = .ofAttributes e.tag e.attributes e.selfClosing

namespace Markup

/-- Whether a property holds of the nodes that a step adds. What an element will hold is not known
when it opens, so the property has to hold of it whatever that is. -/
def Step.AddsNodes (P : Node → Prop) : Step → Prop
  | .opens e => ∀ children, P (.element e children)
  | .empty e => P (.element e [])
  | .text n => AllNodes P [n]
  | .blank => P (.text " ")
  | .closes _ => True

/-- Whether a property holds of all nodes of a draft, and of what its open elements will become. -/
structure Draft.Has (P : Node → Prop) (d : Draft) : Prop where
  roots : AllNodes P d.roots
  opened : ∀ f ∈ d.opened,
    (∀ children, P (.element f.element children)) ∧ AllNodes P f.children

namespace Draft.Has

variable {P : Node → Prop} {d : Draft}

theorem add (h : d.Has P) {n : Node} (hn : AllNodes P [n]) : (d.add n).Has P := by
  unfold Draft.add
  split
  · exact ⟨h.roots.append hn, h.opened⟩
  · rename_i f outer heq
    have hopened := h.opened
    rw [heq] at hopened
    refine ⟨h.roots, fun g hg => ?_⟩
    rcases List.mem_cons.1 hg with rfl | hg
    · obtain ⟨hf, hchildren⟩ := hopened f List.mem_cons_self
      exact ⟨hf, hchildren.append hn⟩
    · exact hopened g (List.mem_cons_of_mem _ hg)

theorem endInnermost (h : d.Has P) : d.endInnermost.Has P := by
  unfold Draft.endInnermost
  split
  · exact h
  · rename_i f outer heq
    have hopened := h.opened
    rw [heq] at hopened
    obtain ⟨hf, hchildren⟩ := hopened f List.mem_cons_self
    have houter : Draft.Has P { d with opened := outer } :=
      ⟨h.roots, fun g hg => hopened g (List.mem_cons_of_mem _ hg)⟩
    exact houter.add (allNodes_element (hf f.children) hchildren)

theorem endMany (h : d.Has P) (n : Nat) : (d.endMany n).Has P := by
  induction n generalizing d with
  | zero => exact h
  | succ n ih => exact ih h.endInnermost

/-- No step changes a node that is there, and the only ones that it makes up are its own. -/
theorem step (h : d.Has P) {s : Step} (hs : s.AddsNodes P) : (d.step s).Has P := by
  cases s with
  | opens e =>
    refine ⟨h.roots, fun f hf => ?_⟩
    rcases List.mem_cons.1 hf with rfl | hf
    · exact ⟨hs, allNodes_nil⟩
    · exact h.opened f hf
  | empty e => exact h.add (allNodes_element hs allNodes_nil)
  | text n => exact h.add hs
  | blank =>
    show Draft.Has P (if d.opened.isEmpty then d else d.add (.text " "))
    split
    · exact h
    · refine h.add fun n hn => ?_
      obtain rfl := List.mem_singleton.1 hn
      exact hs
  | closes tag =>
    show Draft.Has P (d.close tag)
    unfold Draft.close
    split
    · exact h.endMany _
    · exact h

theorem foldl {steps : List Step} (h : d.Has P) (hsteps : ∀ s ∈ steps, s.AddsNodes P) :
    (steps.foldl Draft.step d).Has P := by
  induction steps generalizing d with
  | nil => exact h
  | cons s steps ih =>
    exact ih (h.step (hsteps s List.mem_cons_self))
      fun t ht => hsteps t (List.mem_cons_of_mem _ ht)

theorem empty : Draft.empty.Has P := ⟨allNodes_nil, by simp [Draft.empty]⟩

end Draft.Has

theorem allNodes_forestOf {P : Node → Prop} {steps : List Step}
    (h : ∀ s ∈ steps, s.AddsNodes P) : AllNodes P (forestOf steps) :=
  ((Draft.Has.empty.foldl h).endMany _).roots

variable {P : Element → Prop}

/-- Whether a property holds of the element that a step adds, if it adds one. -/
def Step.Adds (P : Element → Prop) : Step → Prop
  | .opens e | .empty e => P e
  | .text n => AllElements P [n]
  | .blank | .closes _ => True

theorem Step.Adds.addsNodes {s : Step} (h : s.Adds P) :
    s.AddsNodes fun n => ∀ e ∈ n.element?, P e := by
  cases s with
  | opens e => exact fun _ _ he => Option.some.inj he ▸ h
  | empty e => exact fun _ he => Option.some.inj he ▸ h
  | text n => exact allElements_iff.1 h
  | blank => exact fun _ he => nomatch he
  | closes tag => trivial

theorem allElements_forestOf {steps : List Step} (h : ∀ s ∈ steps, s.Adds P) :
    AllElements P (forestOf steps) :=
  allElements_iff.2 (allNodes_forestOf fun s hs => (h s hs).addsNodes)

/-! ## The elements that tags spell -/

theorem isWritten_ofAttributes (tag : String) (attributes : List Attribute) (selfClosing : Bool) :
    (Element.ofAttributes tag attributes selfClosing).IsWritten := by
  simp [Element.IsWritten]

theorem adds_stepOfRun (run : List Char) : (stepOfRun run).Adds P := by
  unfold stepOfRun
  split
  · trivial
  · dsimp only
    split <;> simp [Step.Adds, AllElements]

theorem adds_of_readStep {s rest : List Char} {step : Step}
    (h : readStep s = .ok (some step, rest)) : step.Adds Element.IsWritten := by
  unfold readStep at h
  split at h
  · split at h
    · cases h
    · cases h
    · cases h
      trivial
    · split at h
      · rename_i hopening
        cases h
        unfold readOpeningTag at hopening
        dsimp only at hopening
        split at hopening
        · cases hopening
          unfold stepOfElement
          split <;> exact isWritten_ofAttributes _ _ _
        · cases hopening
      · cases h
    · cases h
  · split at h
    · cases h
      exact adds_stepOfRun _
    · cases h

/-- What holds of every step that is read at one place holds of all steps of a template. -/
theorem forall_of_read {P : Step → Prop}
    (hread : ∀ s step rest, readStep s = .ok (some step, rest) → P step) {s : List Char}
    {steps : List Step} (h : Step.read s = .ok steps) : ∀ step ∈ steps, P step := by
  fun_induction Step.read s generalizing steps with
  | case1 =>
    cases h
    simp
  | case2 c s step rest hstep steps' hsteps ih =>
    cases h
    intro t ht
    rcases List.mem_append.1 ht with ht | ht
    · obtain rfl := Option.mem_toList.1 ht
      exact hread _ _ _ hstep
    · exact ih hsteps t ht
  | case3 => cases h
  | case4 => cases h

theorem exists_stepOfRun_of_readStep {s rest : List Char} {n : Node}
    (h : readStep s = .ok (some (.text n), rest)) : ∃ run, stepOfRun run = .text n := by
  unfold readStep at h
  split at h
  · split at h
    · cases h
    · cases h
    · cases h
    · split at h
      · rename_i hopening
        cases h
        unfold readOpeningTag at hopening
        dsimp only at hopening
        split at hopening
        · simp only [Except.ok.injEq, Prod.mk.injEq, stepOfElement] at hopening
          split at hopening <;> cases hopening.1
        · cases hopening
      · cases h
    · cases h
  · split at h
    · simp only [Except.ok.injEq, Prod.mk.injEq, Option.some.injEq] at h
      exact ⟨_, h.1⟩
    · cases h

theorem adds_of_read {s : List Char} {steps : List Step} (h : Step.read s = .ok steps) :
    ∀ step ∈ steps, step.Adds Element.IsWritten :=
  forall_of_read (fun _ _ _ hstep => adds_of_readStep hstep) h

end Markup

/-- Every element of a template is what its own tag and attributes say. -/
theorem isWritten_of_readForest {source : String} {forest : List Node}
    (h : readForest source = .ok forest) : AllElements Element.IsWritten forest := by
  obtain ⟨steps, hread, rfl⟩ := readForest_eq_ok_iff.1 h
  exact allElements_forestOf (adds_of_read hread)

end EventMarkup
