import EventMarkup.Proofs.Judgement
import EventMarkup.Proofs.Peg.Runs
import EventMarkup.Proofs.WellFormed

/-!
# Judging iterations

Every directive is judged by its own value, except that the names and the source of an iteration are
not read off the value again: they are what the element asks for, which is what its last readable
iteration says. As long as all iterations of an element say the same, nothing comes of it. The
problems of a template are those of its attributes and interpolations, each judged by itself, and an
invalid name stands in the text that is cited for it (`ofForest_of_readForest`). An element with
several iterations has the names of the last one judged once for each of them, and the names of the
others not at all (`exists_misjudged_iteration`).
-/

namespace EventMarkup

open Markup Peg Text

/-! ## Names in the text -/

namespace Iteration

/-- The names that an iteration binds; a name that is missing is empty. -/
def names (i : Iteration) : List String := [i.item, i.iterator1.getD "", i.iterator2.getD ""]

theorem isInfix_of_partsOf {whole part : Rule} {s : List Char} {parts : List (List Char)}
    (h : partsOf whole part s = some parts) : ∀ p ∈ parts, p <:+: s := by
  unfold partsOf at h
  obtain ⟨trees, htrees, rfl⟩ := Option.map_eq_some_iff.1 h
  cases hrun : grammar.run whole s with
  | matched ts w rest far =>
    rw [hrun] at htrees
    cases htrees
    have hs : s = Tree.yieldAll trees ++ rest := ((runs_of_attempt hrun (by simp)).append rfl).1
    intro p hp
    rw [hs]
    exact (Tree.isInfix_of_mem_partsAll hp).trans (List.prefix_append _ _).isInfix
  | failed far =>
    rw [hrun] at htrees
    cases htrees
  | exhausted =>
    rw [hrun] at htrees
    cases htrees

theorem isInfix_of_mem_names_bind {source : String} {left : List Char} {name : String}
    (h : name ∈ (bind source left).names) : name.toList <:+: left := by
  have hempty : "".toList <:+: left := List.nil_infix
  unfold bind at h
  split at h
  · rename_i first second more hparts
    have hpart := isInfix_of_partsOf hparts
    simp only [names, List.mem_cons, List.not_mem_nil, or_false, Option.getD_some] at h
    rcases h with rfl | rfl | rfl
    · rw [String.toList_ofList]
      exact (trim_isInfix first).trans (hpart first (by simp))
    · rw [String.toList_ofList]
      exact (trim_isInfix second).trans (hpart second (by simp))
    · cases hthird : more.head?.filter (!·.isEmpty) with
      | none => exact hempty
      | some third =>
        have hmem : third ∈ more := List.mem_of_head? (Option.filter_eq_some_iff.1 hthird).1
        simp only [Option.map_some, Option.getD_some, Function.comp_apply, String.toList_ofList]
        exact (trim_isInfix third).trans (hpart third (by simp [hmem]))
  · simp only [names, List.mem_cons, List.not_mem_nil, or_false, Option.getD_none] at h
    rcases h with rfl | rfl | rfl
    · exact String.toList_ofList ▸ List.infix_refl _
    · exact hempty
    · exact hempty

theorem isInfix_of_read? {text name : String} {i : Iteration} (h : read? text = some i)
    (hname : name ∈ i.names) : name.toList <:+: text.toList := by
  unfold read? at h
  dsimp only at h
  split at h
  · rename_i left right hleft hright
    cases h
    exact (isInfix_of_mem_names_bind hname).trans
      ((trim_isInfix left).trans (isInfix_of_partsOf hleft left (List.mem_singleton_self _)))
  · cases h

end Iteration

/-! ## Attributes by themselves -/

def Attribute.problems (a : Attribute) : List Diagnostic :=
  match a.script? with
  | none => []
  | some script =>
    let text := Diagnostic.citation a.name script
    if a.name = iterationName then Diagnostic.ofIteration a.iteration? text
    else Diagnostic.ofScript script text

def Node.problems : Node → List Diagnostic
  | .element e _ => e.attributes.flatMap Attribute.problems
  | .interpolation expression run => Diagnostic.ofScript expression run
  | .text _ => []

/-- Whether the iterations of an element all say the same. -/
def Element.IteratesAlike (e : Element) : Prop :=
  ∀ a ∈ e.attributes, a.name = iterationName → a.script? ≠ none →
    ∀ b ∈ e.attributes, ∀ i, b.iteration? = some i → a.iteration? = some i

theorem Attribute.value_of_script? {a : Attribute} {script : String}
    (h : a.script? = some script) : a.value = some script := by
  unfold Attribute.script? at h
  split at h
  · exact (Option.filter_eq_some_iff.1 h).1
  · cases h

theorem Element.WellFormed.iteration_eq {e : Element} (h : e.WellFormed) (halike : e.IteratesAlike)
    {a : Attribute} (ha : a ∈ e.attributes) (hname : a.name = iterationName)
    (hscript : a.script? ≠ none) : e.iteration = a.iteration? := by
  rw [h.iteration]
  cases hlast : (e.attributes.filterMap Attribute.iteration?).getLast? with
  | none =>
    rw [List.getLast?_eq_none_iff, List.filterMap_eq_nil_iff] at hlast
    exact (hlast a ha).symm
  | some i =>
    obtain ⟨b, hb, hi⟩ := List.mem_filterMap.1 (List.mem_of_getLast? hlast)
    exact (halike a ha hname hscript b hb i hi).symm

theorem Element.WellFormed.ofAttribute_eq {e : Element} (h : e.WellFormed)
    (halike : e.IteratesAlike) {a : Attribute} (ha : a ∈ e.attributes) :
    Diagnostic.ofAttribute e a = a.problems := by
  unfold Diagnostic.ofAttribute Attribute.problems
  cases hscript : a.script? with
  | none => rfl
  | some script =>
    dsimp only
    split
    · rename_i hname
      rw [h.iteration_eq halike ha hname (by simp [hscript])]
    · rfl

/-! ## Invalid names -/

namespace Diagnostic

/-- A problem that names an invalid name cites a text in which the name stands. -/
def Locates : Diagnostic → Prop
  | .invalidIdentifier _ name text => name.toList <:+: text.toList
  | .forbiddenWord _ _ => True
  | .invalidExpression _ => True

theorem locates_ofScript (script text : String) : ∀ d ∈ ofScript script text, d.Locates := by
  intro d hd
  unfold ofScript at hd
  split at hd
  · cases hd
  · split at hd <;> cases List.mem_singleton.1 hd <;> trivial

theorem locates_ofName (role : NameRole) {name text : String}
    (h : name.toList <:+: text.toList) : ∀ d ∈ ofName role name text, d.Locates := by
  intro d hd
  unfold ofName at hd
  split at hd
  · cases hd
  · cases List.mem_singleton.1 hd
    exact h

theorem locates_ofIteration {iteration : Option Iteration} {text : String}
    (h : ∀ i ∈ iteration, ∀ name ∈ i.names, name.toList <:+: text.toList) :
    ∀ d ∈ ofIteration iteration text, d.Locates := by
  cases iteration with
  | none => simp [ofIteration]
  | some i =>
    have hnames := h i rfl
    simp only [Iteration.names, List.forall_mem_cons] at hnames
    obtain ⟨hitem, hsecond, hthird, -⟩ := hnames
    simp only [ofIteration, List.forall_mem_append]
    exact ⟨⟨⟨locates_ofScript _ _, locates_ofName _ hitem⟩, locates_ofName _ hsecond⟩,
      locates_ofName _ hthird⟩

theorem isInfix_citation (name value : String) : value.toList <:+: (citation name value).toList :=
  ⟨name.toList ++ "=\"".toList, "\"".toList, by simp [citation]⟩

end Diagnostic

theorem Attribute.locates_problems (a : Attribute) : ∀ d ∈ a.problems, d.Locates := by
  unfold Attribute.problems
  cases hscript : a.script? with
  | none => simp
  | some script =>
    dsimp only
    split
    · rename_i hname
      refine Diagnostic.locates_ofIteration fun i hi name hmem => ?_
      have hread : Iteration.read? script = some i := by
        rwa [Option.mem_def, Attribute.iteration?, if_pos hname, value_of_script? hscript,
          Option.bind_some] at hi
      exact (Iteration.isInfix_of_read? hread hmem).trans (Diagnostic.isInfix_citation _ _)
    · exact Diagnostic.locates_ofScript _ _

theorem Node.locates_problems (n : Node) : ∀ d ∈ n.problems, d.Locates := by
  cases n with
  | element e children =>
    intro d hd
    obtain ⟨a, -, hd⟩ := List.mem_flatMap.1 hd
    exact a.locates_problems d hd
  | interpolation expression text => exact Diagnostic.locates_ofScript _ _
  | text text => simp [Node.problems]

/-! ## Templates -/

mutual

theorem Diagnostic.ofNode_eq {n : Node}
    (h : ∀ e ∈ elementsOf [n], ∀ a ∈ e.attributes, ofAttribute e a = a.problems) :
    ofNode n = n.preorder.flatMap Node.problems := by
  cases n with
  | element e children =>
    rw [elementsOf_element, elementsOf_nil, List.append_nil, List.forall_mem_cons] at h
    rw [ofNode, ofForest_eq h.2, Node.preorder, List.flatMap_cons, Node.problems,
      List.flatMap_congr h.1]
  | interpolation expression text => simp [ofNode, Node.preorder, Node.problems]
  | text text => simp [ofNode, Node.preorder, Node.problems]

theorem Diagnostic.ofForest_eq {ns : List Node}
    (h : ∀ e ∈ elementsOf ns, ∀ a ∈ e.attributes, ofAttribute e a = a.problems) :
    ofForest ns = (Node.preorderAll ns).flatMap Node.problems := by
  cases ns with
  | nil => rfl
  | cons n ns =>
    rw [← List.singleton_append, elementsOf_append, List.forall_mem_append] at h
    rw [ofForest, ofNode_eq h.1, ofForest_eq h.2, Node.preorderAll, List.flatMap_append]

end

/-- Where the iterations of every element all say the same, the problems of a template are those of
its nodes, each judged by itself, and every invalid name stands in the text that is cited for it. -/
theorem ofForest_of_readForest {source : String} {forest : List Node}
    (h : readForest source = .ok forest) (halike : ∀ e ∈ elementsOf forest, e.IteratesAlike) :
    Diagnostic.ofForest forest = (Node.preorderAll forest).flatMap Node.problems ∧
      ∀ role name text, .invalidIdentifier role name text ∈ Diagnostic.ofForest forest →
        name.toList <:+: text.toList := by
  obtain ⟨steps, hread, rfl⟩ := readForest_eq_ok_iff.1 h
  have hnodes := allNodes_forestOf (addsNodes_of_read hread)
  have helements : AllElements Element.WellFormed (forestOf steps) := by
    refine allElements_iff.2 fun n hn e he => ?_
    have hnode := hnodes n hn
    cases n with
    | element f children =>
      cases he
      exact hnode.1
    | interpolation expression text => cases he
    | text text => cases he
  have hforest := Diagnostic.ofForest_eq
    fun e he a ha => (helements e he).ofAttribute_eq (halike e he) ha
  refine ⟨hforest, fun role name text hd => ?_⟩
  rw [hforest] at hd
  obtain ⟨n, -, hd⟩ := List.mem_flatMap.1 hd
  exact n.locates_problems _ hd

/-! ## Iterations that differ -/

/-- The attributes of several trees, each with the problems that are reported for it. -/
def Diagnostic.judgements (forest : List Node) : List (Attribute × List Diagnostic) :=
  (elementsOf forest).flatMap fun e => e.attributes.map fun a => (a, ofAttribute e a)

theorem Diagnostic.exists_of_judgements {source : String}
    {judged : List (Attribute × List Diagnostic)}
    (h : (readForest source).toOption.map judgements = some judged) {a : Attribute}
    {problems : List Diagnostic} (hmem : (a, problems) ∈ judged) :
    ∃ forest, readForest source = .ok forest ∧
      ∃ e ∈ elementsOf forest, a ∈ e.attributes ∧ ofAttribute e a = problems := by
  obtain ⟨forest, hread, rfl⟩ := exists_ok_of_toOption_map h
  obtain ⟨e, he, hmem⟩ := List.mem_flatMap.1 hmem
  obtain ⟨b, hb, heq⟩ := List.mem_map.1 hmem
  cases heq
  exact ⟨forest, hread, e, he, hb, rfl⟩

/-- The name `1x` is reported where it is bound by the only iteration of an element. If another
iteration follows it is not reported, and if another precedes it is reported with the text of that
one, in which it does not stand. -/
theorem exists_misjudged_iteration :
    (¬ ∃ problems : Attribute → List Diagnostic, ∀ source forest, readForest source = .ok forest →
        ∀ e ∈ elementsOf forest, ∀ a ∈ e.attributes,
          Diagnostic.ofAttribute e a = problems a) ∧
      ¬ ∀ source forest, readForest source = .ok forest →
        ∀ role name text, .invalidIdentifier role name text ∈ Diagnostic.ofForest forest →
          name.toList <:+: text.toList := by
  constructor
  · rintro ⟨problems, h⟩
    have halone : (readForest "<li v-for=\"1x in xs\"></li>").toOption.map
        Diagnostic.judgements = some [(⟨"v-for", some "1x in xs"⟩,
          [.invalidIdentifier .item "1x" "v-for=\"1x in xs\""])] := by decide +kernel
    have hfirst : (readForest "<li v-for=\"1x in xs\" v-for=\"y in ys\"></li>").toOption.map
        Diagnostic.judgements = some [(⟨"v-for", some "1x in xs"⟩, []),
          (⟨"v-for", some "y in ys"⟩, [])] := by decide +kernel
    obtain ⟨forest, hread, e, he, ha, hsome⟩ :=
      Diagnostic.exists_of_judgements halone List.mem_cons_self
    obtain ⟨forest', hread', e', he', ha', hnone⟩ :=
      Diagnostic.exists_of_judgements hfirst List.mem_cons_self
    rw [h _ forest hread e he _ ha] at hsome
    rw [h _ forest' hread' e' he' _ ha', hsome] at hnone
    cases hnone
  · intro h
    have hlast : (readForest "<li v-for=\"y in ys\" v-for=\"1x in xs\"></li>").toOption.map
        Diagnostic.judgements = some [
          (⟨"v-for", some "y in ys"⟩, [.invalidIdentifier .item "1x" "v-for=\"y in ys\""]),
          (⟨"v-for", some "1x in xs"⟩, [.invalidIdentifier .item "1x" "v-for=\"1x in xs\""])] := by
      decide +kernel
    obtain ⟨forest, hread, e, he, ha, hcited⟩ :=
      Diagnostic.exists_of_judgements hlast List.mem_cons_self
    have hmem := Diagnostic.mem_ofForest he ha (hcited ▸ List.mem_singleton_self _)
    exact absurd (h _ forest hread _ _ _ hmem) (by decide +kernel)

end EventMarkup
