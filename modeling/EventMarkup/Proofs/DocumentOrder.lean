import Mathlib.Data.List.Basic
import EventMarkup.Proofs.Elements
import EventMarkup.Template

/-!
# Problems in the order of the document

A problem belongs to one node. `Node.ownDiagnostics` tells the problems of a node by itself: of an
element, what its directives ask to be judged (`Attribute.subjects`), and of an interpolation, its
script. The problems of a tree are those of its nodes, each node before the nodes below it
(`Diagnostic.ofNode_eq_flatMap_preorder`). So a problem stays where its node is: what is not judged
may be left out anywhere (`Thinned`), and what stands in one place of a forest (`Context`) has its
problems in one piece, between those of the nodes in front of the place and behind it.
`Diagnostic.document_order` says all of this.
-/

namespace EventMarkup

/-! ## What is judged -/

/-- Something that is judged. -/
inductive Subject where
  /-- A script, as a function body. -/
  | script (script : String)
  /-- A name that an iteration binds; an empty one is in order. -/
  | binder (role : NameRole) (name : String)
  deriving DecidableEq, Repr

namespace Subject

/-- The problem of a subject, if it has one, with the text that is cited for it. -/
def problem? (text : String) : Subject → Option Diagnostic
  | script s =>
    if Script.isBody s then none
    else some (match Script.forbiddenWord? s with
      | some word => .forbiddenWord word text
      | none => .invalidExpression text)
  | binder role name =>
    if name = "" ∨ Script.isIdentifier name = true then none
    else some (.invalidIdentifier role name text)

/-- What is judged of an iteration: its source and its three names. What is missing is empty. -/
def ofIteration (iteration : Option Iteration) : List Subject :=
  [script ((iteration.map (·.source)).getD ""),
    binder .item ((iteration.map (·.item)).getD ""),
    binder .iterator ((iteration.bind (·.iterator1)).getD ""),
    binder .iterator ((iteration.bind (·.iterator2)).getD "")]

end Subject

namespace Attribute

/-- Whether an attribute is a directive whose value is not empty. -/
def isScripted (a : Attribute) : Bool := isDirective a.name && a.value.getD "" != ""

/-- What is judged of such an attribute, in order. The iteration is that of the element. -/
def subjects (iteration : Option Iteration) (a : Attribute) : List Subject :=
  if a.name = "v-for" then Subject.ofIteration iteration
  else [Subject.script (a.value.getD "")]

def ownDiagnostics (iteration : Option Iteration) (a : Attribute) : List Diagnostic :=
  (a.subjects iteration).filterMap
    (Subject.problem? (a.name ++ "=\"" ++ a.value.getD "" ++ "\""))

end Attribute

def Node.ownDiagnostics : Node → List Diagnostic
  | .element e _ =>
    (e.attributes.filter Attribute.isScripted).flatMap (Attribute.ownDiagnostics e.iteration)
  | .interpolation expression run => ((Subject.script expression).problem? run).toList
  | .text _ => []

/-! ## One attribute -/

namespace Diagnostic

theorem ofScript_eq_problem (script text : String) :
    ofScript script text = ((Subject.script script).problem? text).toList := by
  unfold ofScript Subject.problem?
  dsimp only
  split
  · rfl
  · cases Script.forbiddenWord? script <;> rfl

theorem ofName_eq_problem (role : NameRole) (name text : String) :
    ofName role name text = ((Subject.binder role name).problem? text).toList := by
  have hempty : (name.isEmpty || Script.isIdentifier name) = true ↔
      name = "" ∨ Script.isIdentifier name = true := by simp
  unfold ofName Subject.problem?
  dsimp only
  by_cases h : name = "" ∨ Script.isIdentifier name = true
  · rw [if_pos (hempty.2 h), if_pos h]
    rfl
  · rw [if_neg (mt hempty.1 h), if_neg h]
    rfl

/-- Without an iteration there is nothing to report, as if all that is judged of it were empty: the
empty script is a function body. -/
theorem ofIteration_eq_problems (iteration : Option Iteration) (text : String) :
    ofIteration iteration text =
      (Subject.ofIteration iteration).filterMap (Subject.problem? text) := by
  cases iteration with
  | none =>
    have hbody : Script.isBody "" = true := by decide +kernel
    simp [ofIteration, Subject.ofIteration, Subject.problem?, hbody]
  | some i =>
    rw [List.filterMap_eq_flatMap_toList]
    simp [ofIteration, ofScript_eq_problem, ofName_eq_problem, Subject.ofIteration]

theorem ofAttribute_eq_ownDiagnostics (e : Element) (a : Attribute) :
    ofAttribute e a = if a.isScripted then a.ownDiagnostics e.iteration else [] := by
  unfold ofAttribute Attribute.script? Attribute.isScripted
  by_cases hdirective : isDirective a.name = true
  · rw [if_pos hdirective, hdirective, Bool.true_and]
    cases hvalue : a.value with
    | none => rfl
    | some value =>
      by_cases hempty : value = ""
      · subst hempty
        rfl
      · have hkept : Option.filter (fun v => !v.isEmpty) (some value) = some value := by
          simpa using hempty
        rw [hkept, if_pos (by simpa using hempty)]
        unfold Attribute.ownDiagnostics Attribute.subjects
        rw [hvalue]
        dsimp only
        by_cases hname : a.name = "v-for"
        · rw [if_pos (show a.name = iterationName from hname), if_pos hname]
          exact ofIteration_eq_problems _ _
        · rw [if_neg (show a.name ≠ iterationName from hname), if_neg hname, ofScript_eq_problem,
            List.filterMap_eq_flatMap_toList, List.flatMap_singleton]
          rfl
  · simp [hdirective]

end Diagnostic

theorem Attribute.length_ownDiagnostics_le (iteration : Option Iteration) (a : Attribute) :
    (a.ownDiagnostics iteration).length ≤ if a.name = "v-for" then 4 else 1 := by
  have hsubjects : (a.subjects iteration).length = if a.name = "v-for" then 4 else 1 := by
    unfold Attribute.subjects
    split <;> rfl
  exact hsubjects ▸ List.length_filterMap_le _ _

theorem Node.ownDiagnostics_element (e : Element) (children : List Node) :
    (Node.element e children).ownDiagnostics = e.attributes.flatMap (Diagnostic.ofAttribute e) := by
  rw [Node.ownDiagnostics]
  induction e.attributes with
  | nil => rfl
  | cons a as ih =>
    rw [List.flatMap_cons, ← ih, Diagnostic.ofAttribute_eq_ownDiagnostics]
    cases h : a.isScripted <;> simp [h]

/-! ## The nodes in order -/

namespace Diagnostic

theorem ofForest_eq_flatMap (ns : List Node) : ofForest ns = ns.flatMap ofNode := by
  induction ns with
  | nil => rfl
  | cons n ns ih => rw [ofForest, ih, List.flatMap_cons]

theorem ofForest_append (ns ms : List Node) :
    ofForest (ns ++ ms) = ofForest ns ++ ofForest ms := by
  simp only [ofForest_eq_flatMap, List.flatMap_append]

theorem ofNode_element (e : Element) (children : List Node) :
    ofNode (.element e children) =
      (Node.element e children).ownDiagnostics ++ ofForest children := by
  rw [ofNode, Node.ownDiagnostics_element]

mutual

theorem ofNode_eq_flatMap_preorder (n : Node) :
    ofNode n = n.preorder.flatMap Node.ownDiagnostics := by
  cases n with
  | element e children =>
    rw [ofNode_element, ofForest_eq_flatMap_preorder, Node.preorder, List.flatMap_cons]
  | interpolation expression text =>
    rw [ofNode, ofScript_eq_problem, Node.preorder, List.flatMap_singleton, Node.ownDiagnostics]
    all_goals simp
  | text text =>
    simp [ofNode, Node.preorder, Node.ownDiagnostics]

theorem ofForest_eq_flatMap_preorder (ns : List Node) :
    ofForest ns = (Node.preorderAll ns).flatMap Node.ownDiagnostics := by
  cases ns with
  | nil => rfl
  | cons n ns =>
    rw [ofForest, ofNode_eq_flatMap_preorder, ofForest_eq_flatMap_preorder, Node.preorderAll,
      List.flatMap_append]

end

end Diagnostic

/-! ## What may be left out -/

/-- Attributes, and what is left of them when some that are not judged are left out. -/
inductive ThinnedAttributes : List Attribute → List Attribute → Prop where
  | nil : ThinnedAttributes [] []
  | keep (a : Attribute) {as bs : List Attribute} :
    ThinnedAttributes as bs → ThinnedAttributes (a :: as) (a :: bs)
  | drop {a : Attribute} {as bs : List Attribute} :
    a.isScripted = false → ThinnedAttributes as bs → ThinnedAttributes (a :: as) bs

/-- A forest, and what is left of it when texts and attributes that are not judged are left out,
at any depth. -/
inductive Thinned : List Node → List Node → Prop where
  | nil : Thinned [] []
  | element {e : Element} {as : List Attribute} {children children' ns ms : List Node} :
    ThinnedAttributes e.attributes as → Thinned children children' → Thinned ns ms →
      Thinned (.element e children :: ns) (.element { e with attributes := as } children' :: ms)
  | interpolation (expression text : String) {ns ms : List Node} :
    Thinned ns ms → Thinned (.interpolation expression text :: ns)
      (.interpolation expression text :: ms)
  | keepText (text : String) {ns ms : List Node} :
    Thinned ns ms → Thinned (.text text :: ns) (.text text :: ms)
  | dropText (text : String) {ns ms : List Node} : Thinned ns ms → Thinned (.text text :: ns) ms

theorem ThinnedAttributes.filter_eq {as bs : List Attribute} (h : ThinnedAttributes as bs) :
    bs.filter Attribute.isScripted = as.filter Attribute.isScripted := by
  induction h with
  | nil => rfl
  | keep a _ ih => rw [List.filter_cons, List.filter_cons, ih]
  | drop hidle _ ih => rw [List.filter_cons_of_neg (by simp [hidle]), ih]

theorem Thinned.ofForest_eq {ns ms : List Node} (h : Thinned ns ms) :
    Diagnostic.ofForest ms = Diagnostic.ofForest ns := by
  induction h with
  | nil => rfl
  | element hattributes _ _ ihchildren ih =>
    rw [Diagnostic.ofForest, Diagnostic.ofForest, Diagnostic.ofNode_element,
      Diagnostic.ofNode_element, Node.ownDiagnostics, Node.ownDiagnostics, hattributes.filter_eq,
      ihchildren, ih]
  | interpolation expression text _ ih => rw [Diagnostic.ofForest, Diagnostic.ofForest, ih]
  | keepText text _ ih => rw [Diagnostic.ofForest, Diagnostic.ofForest, ih]
  | dropText text _ ih => rw [Diagnostic.ofForest, ih, Diagnostic.ofNode, List.nil_append]

/-! ## One place of a forest -/

/-- A forest with one place left open: between two forests, or below an element that stands between
two forests. -/
inductive Context where
  | here (left right : List Node)
  | inside (left : List Node) (e : Element) (inner : Context) (right : List Node)

namespace Context

def fill : Context → List Node → List Node
  | here left right, hole => left ++ hole ++ right
  | inside left e inner right, hole => left ++ .element e (inner.fill hole) :: right

def front : Context → List Diagnostic
  | here left _ => Diagnostic.ofForest left
  | inside left e inner _ =>
    Diagnostic.ofForest left ++ (Node.element e []).ownDiagnostics ++ inner.front

def back : Context → List Diagnostic
  | here _ right => Diagnostic.ofForest right
  | inside _ _ inner right => inner.back ++ Diagnostic.ofForest right

theorem ofForest_fill (c : Context) (hole : List Node) :
    Diagnostic.ofForest (c.fill hole) = c.front ++ Diagnostic.ofForest hole ++ c.back := by
  induction c with
  | here left right => simp only [fill, front, back, Diagnostic.ofForest_append]
  | inside left e inner right ih =>
    simp only [fill, front, back, Diagnostic.ofForest_append, Diagnostic.ofForest,
      Diagnostic.ofNode_element, Node.ownDiagnostics, ih, List.append_assoc]

theorem exists_fill_cons {n : Node} {ns : List Node} (m : Node)
    (h : ∃ c : Context, c.fill [n] = ns) : ∃ c : Context, c.fill [n] = m :: ns := by
  obtain ⟨c, rfl⟩ := h
  cases c with
  | here left right => exact ⟨here (m :: left) right, rfl⟩
  | inside left e inner right => exact ⟨inside (m :: left) e inner right, rfl⟩

mutual

theorem exists_fill_node {n m : Node} {ns : List Node} (h : n ∈ m.preorder) :
    ∃ c : Context, c.fill [n] = m :: ns := by
  cases m with
  | element e children =>
    rw [Node.preorder, List.mem_cons] at h
    rcases h with rfl | hbelow
    · exact ⟨here [] ns, rfl⟩
    · obtain ⟨inner, hinner⟩ := exists_fill hbelow
      exact ⟨inside [] e inner ns, by rw [fill, hinner, List.nil_append]⟩
  | interpolation expression text =>
    cases List.mem_singleton.1 h
    exact ⟨here [] ns, rfl⟩
  | text text =>
    cases List.mem_singleton.1 h
    exact ⟨here [] ns, rfl⟩

theorem exists_fill {n : Node} {ns : List Node} (h : n ∈ Node.preorderAll ns) :
    ∃ c : Context, c.fill [n] = ns := by
  cases ns with
  | nil => cases h
  | cons m ns =>
    rw [Node.preorderAll, List.mem_append] at h
    rcases h with hnode | hrest
    · exact exists_fill_node hnode
    · exact exists_fill_cons m (exists_fill hrest)

end

end Context

/-! ## Templates -/

theorem Template.diagnostics_ofForest (ns : List Node) :
    (Template.ofForest ns).diagnostics = ns.flatMap Diagnostic.ofNode :=
  Diagnostic.ofForest_eq_flatMap ns

theorem Template.diagnostics_of_compile {source : String} {t : Template}
    (h : compile source = .ok t) : t.diagnostics = t.roots.flatMap Diagnostic.ofNode := by
  obtain ⟨forest, -, rfl⟩ := compile_eq_ok_iff.1 h
  exact diagnostics_ofForest forest

/-- The problems of a tree are those of its nodes in the order of the document. An attribute has at
most one problem, or four if it is an iteration, an interpolation has at most one and a text none.
The problems of a template are those of its roots in order, they stay when texts and attributes that
are not judged are left out, and each tree in it has its problems in one piece, whatever the tree
is. -/
theorem Diagnostic.document_order :
    (∀ n, ofNode n = n.preorder.flatMap Node.ownDiagnostics) ∧
      (∀ iteration (a : Attribute),
        (a.ownDiagnostics iteration).length ≤ if a.name = "v-for" then 4 else 1) ∧
      (∀ expression text, (Node.interpolation expression text).ownDiagnostics.length ≤ 1) ∧
      (∀ text, (Node.text text).ownDiagnostics = []) ∧
      (∀ ns, (Template.ofForest ns).diagnostics = ns.flatMap ofNode) ∧
      (∀ source t, Template.compile source = .ok t →
        t.diagnostics.map message = t.roots.flatMap fun n => (ofNode n).map message) ∧
      (∀ ns ms, Thinned ns ms → ofForest ms = ofForest ns) ∧
      (∀ ns, ∀ n ∈ Node.preorderAll ns, ∃ c : Context, c.fill [n] = ns) ∧
      ∀ (c : Context) hole, ofForest (c.fill hole) = c.front ++ ofForest hole ++ c.back := by
  refine ⟨ofNode_eq_flatMap_preorder, fun iteration a => a.length_ownDiagnostics_le iteration,
    fun expression text => Option.length_toList_le, fun text => rfl,
    Template.diagnostics_ofForest, fun source t h => ?_, fun ns ms h => h.ofForest_eq,
    fun ns n h => Context.exists_fill h, Context.ofForest_fill⟩
  rw [Template.diagnostics_of_compile h, List.map_flatMap]

theorem Diagnostic.document_order_paragraph :
    ofForest [.element { tag := "p", attributes := [⟨"v-if", some "a b"⟩] }
        [.interpolation "new" "\x7b\x7bnew\x7d\x7d"]] =
      [.invalidExpression "v-if=\"a b\"", .forbiddenWord "new" "\x7b\x7bnew\x7d\x7d"] := by
  obtain ⟨-, -, -, -, -, -, hthinned, -, -⟩ := document_order
  rw [hthinned [.text "x", .element { tag := "p", attributes := [⟨"@click", none⟩,
    ⟨"v-if", some "a b"⟩] } [.interpolation "new" "\x7b\x7bnew\x7d\x7d"]] _
    (.dropText "x" (.element (.drop (by decide) (.keep _ .nil)) (.interpolation _ _ .nil) .nil))]
  decide +kernel

end EventMarkup
