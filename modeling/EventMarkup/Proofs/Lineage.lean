import EventMarkup.Proofs.Elements

/-!
# Lineage

The lineage of a forest lists its nodes in the order of the document, each without its children but
with the place of its parent in the list. It tells the forest (`lineage_injective`). A `Record` is
kept while a template is read: every step that introduces a node writes it down behind the others,
below the innermost open element, and a closing tag only changes what is open. For every template
the lineage of the forest is what was written down (`lineage_of_readForest`), however its tags are
nested, left open or closed in the wrong order.

An element gets its place in the forest only when it ends. The proof therefore follows the forest
that a draft would give if it ended now: ending an element does not change it, and a node that is
added comes last in its lineage (`lineage_finish_add`).
-/

namespace EventMarkup

open Markup

/-- A node without its children, and the place of its parent among all nodes, if it has one. -/
structure Entry where
  node : Node
  parent : Option Nat

namespace Node

def bare : Node → Node
  | .element e _ => .element e []
  | n => n

mutual

/-- The entries of a tree whose root stands at `place` below `parent`. -/
def entries (place : Nat) (parent : Option Nat) : Node → List Entry
  | .element e children =>
    ⟨.element e [], parent⟩ :: entriesAll (place + 1) (some place) children
  | n => [⟨n, parent⟩]

def entriesAll (place : Nat) (parent : Option Nat) : List Node → List Entry
  | [] => []
  | n :: ns => entries place parent n ++ entriesAll (place + (preorder n).length) parent ns

end

mutual

theorem map_node_entries (n : Node) (place : Nat) (parent : Option Nat) :
    (n.entries place parent).map (·.node) = n.preorder.map bare := by
  cases n with
  | element e children => simp [entries, preorder, bare, map_node_entriesAll children]
  | interpolation expression text => rfl
  | text text => rfl

theorem map_node_entriesAll (ns : List Node) (place : Nat) (parent : Option Nat) :
    (entriesAll place parent ns).map (·.node) = (preorderAll ns).map bare := by
  cases ns with
  | nil => rfl
  | cons n ns => simp [entriesAll, preorderAll, map_node_entries n, map_node_entriesAll ns]

end

theorem length_entriesAll (ns : List Node) (place : Nat) (parent : Option Nat) :
    (entriesAll place parent ns).length = (preorderAll ns).length := by
  simpa using congrArg List.length (map_node_entriesAll ns place parent)

theorem entriesAll_append (ns ms : List Node) (place : Nat) (parent : Option Nat) :
    entriesAll place parent (ns ++ ms) =
      entriesAll place parent ns ++ entriesAll (place + (preorderAll ns).length) parent ms := by
  induction ns generalizing place with
  | nil => rfl
  | cons n ns ih =>
    simp only [List.cons_append, entriesAll, preorderAll, ih, List.length_append,
      List.append_assoc, Nat.add_assoc]

theorem entriesAll_singleton (n : Node) (place : Nat) (parent : Option Nat) :
    entriesAll place parent [n] = n.entries place parent := by
  rw [entriesAll, entriesAll, List.append_nil]

end Node

/-- The nodes of a forest in the order of the document, with their parents. -/
def lineage (forest : List Node) : List Entry := Node.entriesAll 0 none forest

/-! ## A lineage tells the forest -/

/-- Whether the parent of an entry stands at the place or behind it. -/
def Entry.isBelow (place : Nat) (en : Entry) : Bool := en.parent.any (place ≤ ·)

namespace Node

mutual

theorem isBelow_entries {bound place : Nat} {parent : Option Nat} (n : Node)
    (hplace : bound ≤ place) (hparent : parent.any (bound ≤ ·) = true) :
    ∀ en ∈ n.entries place parent, en.isBelow bound = true := by
  cases n with
  | element e children =>
    intro en hen
    rcases List.mem_cons.1 hen with rfl | hen
    · exact hparent
    · exact isBelow_entriesAll children (Nat.le_succ_of_le hplace) (by simpa using hplace) en hen
  | interpolation expression text => simpa [entries, Entry.isBelow] using hparent
  | text text => simpa [entries, Entry.isBelow] using hparent

theorem isBelow_entriesAll {bound place : Nat} {parent : Option Nat} (ns : List Node)
    (hplace : bound ≤ place) (hparent : parent.any (bound ≤ ·) = true) :
    ∀ en ∈ entriesAll place parent ns, en.isBelow bound = true := by
  cases ns with
  | nil => simp [entriesAll]
  | cons n ns =>
    intro en hen
    rcases List.mem_append.1 hen with hen | hen
    · exact isBelow_entries n hplace hparent en hen
    · exact isBelow_entriesAll ns (Nat.le_add_right_of_le hplace) hparent en hen

end

theorem takeWhile_isBelow_entriesAll (place : Nat) (children : List Node) {more : List Entry}
    (hmore : ∀ en ∈ more.head?, en.isBelow place = false) :
    (entriesAll (place + 1) (some place) children ++ more).takeWhile (Entry.isBelow place) =
      entriesAll (place + 1) (some place) children :=
  takeWhile_front (isBelow_entriesAll children (Nat.le_succ place) (by simp)) hmore

theorem head?_entriesAll {place bound : Nat} {parent : Option Nat} (ns : List Node)
    (hparent : parent.any (bound ≤ ·) = false) :
    ∀ en ∈ (entriesAll place parent ns).head?, en.isBelow bound = false := by
  match ns with
  | [] => simp [entriesAll]
  | .element _ _ :: _ | .interpolation _ _ :: _ | .text _ :: _ =>
    simpa [entriesAll, entries, Entry.isBelow] using hparent

mutual

theorem entries_append_injective {place : Nat} {parent : Option Nat} {more more' : List Entry}
    (n m : Node) (hmore : ∀ en ∈ more.head?, en.isBelow place = false)
    (hmore' : ∀ en ∈ more'.head?, en.isBelow place = false)
    (h : n.entries place parent ++ more = m.entries place parent ++ more') :
    n = m ∧ more = more' := by
  cases n with
  | element e children =>
    cases m with
    | element e' children' =>
      simp only [entries, List.cons_append, List.cons.injEq, Entry.mk.injEq, and_true,
        element.injEq] at h
      obtain ⟨rfl, h⟩ := h
      have hchildren := congrArg (List.takeWhile (Entry.isBelow place)) h
      rw [takeWhile_isBelow_entriesAll _ _ hmore, takeWhile_isBelow_entriesAll _ _ hmore']
        at hchildren
      rw [hchildren, List.append_cancel_left_eq] at h
      exact ⟨by rw [entriesAll_injective children children' (by simp) hchildren], h⟩
    | interpolation expression text => simp [entries] at h
    | text text => simp [entries] at h
  | interpolation expression text => cases m <;> simp_all [entries]
  | text text => cases m <;> simp_all [entries]

theorem entriesAll_injective {place : Nat} {parent : Option Nat} (ns ms : List Node)
    (hparent : parent.any (place ≤ ·) = false)
    (h : entriesAll place parent ns = entriesAll place parent ms) : ns = ms := by
  cases ns with
  | nil =>
    cases ms with
    | nil => rfl
    | cons m ms => cases m <;> simp [entriesAll, entries] at h
  | cons n ns =>
    cases ms with
    | nil => cases n <;> simp [entriesAll, entries] at h
    | cons m ms =>
      obtain ⟨rfl, h⟩ := entries_append_injective n m (head?_entriesAll ns hparent)
        (head?_entriesAll ms hparent) h
      have hparent' : parent.any (place + (preorder n).length ≤ ·) = false := by
        cases parent with
        | none => rfl
        | some k => simp at hparent ⊢; omega
      rw [entriesAll_injective ns ms hparent' h]

end

end Node

theorem lineage_injective {forest other : List Node} (h : lineage forest = lineage other) :
    forest = other := Node.entriesAll_injective forest other rfl h

/-! ## Writing down what the steps introduce -/

/-- What the steps of a template have introduced so far, and the places and tags of the elements
that are still open, innermost first. -/
structure Record where
  entries : List Entry
  opened : List (Nat × String)

namespace Record

def empty : Record := ⟨[], []⟩

/-- Writes down a node below the innermost open element. -/
def introduce (r : Record) (n : Node) : Record :=
  { r with entries := r.entries ++ [⟨n, r.opened.head?.map (·.1)⟩] }

def close (r : Record) (tag : String) : Record :=
  match r.opened.dropWhile (·.2 != tag) with
  | [] => r
  | _ :: outer => { r with opened := outer }

def step (r : Record) : Step → Record
  | .opens e =>
    { r.introduce (.element e []) with opened := (r.entries.length, e.tag) :: r.opened }
  | .empty e => r.introduce (.element e [])
  | .text n => r.introduce n
  | .blank => if r.opened.isEmpty then r else r.introduce (.text " ")
  | .closes tag => r.close tag

/-- What a sequence of steps introduces. -/
def ofSteps (steps : List Step) : Record := steps.foldl step empty

variable {r : Record} {tag : String}

theorem close_of_opened_eq {inner outer : List (Nat × String)} {place : Nat}
    (hopened : r.opened = inner ++ (place, tag) :: outer) (hinner : ∀ o ∈ inner, o.2 ≠ tag) :
    r.close tag = { r with opened := outer } := by
  have hdrop : r.opened.dropWhile (·.2 != tag) = (place, tag) :: outer := by
    rw [hopened]
    exact dropWhile_front (by simpa using hinner) (by simp)
  rw [close, hdrop]

theorem close_of_forall_ne (h : ∀ o ∈ r.opened, o.2 ≠ tag) : r.close tag = r := by
  have hdrop : r.opened.dropWhile (·.2 != tag) = [] := List.dropWhile_eq_nil_iff.2 (by simpa using h)
  rw [close, hdrop]

end Record

/-! ## The draft behind a record -/

namespace Markup

namespace Draft

theorem length_opened_add (d : Draft) (n : Node) : (d.add n).opened.length = d.opened.length := by
  unfold add
  split <;> simp_all

theorem finish_endInnermost (d : Draft) : d.endInnermost.finish = d.finish := by
  obtain ⟨roots, opened⟩ := d
  cases opened with
  | nil => rfl
  | cons f outer =>
    show (endMany (add ⟨roots, outer⟩ f.node).opened.length _).roots = _
    rw [length_opened_add]
    rfl

theorem finish_endMany (d : Draft) (n : Nat) : (d.endMany n).finish = d.finish := by
  induction n generalizing d with
  | zero => rfl
  | succ n ih => rw [endMany, ih, finish_endInnermost]

/-- The places and tags of the open elements, innermost first. An element takes its place behind
everything that comes before it. -/
def openings (roots : List Node) : List Frame → List (Nat × String)
  | [] => []
  | f :: outer =>
    ((Node.preorderAll (finish ⟨roots, outer⟩)).length, f.element.tag) :: openings roots outer

theorem map_snd_openings (roots : List Node) (frames : List Frame) :
    (openings roots frames).map (·.2) = frames.map (·.element.tag) := by
  induction frames with
  | nil => rfl
  | cons f outer ih => rw [openings, List.map_cons, ih, List.map_cons]

theorem openings_add (d : Draft) (n : Node) :
    openings (d.add n).roots (d.add n).opened = openings d.roots d.opened := by
  obtain ⟨roots, opened⟩ := d
  cases opened <;> rfl

theorem openings_endMany (d : Draft) (n : Nat) :
    openings (d.endMany n).roots (d.endMany n).opened = (openings d.roots d.opened).drop n := by
  induction n generalizing d with
  | zero => rfl
  | succ n ih =>
    rw [endMany, ih]
    obtain ⟨roots, opened⟩ := d
    cases opened with
    | nil => simp [endInnermost, openings]
    | cons f outer => exact congrArg (List.drop n) (openings_add ⟨roots, outer⟩ f.node)

/-- What is added comes last in the lineage, below the innermost open element. -/
theorem lineage_finish_add (d : Draft) (n : Node) :
    lineage (d.add n).finish = lineage d.finish ++
      n.entries (Node.preorderAll d.finish).length
        ((openings d.roots d.opened).head?.map (·.1)) := by
  obtain ⟨roots, opened⟩ := d
  induction opened generalizing n with
  | nil =>
    show lineage (roots ++ [n]) = _
    rw [lineage, Node.entriesAll_append, Node.entriesAll_singleton, Nat.zero_add]
    rfl
  | cons f outer ih =>
    -- The element of the innermost frame is a node that is added to the frames around it.
    have hend : ∀ children, finish ⟨roots, ⟨f.element, children⟩ :: outer⟩ =
        (add ⟨roots, outer⟩ (.element f.element children)).finish :=
      fun children => (finish_endInnermost ⟨roots, ⟨f.element, children⟩ :: outer⟩).symm
    have hsize : (Node.preorderAll (add ⟨roots, outer⟩ f.node).finish).length =
        (Node.preorderAll (finish ⟨roots, outer⟩)).length + 1 +
          (Node.preorderAll f.children).length := by
      rw [← Node.length_entriesAll _ 0 none]
      show (lineage _).length = _
      rw [ih, Frame.node, Node.entries, List.length_append, List.length_cons, lineage,
        Node.length_entriesAll, Node.length_entriesAll]
      omega
    show lineage (finish ⟨roots, ⟨f.element, f.children ++ [n]⟩ :: outer⟩) =
      lineage (finish ⟨roots, ⟨f.element, f.children⟩ :: outer⟩) ++
        n.entries (Node.preorderAll (finish ⟨roots, ⟨f.element, f.children⟩ :: outer⟩)).length
          (some (Node.preorderAll (finish ⟨roots, outer⟩)).length)
    rw [hend, hend, ih, ih, ← Frame.node, hsize]
    simp [Node.entries, Node.entriesAll_append, Node.entriesAll_singleton, Frame.node]

end Draft

end Markup

/-! ## Records of drafts -/

/-- The record holds what the draft would give if it ended now. -/
structure Record.Tracks (r : Record) (d : Draft) : Prop where
  entries : r.entries = lineage d.finish
  opened : r.opened = Draft.openings d.roots d.opened

namespace Record.Tracks

variable {r : Record} {d : Draft}

theorem introduce (h : r.Tracks d) {n : Node}
    (hn : ∀ place parent, n.entries place parent = [⟨n, parent⟩]) :
    (r.introduce n).Tracks (d.add n) where
  entries := by
    rw [Draft.lineage_finish_add, hn, ← h.opened, ← h.entries]
    rfl
  opened := h.opened.trans (Draft.openings_add d n).symm

theorem opens (h : r.Tracks d) (e : Element) :
    (r.step (.opens e)).Tracks (d.step (.opens e)) where
  entries := by
    have hfinish : (d.step (.opens e)).finish = (d.add (.element e [])).finish :=
      (Draft.finish_endInnermost (d.step (.opens e))).symm
    rw [hfinish]
    exact (h.introduce (n := .element e []) fun _ _ => rfl).entries
  opened := by
    show (r.entries.length, e.tag) :: r.opened = _
    rw [h.opened, h.entries, lineage, Node.length_entriesAll]
    rfl

theorem closes (h : r.Tracks d) (tag : String) : (r.close tag).Tracks (d.close tag) := by
  have hfind : d.opened.findIdx? (·.element.tag == tag) = r.opened.findIdx? (·.2 == tag) := by
    have htags := congrArg (List.findIdx? (· == tag)) (Draft.map_snd_openings d.roots d.opened)
    rw [← h.opened] at htags
    simpa [List.findIdx?_map, Function.comp_def] using htags.symm
  unfold Draft.close
  rw [hfind]
  cases hdepth : r.opened.findIdx? (·.2 == tag) with
  | none =>
    rw [Record.close_of_forall_ne (by simpa [List.findIdx?_eq_none_iff] using hdepth)]
    exact h
  | some depth =>
    obtain ⟨hlt, htag, hinner⟩ := List.findIdx?_eq_some_iff_getElem.1 hdepth
    have hopened : r.opened =
        r.opened.take depth ++ (r.opened[depth].1, tag) :: r.opened.drop (depth + 1) := by
      rw [← eq_of_beq htag]
      exact (List.take_append_drop depth _).symm.trans
        (congrArg _ (List.drop_eq_getElem_cons hlt))
    have hne : ∀ o ∈ r.opened.take depth, o.2 ≠ tag := by
      intro o ho
      obtain ⟨j, hj, rfl⟩ := List.getElem_of_mem ho
      rw [List.length_take] at hj
      rw [List.getElem_take]
      simpa using hinner j (by omega)
    rw [Record.close_of_opened_eq hopened hne]
    exact ⟨h.entries.trans (congrArg lineage (d.finish_endMany _).symm),
      (congrArg _ h.opened).trans (d.openings_endMany _).symm⟩

/-- One step keeps the record in line with the draft. -/
theorem step (h : r.Tracks d) {s : Step} (hs : ∀ n, s = .text n → n.isRun = true) :
    (r.step s).Tracks (d.step s) := by
  cases s with
  | opens e => exact h.opens e
  | empty e => exact h.introduce fun _ _ => rfl
  | text n =>
    refine h.introduce fun place parent => ?_
    have hrun := hs n rfl
    cases n with
    | element e children => cases hrun
    | interpolation expression text => rfl
    | text text => rfl
  | blank =>
    have hopened : r.opened.isEmpty = d.opened.isEmpty := by
      rw [h.opened]
      cases d.opened <;> rfl
    show Record.Tracks (if r.opened.isEmpty then r else r.introduce (.text " "))
      (if d.opened.isEmpty then d else d.add (.text " "))
    rw [hopened]
    split
    · exact h
    · exact h.introduce fun _ _ => rfl
  | closes tag => exact h.closes tag

end Record.Tracks

theorem lineage_forestOf {steps : List Step}
    (h : ∀ n, Step.text n ∈ steps → n.isRun = true) :
    lineage (forestOf steps) = (Record.ofSteps steps).entries := by
  have hrun : ∀ (r : Record) (d : Draft), r.Tracks d →
      (steps.foldl Record.step r).Tracks (steps.foldl Draft.step d) := by
    induction steps with
    | nil => exact fun r d htracks => htracks
    | cons s steps ih =>
      intro r d htracks
      refine ih (fun n hn => h n (List.mem_cons_of_mem _ hn)) _ _ (htracks.step ?_)
      rintro n rfl
      exact h n List.mem_cons_self
  exact (hrun .empty .empty ⟨rfl, rfl⟩).entries.symm

/-! ## The lineage of a template -/

namespace Markup

theorem isRun_of_readStep {s rest : List Char} {n : Node}
    (h : readStep s = .ok (some (.text n), rest)) : n.isRun = true := by
  obtain ⟨run, hrun⟩ := exists_stepOfRun_of_readStep h
  unfold stepOfRun at hrun
  split at hrun
  · cases hrun
  · dsimp only at hrun
    split at hrun <;> cases hrun <;> rfl

end Markup

/-- The nodes of a template stand in the order in which its steps introduce them, each once, and
the parent of each is the innermost element that was open then. No other forest has its nodes in
this order below these parents. -/
theorem lineage_of_readForest {source : String} {forest : List Node}
    (h : readForest source = .ok forest) :
    ∃ steps, Step.read source.toList = .ok steps ∧
      lineage forest = (Record.ofSteps steps).entries ∧
      (Node.preorderAll forest).map Node.bare = (Record.ofSteps steps).entries.map (·.node) ∧
      ∀ other, lineage other = (Record.ofSteps steps).entries → other = forest := by
  unfold readForest at h
  dsimp only at h
  split at h
  · rename_i steps hread
    cases h
    have htext : ∀ n, Step.text n ∈ steps → n.isRun = true := fun n hn =>
      forall_of_read (P := fun step => ∀ n, step = .text n → n.isRun = true)
        (fun s step rest hstep n hn => isRun_of_readStep (hn ▸ hstep)) hread _ hn n rfl
    have hlineage := lineage_forestOf htext
    refine ⟨steps, hread, hlineage, ?_, fun other hother => ?_⟩
    · rw [← hlineage, lineage, Node.map_node_entriesAll]
    · exact lineage_injective (hother.trans hlineage.symm)
  · cases h

theorem lineage_of_readForest_misnested :
    ∃ forest, readForest "<ul><li>a<b>c</ul>d</i><li>e<br>" = .ok forest ∧
      (lineage forest).map (fun en => (en.node.element?.map (·.tag), en.parent)) =
        [(some "ul", none), (some "li", some 0), (none, some 1), (some "b", some 1),
          (none, some 3), (none, none), (some "li", none), (none, some 6), (some "br", some 6)] := by
  have hrecord : (Step.read "<ul><li>a<b>c</ul>d</i><li>e<br>".toList).toOption.map
      (fun steps => (Record.ofSteps steps).entries.map fun en =>
        (en.node.element?.map (·.tag), en.parent)) =
      some [(some "ul", none), (some "li", some 0), (none, some 1), (some "b", some 1),
        (none, some 3), (none, none), (some "li", none), (none, some 6), (some "br", some 6)] := by
    decide +kernel
  cases hforest : readForest "<ul><li>a<b>c</ul>d</i><li>e<br>" with
  | error _ =>
    have hok : (readForest "<ul><li>a<b>c</ul>d</i><li>e<br>").isOk = true := by decide +kernel
    rw [hforest] at hok
    cases hok
  | ok forest =>
    obtain ⟨steps, hread, hlineage, -, -⟩ := lineage_of_readForest hforest
    rw [hread] at hrecord
    exact ⟨forest, rfl, hlineage ▸ Option.some.inj hrecord⟩

end EventMarkup
