import EventMarkup.Proofs.Bindings
import EventMarkup.Template

/-!
# Listeners are judged

The listeners of an element and the problems of its scripts are found in two independent passes
over its attributes. Every listener comes from an attribute that binds its event (`Binds`), and
every such attribute is a directive; so the script of the listener is judged wherever the element
stands in the tree. `cited_of_compile` is the main statement: no script that is no function body
gets into an event table unnoticed.
-/

namespace EventMarkup

open Text

/-! ## Problems of an element -/

mutual

theorem Diagnostic.mem_ofNode {n : Node} {e : Element} (he : e ∈ elementsOf [n])
    {a : Attribute} (ha : a ∈ e.attributes) {d : Diagnostic} (hd : d ∈ ofAttribute e a) :
    d ∈ ofNode n := by
  cases n with
  | element f children =>
    rw [elementsOf_element, elementsOf_nil, List.append_nil, List.mem_cons] at he
    rw [ofNode, List.mem_append]
    rcases he with rfl | he
    · exact .inl (List.mem_flatMap.2 ⟨a, ha, hd⟩)
    · exact .inr (mem_ofForest he ha hd)
  | interpolation expression text => simp at he
  | text text => simp at he

theorem Diagnostic.mem_ofForest {ns : List Node} {e : Element} (he : e ∈ elementsOf ns)
    {a : Attribute} (ha : a ∈ e.attributes) {d : Diagnostic} (hd : d ∈ ofAttribute e a) :
    d ∈ ofForest ns := by
  cases ns with
  | nil => simp at he
  | cons n ns =>
    rw [← List.singleton_append, elementsOf_append, List.mem_append] at he
    rw [ofForest, List.mem_append]
    rcases he with he | he
    · exact .inl (mem_ofNode he ha hd)
    · exact .inr (mem_ofForest he ha hd)

end

/-- The message says of the script in `name="script"` that it is no function body, for the sake of a
forbidden word in it if there is one. -/
def Rejection (name script message : String) : Prop :=
  (∃ word, Script.forbiddenWord? script = some word ∧
    message = "- avoid using JavaScript keyword as property name: \"" ++ word ++
      "\" in expression " ++ (name ++ "=\"" ++ script ++ "\"")) ∨
  Script.forbiddenWord? script = none ∧
    message = "- invalid expression: " ++ (name ++ "=\"" ++ script ++ "\"")

theorem Diagnostic.exists_rejection {script : String} (h : Script.isBody script = false)
    (name : String) :
    ∃ d ∈ ofScript script (citation name script), Rejection name script d.message := by
  unfold ofScript
  rw [h, if_neg Bool.false_ne_true]
  split
  · rename_i word hword
    exact ⟨_, List.mem_singleton_self _, .inl ⟨word, hword, rfl⟩⟩
  · rename_i hword
    exact ⟨_, List.mem_singleton_self _, .inr ⟨hword, rfl⟩⟩

/-! ## Where listeners come from -/

/-- The attribute binds the event, on the given side, and the listener is what it asks for. -/
def Attribute.Binds (a : Attribute) (native : Bool) (event : String) (l : Listener) : Prop :=
  ∃ name value, a.binding? = some (name, value) ∧ filedNative name = native ∧
    filedEvent name = event ∧ filedListener name value = l

theorem Element.IsWritten.exists_binds {e : Element} (h : e.IsWritten) {native : Bool}
    {event : String} {handler : Handler} (hentry : (event, handler) ∈ (e.table native).entries)
    {l : Listener} (hl : l ∈ handler.listeners) : ∃ a ∈ e.attributes, a.Binds native event l := by
  rw [h.entries_table, grouped, List.mem_map] at hentry
  obtain ⟨event', -, heq⟩ := hentry
  obtain ⟨rfl, rfl⟩ := Prod.mk.inj heq
  rw [Handler.listeners_ofListeners] at hl
  obtain ⟨⟨event'', l'⟩, hmem, rfl⟩ := List.mem_map.1 hl
  obtain ⟨hfiled, hevent⟩ := List.mem_filter.1 hmem
  obtain ⟨⟨name, value⟩, hcall, heq⟩ := List.mem_map.1 hfiled
  obtain ⟨hcall, hside⟩ := List.mem_filter.1 hcall
  obtain ⟨a, ha, hbinding⟩ := List.mem_filterMap.1 hcall
  obtain ⟨rfl, rfl⟩ := Prod.mk.inj heq
  exact ⟨a, ha, name, value, hbinding, beq_iff_eq.1 hside, beq_iff_eq.1 hevent, rfl⟩

theorem Attribute.Binds.ofAttribute_eq {a : Attribute} {native : Bool} {event : String}
    {l : Listener} (h : a.Binds native event l) (hvalue : l.value ≠ "") (e : Element) :
    Diagnostic.ofAttribute e a =
      Diagnostic.ofScript l.value (Diagnostic.citation a.name l.value) := by
  obtain ⟨name, value, hbinding, -, -, rfl⟩ := h
  obtain ⟨hkind, -, rfl⟩ := binding?_eq_some_iff.1 hbinding
  have hdirective : isDirective a.name = true := by
    rw [← Bool.not_eq_false, ← kind_eq_static_iff, hkind]
    simp
  have hiteration : a.name ≠ iterationName := fun hname => kind_ne_on_of_name_eq hname hkind
  have hscript : a.script? = some (a.value.getD "") := by
    have hvalue : a.value.getD "" ≠ "" := hvalue
    rw [Attribute.script?, if_pos hdirective]
    cases hv : a.value with
    | none => simp [hv] at hvalue
    | some v =>
      rw [hv] at hvalue
      simpa using hvalue
  unfold Diagnostic.ofAttribute
  rw [hscript]
  dsimp only
  rw [if_neg hiteration]
  rfl

/-- A listener whose script is neither empty nor a function body is rejected wherever its element
stands. -/
theorem Attribute.Binds.exists_rejection {a : Attribute} {native : Bool} {event : String}
    {l : Listener} (h : a.Binds native event l) (hvalue : l.value ≠ "")
    (hbody : Script.isBody l.value = false) {ns : List Node} {e : Element}
    (he : e ∈ elementsOf ns) (ha : a ∈ e.attributes) :
    ∃ d ∈ Diagnostic.ofForest ns, Rejection a.name l.value d.message := by
  obtain ⟨d, hd, hrejects⟩ := Diagnostic.exists_rejection hbody a.name
  rw [← h.ofAttribute_eq hvalue e] at hd
  exact ⟨d, Diagnostic.mem_ofForest he ha hd, hrejects⟩

theorem Element.IsWritten.isBody_of_ofForest_eq_nil {ns : List Node} {e : Element}
    (h : e.IsWritten) (he : e ∈ elementsOf ns) (hnone : Diagnostic.ofForest ns = [])
    {native : Bool} {event : String} {handler : Handler}
    (hentry : (event, handler) ∈ (e.table native).entries) {l : Listener}
    (hl : l ∈ handler.listeners) : l.value = "" ∨ Script.isBody l.value = true := by
  by_contra hbad
  rw [not_or, Bool.not_eq_true] at hbad
  obtain ⟨a, ha, hbinds⟩ := h.exists_binds hentry hl
  obtain ⟨d, hd, -⟩ := hbinds.exists_rejection hbad.1 hbad.2 he ha
  rw [hnone] at hd
  cases hd

/-! ## Templates -/

/-- A listener of a template whose script is neither empty nor a function body comes from an
attribute, and among the reports of the template there is one that rejects the script and cites the
attribute. Where nothing is reported, the scripts of all listeners are empty or function bodies. -/
theorem cited_of_compile {source : String} {t : Template} (h : Template.compile source = .ok t) :
    (∀ e ∈ elementsOf t.roots, ∀ native event handler,
        (event, handler) ∈ (e.table native).entries → ∀ l ∈ handler.listeners,
          l.value ≠ "" → Script.isBody l.value = false →
            (∃ a ∈ e.attributes, a.Binds native event l) ∧
            ∀ a ∈ e.attributes, a.Binds native event l →
              ∃ message ∈ t.errors, Rejection a.name l.value message) ∧
      (t.errors = [] →
        ∀ e ∈ elementsOf t.roots, ∀ native event handler,
          (event, handler) ∈ (e.table native).entries → ∀ l ∈ handler.listeners,
            l.value = "" ∨ Script.isBody l.value = true) := by
  obtain ⟨forest, hread, rfl⟩ := Template.compile_eq_ok_iff.1 h
  have hwritten := isWritten_of_readForest hread
  refine ⟨fun e he native event handler hentry l hl hvalue hbody => ?_,
    fun hnone e he native event handler hentry l hl =>
      (hwritten e he).isBody_of_ofForest_eq_nil he (List.map_eq_nil_iff.1 hnone) hentry hl⟩
  refine ⟨(hwritten e he).exists_binds hentry hl, fun a ha hbinds => ?_⟩
  obtain ⟨d, hd, hrejects⟩ := hbinds.exists_rejection hvalue hbody he ha
  exact ⟨d.message, List.mem_map_of_mem hd, hrejects⟩

theorem cited_of_compile_click :
    ∃ t, Template.compile "<p><a @click.stop=\"a b\"></a></p>" = .ok t ∧
      "- invalid expression: @click.stop=\"a b\"" ∈ t.errors := by
  have helements : (Template.compile "<p><a @click.stop=\"a b\"></a></p>").toOption.map
      (fun t => (elementsOf t.roots).map fun e => (e.attributes, e.events.entries)) =
      some [([], []), ([⟨"@click.stop", some "a b"⟩],
        [("click", .single ⟨"a b", some (keptModifiers ["stop"])⟩)])] := by decide +kernel
  cases hcompile : Template.compile "<p><a @click.stop=\"a b\"></a></p>" with
  | error _ =>
    rw [hcompile] at helements
    cases helements
  | ok t =>
    rw [hcompile] at helements
    obtain ⟨e, he, heq⟩ : ∃ e ∈ elementsOf t.roots, (e.attributes, e.events.entries) =
        ([⟨"@click.stop", some "a b"⟩],
          [("click", .single ⟨"a b", some (keptModifiers ["stop"])⟩)]) := by
      have hlist : (elementsOf t.roots).map (fun e => (e.attributes, e.events.entries)) = _ :=
        Option.some.inj helements
      refine List.mem_map.1 ?_
      rw [hlist]
      exact List.mem_cons_of_mem _ (List.mem_singleton_self _)
    obtain ⟨hattributes, hentries⟩ := Prod.mk.inj heq
    have hentry : ("click", Handler.single ⟨"a b", some (keptModifiers ["stop"])⟩) ∈
        (e.table false).entries := hentries ▸ List.mem_singleton_self _
    obtain ⟨-, hall⟩ := (cited_of_compile hcompile).1 e he false "click" _ hentry _
      (List.mem_singleton_self _) (by decide) (by decide +kernel)
    obtain ⟨message, hmem, ⟨word, hword, -⟩ | ⟨-, rfl⟩⟩ :=
      hall ⟨"@click.stop", some "a b"⟩ (hattributes ▸ List.mem_singleton_self _)
        ⟨"click.stop", "a b", by decide +kernel, by decide +kernel, by decide +kernel,
          by decide +kernel⟩
    · have hnone : Script.forbiddenWord? "a b" = none := by decide +kernel
      cases hnone.symm.trans hword
    · exact ⟨t, rfl, hmem⟩

/-- A script is judged by itself and not together with the code around it: a comment at the end of a
script takes in what closes the function that is made of it. -/
theorem exists_unbalanced_fragment :
    ¬ ∀ source t, Template.compile source = .ok t → t.diagnostics = [] →
      ∀ f ∈ t.fragments, Script.isBody ("\x7b" ++ f.code ++ "\x7d") = true := by
  intro h
  have hparts : (Template.compile "<a @click=\"b() // c\"></a>").toOption.map
      (fun t => (t.diagnostics, t.fragments)) =
      some ([], [⟨"a", "on:\x7b\"click\":function($event)\x7bb() // c\x7d\x7d"⟩]) := by
    decide +kernel
  cases hcompile : Template.compile "<a @click=\"b() // c\"></a>" with
  | error _ =>
    rw [hcompile] at hparts
    cases hparts
  | ok t =>
    rw [hcompile] at hparts
    obtain ⟨hnone, hfragments⟩ := Prod.mk.inj (Option.some.inj hparts)
    have hbody := h _ t hcompile hnone _ (hfragments ▸ List.mem_singleton_self _)
    exact absurd hbody (by decide +kernel)

end EventMarkup
