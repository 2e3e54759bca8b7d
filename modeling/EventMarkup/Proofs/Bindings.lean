import EventMarkup.Proofs.Elements
import Mathlib.Data.List.Basic

/-!
# Bindings and event tables

A binding is told by its name: the event in front of the first point, and the modifiers behind it.
`Binding.ofName_eq` reads these off the name by themselves. A table that listened to some bindings
groups them: it has one entry for each event, in the order in which the events came first, and the
handler of an entry holds the listeners of its event in their order (`entries_listenAll`). The
argument is that listening to one more binding regroups the bindings with it at their end
(`alterEntries_grouped`). The tables of an element that was read group the bindings among its
attributes.
-/

namespace EventMarkup

open Text

/-! ## Names of bindings -/

def bindingEvent (name : String) : String := String.ofList (name.toList.takeWhile (· != '.'))

def writtenModifiers (name : String) : List String :=
  ((pieces (· == '.') (name.toList.dropWhile (· != '.')).tail).map String.ofList).filter
    (!·.isEmpty)

/-- The event under which a binding is filed. -/
def filedEvent (name : String) : String :=
  if "capture" ∈ writtenModifiers name then "!" ++ bindingEvent name else bindingEvent name

/-- Whether a binding is filed as one of the rendered element itself. -/
def filedNative (name : String) : Bool := decide ("native" ∈ writtenModifiers name)

theorem eraseDups_concat {α : Type} [DecidableEq α] (l : List α) (a : α) :
    (l ++ [a]).eraseDups = if a ∈ l then l.eraseDups else l.eraseDups ++ [a] := by
  rw [List.eraseDups_append]
  by_cases ha : a ∈ l <;> simp [List.removeAll, List.eraseDups_cons, ha]

theorem nodup_eraseDups {α : Type} [DecidableEq α] (l : List α) : l.eraseDups.Nodup := by
  induction l using List.reverseRecOn with
  | nil => simp
  | append_singleton l a ih =>
    rw [eraseDups_concat]
    split
    · exact ih
    · rename_i ha
      refine List.nodup_append.2 ⟨ih, by simp, fun b hb c hc => ?_⟩
      rintro rfl
      exact ha (List.mem_singleton.1 hc ▸ List.mem_eraseDups.1 hb)

/-- The modifiers that a listener keeps: all but the two that say where it is filed. -/
def keptModifiers (names : List String) : Modifiers :=
  ⟨(names.filter fun m => m != "capture" && m != "native").eraseDups, nodup_eraseDups _⟩

def filedListener (name value : String) : Listener where
  value := value
  modifiers :=
    if writtenModifiers name = [] then none else some (keptModifiers (writtenModifiers name))

theorem filter_eraseDups {α : Type} [DecidableEq α] (p : α → Bool) (l : List α) :
    l.eraseDups.filter p = (l.filter p).eraseDups := by
  induction l using List.reverseRecOn with
  | nil => simp
  | append_singleton l a ih =>
    rw [eraseDups_concat, List.filter_append]
    cases hp : p a with
    | true =>
      rw [List.filter_singleton, hp, cond_true, eraseDups_concat, ← ih]
      by_cases ha : a ∈ l <;> simp [ha, hp]
    | false =>
      rw [List.filter_singleton, hp, cond_false, List.append_nil, ← ih]
      by_cases ha : a ∈ l <;> simp [ha, hp]

namespace Modifiers

theorem ext_names {m n : Modifiers} (h : m.names = n.names) : m = n := by
  cases m
  cases n
  cases h
  rfl

theorem names_insert (m : Modifiers) (name : String) :
    (m.insert name).names = if name ∈ m.names then m.names else m.names ++ [name] := by
  unfold insert
  split <;> rfl

theorem names_ofList (names : List String) : (ofList names).names = names.eraseDups := by
  induction names using List.reverseRecOn with
  | nil => rfl
  | append_singleton names name ih =>
    rw [ofList, List.foldl_append, ← ofList, List.foldl_cons, List.foldl_nil, names_insert, ih,
      eraseDups_concat]
    simp only [List.mem_eraseDups]

theorem mem_ofList {names : List String} {name : String} : name ∈ ofList names ↔ name ∈ names := by
  show name ∈ (ofList names).names ↔ _
  rw [names_ofList, List.mem_eraseDups]

theorem names_erase (m : Modifiers) (name : String) :
    (m.erase name).names = m.names.filter (· != name) := m.nodup.erase_eq_filter name

theorem isEmpty_ofList (names : List String) : (ofList names).isEmpty = names.isEmpty := by
  rw [isEmpty, names_ofList]
  cases names with
  | nil => rfl
  | cons a names => simp [List.eraseDups_cons]

end Modifiers

theorem pieces_eq {α : Type} (sep : α → Bool) (l : List α) :
    pieces sep l = l.takeWhile (!sep ·) ::
      if l.all (!sep ·) then [] else pieces sep (l.dropWhile (!sep ·)).tail := by
  induction l with
  | nil => rfl
  | cons a l ih =>
    cases ha : sep a with
    | true => simp [pieces, ha]
    | false =>
      rw [pieces, ih]
      simp [ha]

theorem Binding.ofName_eq (name : String) :
    Binding.ofName name =
      ⟨filedEvent name, filedNative name, (filedListener name "").modifiers⟩ := by
  have hparts : ∃ more, parts name = bindingEvent name :: more ∧
      more.filter (!·.isEmpty) = writtenModifiers name := by
    rw [parts, pieces_eq, List.map_cons]
    refine ⟨_, rfl, ?_⟩
    show _ = ((pieces (· == '.') (name.toList.dropWhile fun c => !(c == '.')).tail).map _).filter _
    split
    · rename_i hall
      rw [List.dropWhile_eq_nil_iff.2 (List.all_eq_true.1 hall)]
      rfl
    · rfl
  obtain ⟨more, hname, hmore⟩ := hparts
  rw [ofName, hname]
  dsimp only
  rw [hmore]
  unfold withModifiers
  rw [Modifiers.isEmpty_ofList]
  cases hw : writtenModifiers name with
  | nil => simp [filedEvent, filedNative, filedListener, hw]
  | cons m ms =>
    simp only [List.isEmpty_cons, Bool.false_eq_true, if_false, filedEvent, filedNative,
      filedListener, hw, Modifiers.mem_ofList, reduceCtorEq, Binding.mk.injEq, Option.some.injEq,
      true_and]
    refine Modifiers.ext_names ?_
    rw [Modifiers.names_erase, Modifiers.names_erase, Modifiers.names_ofList, keptModifiers,
      filter_eraseDups, filter_eraseDups, List.filter_filter]
    simp only [Bool.and_comm]

/-! ## Groups -/

/-- The handler of some listeners: a single one by itself, several as a list. -/
def Handler.ofListeners : List Listener → Handler
  | [l] => .single l
  | ls => .multiple ls

theorem Handler.push_ofListeners {ls : List Listener} (h : ls ≠ []) (l : Listener) :
    (ofListeners ls).push l = ofListeners (ls ++ [l]) := by
  match ls with
  | [] => exact absurd rfl h
  | [_] => rfl
  | _ :: _ :: _ => rfl

theorem Handler.listeners_ofListeners (ls : List Listener) : (ofListeners ls).listeners = ls := by
  match ls with
  | [] => rfl
  | [_] => rfl
  | _ :: _ :: _ => rfl

/-- Listeners grouped by their events: the events in the order in which they come first, and with
each of them its listeners in order. -/
def grouped (ls : List (String × Listener)) : List (String × Handler) :=
  (ls.map (·.1)).eraseDups.map fun event =>
    (event, .ofListeners ((ls.filter (·.1 == event)).map (·.2)))

theorem alterEntries_map {event : String} {change : Option Handler → Handler}
    {h : String → Handler} {events : List String} (hnodup : events.Nodup) :
    alterEntries event change (events.map fun e => (e, h e)) =
      (events.map fun e => (e, if e = event then change (some (h e)) else h e)) ++
        if event ∈ events then [] else [(event, change none)] := by
  induction events with
  | nil => simp [alterEntries]
  | cons e events ih =>
    obtain ⟨he, hnodup⟩ := List.nodup_cons.1 hnodup
    rw [List.map_cons, alterEntries]
    by_cases hevent : e = event
    · subst hevent
      have hsame : (events.map fun f => (f, if f = e then change (some (h f)) else h f)) =
          events.map fun f => (f, h f) :=
        List.map_congr_left fun f hf => by rw [if_neg (ne_of_mem_of_not_mem hf he)]
      simp [hsame]
    · have hevent' : ¬ event = e := fun h => hevent h.symm
      simp [hevent, hevent', ih hnodup]

theorem alterEntries_grouped (ls : List (String × Listener)) (event : String) (l : Listener) :
    alterEntries event (fun
      | none => .single l
      | some h => h.push l) (grouped ls) = grouped (ls ++ [(event, l)]) := by
  unfold grouped
  rw [alterEntries_map (nodup_eraseDups _), List.map_append, List.map_singleton, eraseDups_concat]
  simp only [List.mem_eraseDups, List.filter_append, List.map_append]
  have hother : ∀ e, e ≠ event →
      (([(event, l)] : List (String × Listener)).filter (·.1 == e)).map (·.2) = [] := by
    intro e he
    simp [he.symm]
  have hgroup : ∀ e ∈ ls.map (·.1), (ls.filter (·.1 == e)).map (·.2) ≠ [] := by
    intro e he
    obtain ⟨p, hp, rfl⟩ := List.mem_map.1 he
    simp only [ne_eq, List.map_eq_nil_iff, List.filter_eq_nil_iff, not_forall]
    exact ⟨p, hp, by simp⟩
  have hentries : ∀ e ∈ (ls.map (·.1)).eraseDups,
      (e, if e = event then (Handler.ofListeners ((ls.filter (·.1 == e)).map (·.2))).push l
        else .ofListeners ((ls.filter (·.1 == e)).map (·.2))) =
      (e, Handler.ofListeners ((ls.filter (·.1 == e)).map (·.2) ++
        ([(event, l)].filter (·.1 == e)).map (·.2))) := by
    intro e he
    split
    · rename_i heq
      subst heq
      rw [Handler.push_ofListeners (hgroup _ (List.mem_eraseDups.1 he))]
      simp
    · rename_i hne
      rw [hother e hne, List.append_nil]
  rw [List.map_congr_left hentries]
  by_cases hevent : event ∈ ls.map (·.1)
  · rw [if_pos hevent, if_pos hevent, List.append_nil]
  · rw [if_neg hevent, if_neg hevent, List.map_append]
    have hnone : ls.filter (·.1 == event) = [] := by
      refine List.filter_eq_nil_iff.2 fun p hp heq => hevent ?_
      exact beq_iff_eq.1 heq ▸ List.mem_map_of_mem hp
    simp [hnone, Handler.ofListeners]

/-! ## Tables of elements -/

/-- Binds several events, each told by the name of a binding, to script texts. -/
def Element.listenAll (e : Element) (calls : List (String × String)) : Element :=
  calls.foldl (fun e call => e.listen call.1 call.2) e

/-- The listeners of one side among some bindings, with the events under which they are filed. -/
def filedListeners (native : Bool) (calls : List (String × String)) : List (String × Listener) :=
  (calls.filter fun call => filedNative call.1 == native).map fun call =>
    (filedEvent call.1, filedListener call.1 call.2)

/-- The table of one side. -/
def Element.table (e : Element) (native : Bool) : EventTable :=
  if native then e.nativeEvents else e.events

theorem Element.entries_table_listen (e : Element) (name value : String) (native : Bool) :
    ((e.listen name value).table native).entries =
      if filedNative name = native then
        alterEntries (filedEvent name) (fun
          | none => .single (filedListener name value)
          | some h => h.push (filedListener name value)) (e.table native).entries
      else (e.table native).entries := by
  unfold Element.listen
  rw [Binding.ofName_eq]
  cases hn : filedNative name <;> cases native <;> rfl

theorem Element.entries_table_listenAll (e : Element) (calls : List (String × String))
    (native : Bool) (h : e.table native = .empty) :
    ((e.listenAll calls).table native).entries = grouped (filedListeners native calls) := by
  induction calls using List.reverseRecOn with
  | nil =>
    rw [Element.listenAll, List.foldl_nil, h]
    rfl
  | append_singleton calls call ih =>
    have hlast : e.listenAll (calls ++ [call]) = (e.listenAll calls).listen call.1 call.2 :=
      List.foldl_concat _ _ _ _
    rw [hlast, Element.entries_table_listen, ih, filedListeners, filedListeners,
      List.filter_append, List.map_append]
    split
    · rename_i hn
      rw [alterEntries_grouped]
      simp [hn]
    · rename_i hn
      simp [hn]

/-! ## Bindings among the attributes -/

/-- The binding of an attribute and its script text, if the attribute binds an event. -/
def Attribute.binding? (a : Attribute) : Option (String × String) :=
  match dropFront? "@".toList a.name.toList with
  | some name => some (String.ofList name, a.value.getD "")
  | none =>
    match dropFront? "v-on:".toList a.name.toList with
    | some name => some (String.ofList name, a.value.getD "")
    | none => none

theorem startsWith_eq_true {s front : String} (h : startsWith s front = true) :
    ∃ rest, s.toList = front.toList ++ rest := by
  obtain ⟨rest, hrest⟩ := Option.isSome_iff_exists.1 h
  exact ⟨rest, eq_append_of_dropFront? hrest⟩

theorem startsWith_of_toList {s front : String} {rest : List Char}
    (h : s.toList = front.toList ++ rest) : startsWith s front = true := by
  rw [startsWith, h, dropFront?_append]
  rfl

theorem Attribute.kind_eq_on_iff (a : Attribute) :
    a.kind = .on ↔ startsWith a.name "@" = true ∨ startsWith a.name "v-on:" = true := by
  constructor
  · intro h
    unfold kind at h
    split at h
    · cases h
    · split at h
      next hon => simpa using hon
      next => split at h <;> cases h
  · rintro (h | h) <;>
    · obtain ⟨rest, hname⟩ := startsWith_eq_true h
      simp [kind, startsWith, hname, dropFront?]

theorem Attribute.binding?_eq (a : Attribute) :
    a.binding? = if a.kind = .on then some (a.bindingName, a.value.getD "") else none := by
  simp only [kind_eq_on_iff, startsWith]
  unfold Attribute.binding? Attribute.bindingName
  have hat : "@".toList = ['@'] := rfl
  rw [hat]
  cases dropFront? ['@'] a.name.toList with
  | some name => simp
  | none => cases dropFront? "v-on:".toList a.name.toList <;> simp

theorem Attribute.binding?_eq_some_iff {a : Attribute} {name value : String} :
    a.binding? = some (name, value) ↔
      a.kind = .on ∧ a.bindingName = name ∧ a.value.getD "" = value := by
  rw [binding?_eq]
  split
  next h => simp [h]
  next h => simp [h]

theorem Attribute.kind_eq_static_iff (a : Attribute) :
    a.kind = .static ↔ isDirective a.name = false := by
  have hfront : ∀ front rest, front.toList = "v-".toList ++ rest →
      startsWith a.name "v-" = false → startsWith a.name front = false := by
    intro front rest hlong hv
    rw [← Bool.not_eq_true] at hv ⊢
    intro hname
    obtain ⟨behind, hbehind⟩ := startsWith_eq_true hname
    rw [hlong, List.append_assoc] at hbehind
    exact hv (startsWith_of_toList hbehind)
  unfold Attribute.kind isDirective
  cases hv : startsWith a.name "v-" with
  | false =>
    rw [hfront "v-bind:" "bind:".toList rfl hv, hfront "v-on:" "on:".toList rfl hv]
    cases startsWith a.name ":" <;> cases startsWith a.name "@" <;> simp
  | true =>
    refine iff_of_false ?_ (by simp)
    split
    · simp
    · split <;> simp

theorem Attribute.kind_ne_on_of_name_eq {a : Attribute} (h : a.name = iterationName) :
    a.kind ≠ .on := by
  have hkind : a.kind = (⟨iterationName, none⟩ : Attribute).kind := by
    unfold Attribute.kind
    rw [h]
  rw [hkind]
  decide

theorem Element.table_apply (e : Element) (a : Attribute) (native : Bool) :
    (e.apply a).table native = (e.listenAll a.binding?.toList).table native := by
  rw [Attribute.binding?_eq, Element.apply]
  split
  · rfl
  · split
    · split <;> rfl
    · rfl

theorem Element.table_listenAll_congr {e f : Element} (h : ∀ native, e.table native = f.table native)
    (calls : List (String × String)) (native : Bool) :
    (e.listenAll calls).table native = (f.listenAll calls).table native := by
  induction calls generalizing e f with
  | nil => exact h native
  | cons call calls ih =>
    refine ih fun side => ?_
    have hev : e.events = f.events := h false
    have hnat : e.nativeEvents = f.nativeEvents := h true
    unfold Element.listen
    cases hside : (Binding.ofName call.1).native <;> cases side <;>
      simp [Element.table, hside, hev, hnat]

theorem Element.table_foldl_apply (e : Element) (attributes : List Attribute) (native : Bool) :
    (attributes.foldl apply e).table native =
      (e.listenAll (attributes.filterMap Attribute.binding?)).table native := by
  induction attributes generalizing e with
  | nil => rfl
  | cons a attributes ih =>
    rw [List.foldl_cons, ih, table_listenAll_congr (e.table_apply a)]
    unfold listenAll
    rw [← List.foldl_append]
    cases ha : a.binding? <;> simp [ha]

/-- The entries of the tables of an element that a tag spells. -/
theorem Element.IsWritten.entries_table {e : Element} (h : e.IsWritten) (native : Bool) :
    (e.table native).entries =
      grouped (filedListeners native (e.attributes.filterMap Attribute.binding?)) := by
  rw [Element.IsWritten, ofAttributes] at h
  rw [h, table_foldl_apply, entries_table_listenAll _ _ _ (by cases native <;> rfl), ← h]

/-- Event tables that listen to bindings, one after the other, group them by the events under which
they are filed, and the tables of every element of a template group the bindings among its
attributes. -/
theorem entries_listenAll :
    (∀ (e : Element) (calls : List (String × String)),
        e.events = .empty → e.nativeEvents = .empty →
          (e.listenAll calls).events.entries = grouped (filedListeners false calls) ∧
          (e.listenAll calls).nativeEvents.entries = grouped (filedListeners true calls)) ∧
      ∀ (source : String) (forest : List Node), readForest source = .ok forest →
        ∀ e ∈ elementsOf forest,
          e.events.entries =
              grouped (filedListeners false (e.attributes.filterMap Attribute.binding?)) ∧
            e.nativeEvents.entries =
              grouped (filedListeners true (e.attributes.filterMap Attribute.binding?)) := by
  constructor
  · intro e calls hevents hnative
    exact ⟨e.entries_table_listenAll calls false hevents,
      e.entries_table_listenAll calls true hnative⟩
  · intro source forest hread e he
    have hwritten := isWritten_of_readForest hread e he
    exact ⟨hwritten.entries_table false, hwritten.entries_table true⟩

theorem entries_listenAll_click :
    (Element.listenAll { tag := "a" }
          [("click.capture.native", "f"), ("click", "g"), ("click..once.once", "h")]).events.entries =
        [("click", .multiple [⟨"g", none⟩, ⟨"h", some (keptModifiers ["once"])⟩])] ∧
      (Element.listenAll { tag := "a" }
          [("click.capture.native", "f"), ("click", "g"),
            ("click..once.once", "h")]).nativeEvents.entries =
        [("!click", .single ⟨"f", some (keptModifiers [])⟩)] ∧
      ∃ forest, readForest "<p><a v-on:k.native=f @k.native></a></p>" = .ok forest ∧
        ∃ e ∈ elementsOf forest, e.nativeEvents.entries =
          [("k", .multiple [⟨"f", some (keptModifiers [])⟩, ⟨"", some (keptModifiers [])⟩])] := by
  obtain ⟨hevents, hnative⟩ := entries_listenAll.1 { tag := "a" }
    [("click.capture.native", "f"), ("click", "g"), ("click..once.once", "h")] rfl rfl
  refine ⟨hevents.trans (by decide +kernel), hnative.trans (by decide +kernel), ?_⟩
  have helements : (readForest "<p><a v-on:k.native=f @k.native></a></p>").toOption.map
      (fun forest => (elementsOf forest).map (·.attributes)) =
      some [[], [⟨"v-on:k.native", some "f"⟩, ⟨"@k.native", none⟩]] := by decide +kernel
  cases hread : readForest "<p><a v-on:k.native=f @k.native></a></p>" with
  | error _ =>
    rw [hread] at helements
    cases helements
  | ok forest =>
    rw [hread] at helements
    obtain ⟨e, he, hattributes⟩ : ∃ e ∈ elementsOf forest,
        e.attributes = [⟨"v-on:k.native", some "f"⟩, ⟨"@k.native", none⟩] := by
      have hmem := List.mem_cons_of_mem [] (List.mem_singleton_self
        [(⟨"v-on:k.native", some "f"⟩ : Attribute), ⟨"@k.native", none⟩])
      rw [← Option.some.inj helements] at hmem
      simpa using hmem
    have hentries := (entries_listenAll.2 _ _ hread e he).2
    rw [hattributes] at hentries
    exact ⟨forest, rfl, e, he, hentries.trans (by decide +kernel)⟩

end EventMarkup
