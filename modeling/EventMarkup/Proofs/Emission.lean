import EventMarkup.Proofs.Behaviour
import EventMarkup.Proofs.Fragments
import EventMarkup.Proofs.Judgement

/-!
# Fragments as script

A fragment is code that stands between the braces of an object. What is written around the scripts
of the listeners is followed from the inside out: a function, a list of functions, an entry, a table
of events. So the fragments of a template without problems are function bodies, provided that the
scripts in them are read in their new places as they were read when they were judged
(`isBody_fragment_of_compile`). A comment at the end of a script is not: it takes in what closes the
function (`exists_unbalanced_fragment`).
-/

namespace EventMarkup

open Peg Text Script

variable {s t k x : List Char}

/-! ## Listeners -/

/-- The script of a listener is read in its function as it is read by itself: a path is plain, and
any other script stands on one line, has no slashes and begins neither as a block nor as a
declaration. -/
structure Listener.IsPlain (l : Listener) : Prop where
  notLet : frontName (skipGap l.value.toList) ≠ "let".toList
  path : Script.isPath l.value = true → IsPlainPath l.value.toList
  slash : Script.isPath l.value = false → '/' ∉ l.value.toList
  line : Script.isPath l.value = false → ∀ c ∈ l.value.toList, isLineEnd c = false
  brace : Script.isPath l.value = false → (skipGap l.value.toList).head? ≠ some '\x7b'

example : Listener.IsPlain ⟨"go(a, 1); b = '\x7b'", none⟩ where
  notLet := by decide +kernel
  path h := absurd h (by decide +kernel)
  slash _ := by decide +kernel
  line _ c hc := by
    have hall : ("go(a, 1); b = '\x7b'".toList.all fun c => !isLineEnd c) = true := by decide
    simpa using List.all_eq_true.1 hall c hc
  brace _ := by decide +kernel

theorem refuses_let (h : frontName s ≠ "let".toList) : Refuses (word "let") s :=
  (reads_word (List.all_eq_true.1 (by decide))).refuses (if_neg h)

theorem head?_ne_of_startsName (h : startsName s = true) : s.head? ≠ some '\x7b' := by
  cases s with
  | nil => cases h
  | cons c s =>
    rintro ⟨⟩
    have hname : isNameStart '\x7b' = true := h
    exact absurd hname (by decide)

theorem isBlock_call (h : IsPlainPath s) (hlet : frontName (skipGap s) ≠ "let".toList) :
    IsBlock (s ++ "($event)".toList) := by
  intro k
  have htext : s ++ "($event)".toList ++ '\x7d' :: k = s ++ ("($event)\x7d".toList ++ k) := by
    simp
  have hsuffix : Spans (many (.rule .suffix)) ("($event)\x7d".toList ++ k) ('\x7d' :: k) :=
    spans_of_foresee (n := 100) (r := ['\x7d']) rfl (by decide +kernel) k
  have hexpression : Spans (.rule .expression) (s ++ ("($event)\x7d".toList ++ k)) ('\x7d' :: k) :=
    spans_expression (spans_assignment_of_path h (by decide +kernel) hsuffix (ends_brace k))
      (refuses_skipGap_of_foresee (n := 100) (w := ['\x7d']) rfl (by decide) k)
  obtain ⟨hstarts, hfront⟩ := h.frontName_skipGap (k := "($event)\x7d".toList ++ k) rfl
  rw [htext]
  exact .many_cons (spans_statement_of_expression
    (head?_ne_of_startsName hstarts) (refuses_let (hfront ▸ hlet)) hexpression
    (spans_statementEnd_brace k)) (spans_many_statement_brace k)

namespace Listener.IsPlain

variable {l : Listener}

theorem isBlock_action (h : l.IsPlain) (hbody : l.value = "" ∨ Script.isBody l.value = true) :
    IsBlock l.action.source.toList := by
  have hbody : Script.isBody l.value = true := by
    rcases hbody with hempty | hbody
    · rw [hempty]
      decide +kernel
    · exact hbody
  rw [Listener.source_action]
  cases hpath : Script.isPath l.value with
  | true =>
    have htext : (l.value ++ "($event)").toList = l.value.toList ++ "($event)".toList :=
      String.toList_append
    rw [if_pos rfl, htext]
    exact isBlock_call (h.path hpath) h.notLet
  | false =>
    rw [if_neg Bool.false_ne_true]
    exact isBlock_of_takes_body (h.slash hpath) (h.brace hpath) (refuses_let h.notLet)
      ((isBody_iff_takes (h.line hpath)).1 hbody)

theorem isAction (h : l.IsPlain) (hbody : l.value = "" ∨ Script.isBody l.value = true) :
    IsAction .script l.value where
  body := l.source_action ▸ h.isBlock_action hbody
  member hpath := by
    obtain ⟨r, hr, hend⟩ := spans_member_of_isPlainPath (h.path hpath)
    have hread := (reads_read? (by decide +kernel)).takes_iff.1 hr
    rw [Instruction.isMember, hread, Option.any_some, hend, halts_nil.settled]
    rfl

theorem toList_source_function (body : List Statement) :
    (Callback.function body).source.toList =
      "function($event)\x7b".toList ++ ((sourceOf body).toList ++ ['\x7d']) := by
  have htext : (Callback.function body).source = "function($event)\x7b" ++ sourceOf body ++ "\x7d" :=
    rfl
  rw [htext, String.toList_append, String.toList_append, List.append_assoc]
  rfl

theorem isValue_source (h : l.IsPlain) (hbody : l.value = "" ∨ Script.isBody l.value = true) :
    IsValue l.callback.source.toList := by
  have haction := h.isBlock_action hbody
  unfold callback
  cases hmodifiers : l.modifiers with
  | none =>
    cases hpath : Script.isPath l.value with
    | true => exact isValue_path (h.path hpath)
    | false =>
      have hscript : l.action = .script l.value := by
        rw [Listener.action, hpath]
        rfl
      have hblock : IsBlock (sourceOf ([] ++ [.script l.value])).toList :=
        Dialect.script.isBody_sourceOf (by simp) (hscript ▸ haction)
      dsimp only
      rw [if_neg Bool.false_ne_true, toList_source_function]
      exact isValue_function hblock
  | some m =>
    dsimp only
    rw [toList_source_function]
    exact isValue_function (Dialect.script.isBody_sourceOf (fun s hs => isPrelude_of_mem hs) haction)

end Listener.IsPlain

/-! ## Tables -/

/-- The listeners of a handler are plain, and their scripts are empty or function bodies. -/
def Handler.IsSound (h : Handler) : Prop :=
  ∀ l ∈ h.listeners, l.IsPlain ∧ (l.value = "" ∨ Script.isBody l.value = true)

theorem Handler.IsSound.isValue_source {h : Handler} (hsound : h.IsSound) :
    IsValue h.source.toList := by
  cases h with
  | single l =>
    obtain ⟨hplain, hbody⟩ := hsound l (List.mem_singleton_self l)
    exact hplain.isValue_source hbody
  | multiple ls =>
    have htext : (Handler.multiple ls).source.toList =
        '[' :: ([','].intercalate (ls.map fun l => l.callback.source.toList) ++ [']']) := by
      simp [Handler.source, Function.comp_def]
    rw [htext]
    refine isValue_array fun x hx => ?_
    obtain ⟨l, hl, rfl⟩ := List.mem_map.1 hx
    obtain ⟨hplain, hbody⟩ := hsound l hl
    exact hplain.isValue_source hbody

theorem isItem_entrySource {event : String} {h : Handler} (hsound : h.IsSound) :
    IsItem (.rule .property) (EventTable.entrySource (event, h)).toList := by
  have htext : (EventTable.entrySource (event, h)).toList =
      quoted event.toList ++ ':' :: h.source.toList := by
    simp [EventTable.entrySource, quote]
  have hfront : ∀ {p : Pattern Rule}, foresee 100 p ['"'] = some none → ∀ t,
      Refuses p (skipGap (quoted event.toList ++ t)) := by
    intro p hp t
    exact refuses_skipGap_of_foresee (w := ['"']) rfl hp _
  have hkey : ∀ t, Spans (.rule .propertyKey) (quoted event.toList ++ ':' :: t) (':' :: t) := by
    intro t
    have hstring : Spans stringLiteral (quoted event.toList ++ ':' :: t) (':' :: t) :=
      .of_takes (skipGap_of_isSolidFront (w := ['"']) rfl _)
        (reads_string.takes (string?_quoted event.toList _))
    refine .rule (.oneOf [name] _ ?_ hstring)
    simp only [List.forall_mem_cons, List.not_mem_nil, false_implies, implies_true, and_true]
    exact hfront (by decide) _
  rw [htext]
  exact isItem_property hkey (hfront (by decide)) hsound.isValue_source

theorem isItem_table {key : String} (hkey : key ∈ ["on", "nativeOn"]) {t : EventTable}
    (h : ∀ entry ∈ t.entries, entry.2.IsSound) :
    IsItem (.rule .property) (t.source key).toList := by
  have htext : (t.source key).toList = key.toList ++ ':' :: ('\x7b' ::
      ([','].intercalate (t.entries.map fun entry => (EventTable.entrySource entry).toList) ++
        ['\x7d'])) := by
    simp [EventTable.source, Function.comp_def]
  have hvalue : IsValue ('\x7b' ::
      ([','].intercalate (t.entries.map fun entry => (EventTable.entrySource entry).toList) ++
        ['\x7d'])) := by
    refine isValue_object fun x hx => ?_
    obtain ⟨entry, hentry, rfl⟩ := List.mem_map.1 hx
    exact isItem_entrySource (h entry hentry)
  have hall : (["on", "nativeOn"].all fun key => isSolidFront key.toList &&
      isSolidFront (key.toList ++ [':']) && foresee 100 (.lit "...") key.toList == some none &&
      foresee 100 (.rule .propertyKey) (key.toList ++ [':']) == some (some [':'])) = true := by
    decide
  have hspec := List.all_eq_true.1 hall key hkey
  simp only [Bool.and_eq_true, beq_iff_eq] at hspec
  obtain ⟨⟨⟨hsolid, hcolon⟩, hdots⟩, hname⟩ := hspec
  rw [htext]
  refine isItem_property (fun u => ?_) (refuses_skipGap_of_foresee hsolid hdots) hvalue
  have hspans := spans_of_foresee hcolon hname u
  rwa [List.append_assoc] at hspans

theorem isBody_braces {xs : List String} (h : ∀ x ∈ xs, IsItem (.rule .property) x.toList) :
    Script.isBody ("\x7b" ++ ",".intercalate xs ++ "\x7d") = true := by
  have htext : ("\x7b" ++ ",".intercalate xs ++ "\x7d").toList =
      '\x7b' :: ([','].intercalate (xs.map String.toList) ++ ['\x7d']) := by
    simp
  have hitems : ∀ x ∈ xs.map String.toList, IsItem (.rule .property) x := by simpa using h
  have hassignment := spans_assignment_object hitems ends_nil
  rw [List.append_nil] at hassignment
  obtain ⟨r, hr, hend⟩ := spans_expression hassignment
    (by rw [halts_nil.settled]; exact (reads_text _).refuses rfl)
  refine isBody_of_takes (t := []) ?_
  rw [htext]
  exact takes_body_of_optional hr.either (hend.trans halts_nil.settled)

/-! ## Fragments -/

/-- The code of an element with sound handlers is a function body in braces. -/
theorem isBody_code? {e : Element} (h : ∀ native, ∀ entry ∈ (e.table native).entries,
    entry.2.IsSound) {code : String} (hcode : e.code? = some code) :
    Script.isBody ("\x7b" ++ code ++ "\x7d") = true := by
  unfold Element.code? at hcode
  split at hcode
  · cases hcode
    refine isBody_braces fun x hx => ?_
    rcases List.mem_append.1 hx with hx | hx
    · split at hx
      · cases hx
      · cases List.mem_singleton.1 hx
        exact isItem_table (by simp) (h false)
    · split at hx
      · cases hx
      · cases List.mem_singleton.1 hx
        exact isItem_table (by simp) (h true)
  · cases hcode

theorem Fragment.exists_code? {ns : List Node} {f : Fragment} (hf : f ∈ ofForest "" ns) :
    ∃ e ∈ elementsOf ns, e.code? = some f.code := by
  have hmem : f.code ∈ (ofForest "" ns).map (·.code) := List.mem_map_of_mem hf
  rw [map_code_ofForest] at hmem
  exact List.mem_filterMap.1 hmem

/-- Where no problem is reported for a template, each of its fragments is a function body in braces,
if its listeners are plain. -/
theorem isBody_fragment_of_compile {source : String} {t : Template}
    (h : Template.compile source = .ok t) (hnone : t.diagnostics = [])
    (hplain : ∀ e ∈ elementsOf t.roots, ∀ native event handler,
      (event, handler) ∈ (e.table native).entries → ∀ l ∈ handler.listeners, l.IsPlain) :
    ∀ f ∈ t.fragments, Script.isBody ("\x7b" ++ f.code ++ "\x7d") = true := by
  intro f hf
  obtain ⟨forest, hread, rfl⟩ := Template.compile_eq_ok_iff.1 h
  obtain ⟨e, he, hcode⟩ := Fragment.exists_code? hf
  refine isBody_code? (fun native entry hentry l hl => ?_) hcode
  exact ⟨hplain e he native entry.1 entry.2 hentry l hl,
    (isWritten_of_readForest hread e he).isBody_of_ofForest_eq_nil he hnone hentry hl⟩

/-- These scripts are function bodies, but no lists of statements. -/
example : ∀ script ∈ ["\x7ba\x7d.b", "let[a]()"], Script.isBody script = true ∧
    Script.isBody ("\x7bon:\x7b\"click\":function($event)\x7b" ++ script ++ "\x7d\x7d\x7d") = false := by
  decide +kernel

end EventMarkup
