import EventMarkup.Proofs.Script.Operand
import EventMarkup.Proofs.Script.Renaming

/-!
# Names where they are used and where they are bound

A form is read without its name: a run on it goes through as long as the name is asked for nothing
that is not known of it (`foretold_of_foretell`). What there is to know is whether the name is
reserved, and which of the words it is that may stand in front of an operand. So there are few kinds
of names (`exists_kind`), and what the grammar makes of every name in a form is seen from finitely
many runs (`toldApart_of_name`): each name may be a member, a name that is not reserved may be a
value and may be bound, and a reserved word may not be bound. A method may not have the name
`async`, since the grammar takes that for the word in front of a name and does not go back
(`exists_name_of_no_method`).
-/

namespace EventMarkup.Script

open Peg Text Renaming

variable {n s t w : List Char} {p : Pattern Rule} {f : List Char → Option (List Char)}
  {o : Option (List Char)}

/-- What is known of a name: whether it is reserved, and of some words whether it is that word. -/
structure NameKind where
  reserved : Bool
  isWord : String → Option Bool

/-- What is known of the name is true. -/
structure NameKind.Describes (k : NameKind) (n : List Char) : Prop where
  name : IsName n
  reserved : n ∈ reservedWords.map String.toList ↔ k.reserved = true
  word : ∀ w ∈ spelledWords, ∀ b ∈ k.isWord w, n = w.toList ↔ b = true

/-! ## Tokens -/

/-- What the place behind the sign of an assignment leaves. -/
def assigned? (s : List Char) : Option (List Char) :=
  if ((dropFront? "=".toList s).or (dropFront? ">".toList s)).isSome then none else some s

theorem reads_assigned : Reads Leaf.assigned.pattern assigned? :=
  ((reads_text _).either (reads_text _)).notAhead

/-- What a token takes of a form if it looks at the whole name at the front, and is known or not
known to take the name of the form; `none` if that is not known and the name is in front. -/
def foretellName (known : Option Bool) (f : List Char → Option (List Char)) (s : List Char) :
    Option (Option (List Char)) :=
  if s.head? = some '#' then known.map fun takes => if takes then some s.tail else none
  else some (f s)

/-- What a token takes of a form; `none` if that is not known. -/
def NameKind.foretellLeaf (k : NameKind) (s : List Char) : Leaf → Option (Option (List Char))
  | .name => foretellName (some true) name? s
  | .identifier => foretellName (some !k.reserved) identifier? s
  | .word w => foretellName (k.isWord w) (word? w.toList) s
  | .mark m => some (dropFront? m.text.toList s)
  | .operator v => some (dropFront? v.toList s)
  | .assigned => some (assigned? s)
  | .gap => some (some (skipGapBlanks s))
  | .pause => some (if isIdle s then some s else none)
  | .number =>
    if s.head?.any startsNumber then if '#' ∈ s then none else some (number? s) else some none
  | .string | .regex => some none
  | .templateText => none

/-- With a name in the form the pattern takes what leaves the rest of the form, or refuses it. -/
structure Foretold (w : List Char) (p : Pattern Rule) (s : List Char) (o : Option (List Char)) :
    Prop where
  outcome : Outcome p (filled '#' w s) (o.map (filled '#' w))
  suffix : ∀ t ∈ o, t <:+ s

theorem foretold_none (h : Refuses p (filled '#' w s)) : Foretold w p s none :=
  ⟨h, by simp⟩

theorem foretold_of_reads (hp : Reads p f) (hf : f (filled '#' w s) = (f s).map (filled '#' w)) :
    Foretold w p s (f s) where
  outcome := hf ▸ hp (filled '#' w s)
  suffix _ ht := (hp.takes ht).suffix

theorem foretold_of_not_mem (hp : Reads p f) (hs : '#' ∉ s) : Foretold w p s (f s) := by
  refine foretold_of_reads hp ?_
  rw [filled_eq_self hs]
  cases hf : f s with
  | none => rfl
  | some t =>
    have ht := (hp.takes hf).suffix
    rw [Option.map_some, filled_eq_self fun hmem => hs (ht.subset hmem)]

theorem dropFront?_filled {cs : List Char} (hw : IsName w) (hcs : (cs.all fun c => !isPart c) = true) :
    dropFront? cs (filled '#' w s) = (dropFront? cs s).map (filled '#' w) := by
  obtain ⟨e, u, rfl, he⟩ := hw.exists_cons
  induction cs generalizing s with
  | nil => rfl
  | cons c cs ih =>
    obtain ⟨hc, hcs⟩ : (c ≠ '#' ∧ isNameRest c = false) ∧ (cs.all fun c => !isPart c) = true := by
      simpa [isPart] using hcs
    cases s with
    | nil => rfl
    | cons d s =>
      by_cases hd : d = '#'
      · subst hd
        have hne : c ≠ e := by
          rintro rfl
          exact ne_true_of_eq_false hc.2 (isNameRest_of_isNameStart he)
        rw [filled_mark, List.cons_append, dropFront?, dropFront?, if_neg hne, if_neg hc.1]
        rfl
      · rw [filled_cons hd, dropFront?, dropFront?]
        by_cases hcd : c = d
        · rw [if_pos hcd, if_pos hcd, ih hcs]
        · rw [if_neg hcd, if_neg hcd]
          rfl

theorem assigned?_filled (hw : IsName w) :
    assigned? (filled '#' w s) = (assigned? s).map (filled '#' w) := by
  have hequal : ("=".toList.all fun c => !isPart c) = true := by decide
  have harrow : (">".toList.all fun c => !isPart c) = true := by decide
  simp only [assigned?, dropFront?_filled hw hequal, dropFront?_filled hw harrow,
    Option.isSome_or, Option.isSome_map]
  split <;> rfl

theorem isIdle_filled (hw : IsName w) : isIdle (filled '#' w s) = isIdle s := by
  obtain ⟨e, u, rfl, he⟩ := hw.exists_cons
  have hcurly : isNameStart '\x7d' = false := by decide
  cases s with
  | nil => rfl
  | cons c s =>
    by_cases hc : c = '#'
    · subst hc
      rw [filled_mark]
      exact beq_eq_false_iff_ne.2 fun h => ne_true_of_eq_false hcurly (h ▸ he)
    · rw [filled_cons hc]
      rfl

theorem foretold_of_named {P : List Char → Prop} [DecidablePred P] {known : Option Bool}
    (hp : Reads p f) (hf : ∀ s, f s = if P (frontName s) then some (behindName s) else none)
    (hknown : ∀ b ∈ known, P w ↔ b = true) (hw : IsName w) (hs : IsForm s)
    (h : foretellName known f s = some o) : Foretold w p s o := by
  unfold foretellName at h
  split at h <;> rename_i hhead
  · obtain ⟨t, rfl⟩ := List.head?_eq_some_iff.1 hhead
    obtain ⟨b, hb, rfl⟩ := Option.map_eq_some_iff.1 h
    obtain ⟨hfront, hbehind⟩ := frontName_filled_mark hw hs
    have hout := hp (filled '#' w ('#' :: t))
    simp only [hf, hfront, hbehind, hknown b hb] at hout
    cases b with
    | true => exact ⟨hout, fun u hu => Option.some.inj hu ▸ List.suffix_cons '#' t⟩
    | false => exact foretold_none hout
  · obtain ⟨hfront, hbehind⟩ := frontName_filled (w := w) hs hhead
    cases h
    refine foretold_of_reads hp ?_
    rw [hf, hf, hfront, hbehind]
    split <;> rfl

theorem foretold_leaf {k : NameKind} {l : Leaf} (hk : k.Describes w) (hl : takesNamesWhole l = true)
    (hs : IsForm s) (h : k.foretellLeaf s l = some o) : Foretold w l.pattern s o := by
  have hw := hk.name
  have hplain := hs.not_mem_enclosers hw
  have hspelled : ∀ {v : String}, (v.toList.all fun c => !isPart c) = true →
      Foretold w (.lit v) s (dropFront? v.toList s) := fun hv =>
    foretold_of_reads (reads_text _) (dropFront?_filled hw hv)
  cases l with
  | name =>
    exact foretold_of_named (P := fun w => startsName w = true) reads_name name?_eq
      (by simp [hw.starts]) hw hs h
  | identifier =>
    refine foretold_of_named
      (P := fun w => startsName w = true ∧ w ∉ reservedWords.map String.toList)
      reads_identifier identifier?_eq ?_ hw hs h
    simp [hw.starts, hk.reserved]
  | word v =>
    have hv : v ∈ spelledWords := by simpa [takesNamesWhole] using hl
    exact foretold_of_named (P := (· = v.toList)) (reads_word (isNameRest_spelledWords v hv))
      (fun _ => rfl) (hk.word v hv) hw hs h
  | mark m =>
    cases h
    refine hspelled ?_
    cases m <;> first | decide | cases hl
  | operator v =>
    cases h
    exact hspelled hl
  | assigned =>
    cases h
    exact foretold_of_reads reads_assigned (assigned?_filled hw)
  | gap =>
    cases h
    refine ⟨reads_gap.takes (congrArg some (skipGap_filled hs hw)), fun t ht => ?_⟩
    exact Option.some.inj ht ▸ s.dropWhile_suffix isGapBlank
  | pause =>
    cases h
    refine foretold_of_reads reads_pause ?_
    rw [isIdle_filled hw]
    split <;> rfl
  | number =>
    simp only [NameKind.foretellLeaf] at h
    split at h <;> rename_i hstarts
    · split at h <;> rename_i hmark
      · cases h
      · cases h
        exact foretold_of_not_mem reads_number hmark
    · cases h
      exact foretold_none (reads_number.refuses (number?_filled hw (Bool.eq_false_iff.2 hstarts)))
  | string =>
    cases h
    exact foretold_none (reads_string.refuses (string?_eq_none_of_plain hplain))
  | regex =>
    cases h
    exact foretold_none (reads_regex.refuses (regex?_eq_none_of_plain hplain))
  | templateText => cases h

/-! ## Runs -/

/-- What a shape takes of a form; `none` if that is not known or the steps run out. -/
def NameKind.foretell (k : NameKind) : Nat → Shape → List Char → Option (Option (List Char))
  | 0, _, _ => none
  | n + 1, sh, s =>
    match sh with
    | .nothing => some (some s)
    | .leaf l => k.foretellLeaf s l
    | .rule r => if r = .templateLiteral then some none else k.foretell n (.ofRule r) s
    | .both a b =>
      match k.foretell n a s with
      | some (some rest) => k.foretell n b rest
      | reply => reply
    | .either a b =>
      match k.foretell n a s with
      | some none => k.foretell n b s
      | reply => reply
    | .star a =>
      match k.foretell n a s with
      | some (some rest) => k.foretell n (.star a) rest
      | some none => some (some s)
      | none => none
    | .phrase a => k.foretell n a s

/-- The rules that runs on a form come to. -/
def isForetold (r : Rule) : Bool := r != .body && r != .templateHole

theorem consistsOf_ofRule {r : Rule} (hr : isForetold r = true) (hne : r ≠ .templateLiteral) :
    (Shape.ofRule r).consistsOf takesNamesWhole isForetold = true := by
  cases r <;> first | exact absurd rfl hne | exact absurd hr (by decide) | decide +kernel

theorem Foretold.isForm (h : Foretold w p s (some t)) (hs : IsForm s) : IsForm t := by
  obtain ⟨y, rfl⟩ := h.suffix t rfl
  exact ⟨hs.apart.right_of_append, fun c hc => hs.plain c (List.mem_append_right y hc)⟩

theorem Foretold.both {a b : Pattern Rule} (ha : Foretold w a s (some t)) (hb : Foretold w b t o) :
    Foretold w (.both a b) s o where
  outcome := Takes.both_outcome ha.outcome hb.outcome
  suffix u hu := (hb.suffix u hu).trans (ha.suffix t rfl)

theorem Foretold.either {a b : Pattern Rule} (ha : Foretold w a s none) (hb : Foretold w b s o) :
    Foretold w (.either a b) s o where
  outcome := Refuses.either_outcome ha.outcome hb.outcome
  suffix := hb.suffix

theorem Foretold.more {a : Pattern Rule} (ha : Foretold w a s (some t))
    (hstar : Foretold w (.star a) t o) : Foretold w (.star a) s o where
  outcome := Takes.more_outcome ha.outcome hstar.outcome
  suffix u hu := (hstar.suffix u hu).trans (ha.suffix t rfl)

/-- What a run on the form foretells comes true for each name of the kind. -/
theorem foretold_of_foretell {k : NameKind} (hk : k.Describes w) {n : Nat} {sh : Shape}
    (hsh : sh.consistsOf takesNamesWhole isForetold = true) (hs : IsForm s)
    (h : k.foretell n sh s = some o) : Foretold w sh.pattern s o := by
  induction n generalizing sh s o with
  | zero => cases h
  | succ n ih =>
    cases sh with
    | nothing =>
      cases h
      exact ⟨Takes.nothing _, fun t ht => Option.some.inj ht ▸ List.suffix_rfl⟩
    | leaf l => exact foretold_leaf hk hsh hs h
    | rule r =>
      simp only [NameKind.foretell] at h
      split at h <;> rename_i hr
      · cases h
        subst hr
        exact foretold_none ⟨_, runs_templateLiteral (hs.not_mem_enclosers hk.name)⟩
      · have hbody : r ≠ .body := by
          rintro rfl
          cases hsh
        have hrule := ih (consistsOf_ofRule hsh hr) hs h
        rw [Shape.pattern_ofRule hbody] at hrule
        exact ⟨hrule.outcome.rule, hrule.suffix⟩
    | both a b =>
      obtain ⟨ha, hb⟩ := Bool.and_eq_true_iff.1 hsh
      simp only [NameKind.foretell] at h
      split at h
      · rename_i t hrun
        have hfirst := ih ha hs hrun
        exact hfirst.both (ih hb (hfirst.isForm hs) h)
      · rename_i hne
        cases o with
        | none =>
          have hfirst := ih ha hs h
          exact foretold_none (Refuses.both hfirst.outcome)
        | some rest => exact absurd h (hne rest)
    | either a b =>
      obtain ⟨ha, hb⟩ := Bool.and_eq_true_iff.1 hsh
      simp only [NameKind.foretell] at h
      split at h
      · rename_i hrun
        exact (ih ha hs hrun).either (ih hb hs h)
      · rename_i hne
        cases o with
        | none => exact absurd h hne
        | some rest =>
          have hfirst := ih ha hs h
          exact ⟨Takes.either hfirst.outcome, hfirst.suffix⟩
    | star a =>
      have ha : a.consistsOf takesNamesWhole isForetold = true := hsh
      simp only [NameKind.foretell] at h
      split at h
      · rename_i t hrun
        have hround := ih ha hs hrun
        exact hround.more (ih hsh (hround.isForm hs) h)
      · rename_i hrun
        cases h
        have hround := ih ha hs hrun
        exact ⟨Refuses.enough hround.outcome, fun t ht => Option.some.inj ht ▸ List.suffix_rfl⟩
      · cases h
    | phrase a =>
      have ha : a.consistsOf takesNamesWhole isForetold = true := hsh
      have hinside := ih ha hs h
      exact ⟨hinside.outcome.phrase, hinside.suffix⟩

/-! ## Bodies -/

def bodyShape : Shape :=
  .both (.leaf .gap) (.both bodyParts.1 (.both (.leaf .gap) (.both bodyParts.2 (.leaf .gap))))

theorem outcome_body (h : Takes bodyShape.pattern s t) :
    Outcome (.rule .body) s (if t.isEmpty then some [] else none) := by
  obtain ⟨u₁, hgap, h⟩ := takes_both_iff.1 h
  obtain ⟨u₂, hfirst, h⟩ := takes_both_iff.1 h
  obtain ⟨u₃, hgap', h⟩ := takes_both_iff.1 h
  obtain ⟨u₄, hsecond, hgap''⟩ := takes_both_iff.1 h
  cases t with
  | nil =>
    have hend : Takes endOfScript [] [] := takes_endOfScript_iff.2 ⟨rfl, rfl⟩
    exact Takes.rule (hgap.both (hfirst.both (hgap'.both (hsecond.both (hgap''.both hend)))))
  | cons c t =>
    have hend : Refuses endOfScript (c :: t) := ⟨_, .token (.atEndFails c t) rfl⟩
    exact Refuses.rule (hgap.both_refuses (hfirst.both_refuses (hgap'.both_refuses
      (hsecond.both_refuses (hgap''.both_refuses hend)))))

theorem isBody_of_outcome {b : Bool} (hline : ∀ c ∈ s, isLineEnd c = false)
    (h : Outcome (.rule .body) s (if b then some [] else none)) :
    isBody (String.ofList s) = b := by
  have hiff : isBody (String.ofList s) = true ↔ Takes (.rule .body) s [] := by
    rw [isBody_iff_takes (by rwa [String.toList_ofList]), String.toList_ofList]
  cases b with
  | true => exact hiff.2 h
  | false => exact Bool.eq_false_iff.2 fun hbody => (hiff.1 hbody).not_refuses h

/-- Whether the form is a body with each name of the kind in it; `none` if that is not known. -/
def NameKind.accepts? (k : NameKind) (form : String) : Option Bool :=
  match k.foretell 1000 bodyShape form.toList with
  | some (some rest) => some rest.isEmpty
  | _ => none

/-- The form with the name in the place of each `#`. -/
def inForm (form n : String) : String := String.ofList (filled '#' n.toList form.toList)

theorem isBody_inForm {k : NameKind} {form n : String} {b : Bool} (hk : k.Describes n.toList)
    (hs : IsForm form.toList) (hline : ∀ c ∈ form.toList, isLineEnd c = false)
    (h : k.accepts? form = some b) : isBody (inForm form n) = b := by
  have hlines : ∀ c ∈ filled '#' n.toList form.toList, isLineEnd c = false := fun c hc =>
    (mem_filled hc).elim (fun hc => Bool.eq_false_iff.2 fun hend => ne_true_of_eq_false
      (isBlank_of_isNameRest (hk.name.rest c hc)) (isBlank_of_isLineEnd hend)) (hline c)
  have hn : n.toList ≠ [] := by
    obtain ⟨c, t, hn, -⟩ := hk.name.exists_cons
    exact hn ▸ List.cons_ne_nil c t
  unfold NameKind.accepts? at h
  split at h
  · rename_i rest hrun
    cases h
    have hshape : bodyShape.consistsOf takesNamesWhole isForetold = true := by decide +kernel
    refine isBody_of_outcome hlines ?_
    have hbody := outcome_body (foretold_of_foretell hk hshape hs hrun).outcome
    have hempty : (filled '#' n.toList rest).isEmpty = rest.isEmpty := by
      rw [Bool.eq_iff_iff, List.isEmpty_iff, List.isEmpty_iff, filled_eq_nil_iff hn]
    rwa [hempty] at hbody
  · cases h

/-! ## Kinds of names -/

/-- The words that may stand in front of an operand, or for it. -/
def operandWords : List String :=
  ["async", "function", "new", "this", "true", "false", "null", "typeof", "void", "delete"]

def NameKind.other (reserved : Bool) : NameKind where
  reserved := reserved
  isWord w := if w ∈ operandWords then some false else none

def NameKind.ofWord (v : String) : NameKind where
  reserved := v ∈ reservedWords
  isWord w := some (v = w)

/-- The kinds of names that runs tell apart. -/
def nameKinds : List NameKind :=
  [.other false, .other true] ++ operandWords.map .ofWord

theorem exists_kind {n : String} (hn : IsName n.toList) :
    ∃ k ∈ nameKinds, k.Describes n.toList ∧ (n ∈ reservedWords ↔ k.reserved = true) ∧
      (k.isWord "async" = some true → n = "async") := by
  have hinjective : Function.Injective String.toList := fun _ _ => String.toList_injective
  have hreserved : n.toList ∈ reservedWords.map String.toList ↔ n ∈ reservedWords :=
    List.mem_map_of_injective hinjective
  by_cases hword : n ∈ operandWords
  · refine ⟨.ofWord n, List.mem_append_right _ (List.mem_map_of_mem hword), ⟨hn, ?_, ?_⟩, ?_, ?_⟩
    · simp [hreserved, NameKind.ofWord]
    · simp [NameKind.ofWord, hinjective.eq_iff]
    · simp [NameKind.ofWord]
    · simp [NameKind.ofWord]
  · refine ⟨.other (n ∈ reservedWords), List.mem_append_left _ ?_, ⟨hn, ?_, ?_⟩, ?_, ?_⟩
    · cases decide (n ∈ reservedWords) <;> simp
    · simp [hreserved, NameKind.other]
    · intro w hw b hb
      have hb : w ∈ operandWords ∧ false = b := by simpa [NameKind.other] using hb
      obtain ⟨hmem, rfl⟩ := hb
      exact iff_of_false (fun h => hword (hinjective h ▸ hmem)) Bool.false_ne_true
    · simp [NameKind.other]
    · simp [NameKind.other]

/-! ## Places for names -/

def memberForms : List String := ["o.#", "o?.#", "(\x7b #: 1 \x7d)"]

def methodForm : String := "(\x7b #() \x7b\x7d \x7d)"

def bindingForms : List String := ["# => #", "(\x7b # \x7d)", "function #() \x7b\x7d"]

/-- A name that stands for a value, or is bound. -/
def valueForms : List String := ["#", "async # => #"] ++ bindingForms

theorem toldApart_nameKinds :
    ∀ k ∈ nameKinds, (∀ form ∈ memberForms, k.accepts? form = some true) ∧
      (k.isWord "async" ≠ some true → k.accepts? methodForm = some true) ∧
        (k.reserved = false → ∀ form ∈ valueForms, k.accepts? form = some true) ∧
          (k.reserved = true → ∀ form ∈ bindingForms, k.accepts? form = some false) := by
  decide +kernel

theorem isForm_of_mem : ∀ form ∈ methodForm :: memberForms ++ valueForms,
    IsForm form.toList ∧ ∀ c ∈ form.toList, isLineEnd c = false := by
  have hall : ∀ form ∈ methodForm :: memberForms ++ valueForms,
      (form.toList.IsChain fun c d => mayMeet c d = true) ∧
        (form.toList.all fun c => c ∉ enclosers && !isLineEnd c) = true := by
    decide +kernel
  intro form hform
  obtain ⟨hchain, hchars⟩ := hall form hform
  simp only [List.all_eq_true, Bool.and_eq_true, decide_eq_true_eq, Bool.not_eq_true'] at hchars
  exact ⟨⟨hchain, fun c hc => (hchars c hc).1⟩, fun c hc => (hchars c hc).2⟩

/-- Every name may be a member, but for one that no method may have; a name that is not reserved
may be a value and may be bound, and a reserved word may not be bound. -/
theorem toldApart_of_name {n : String} (hn : Takes name n.toList []) :
    (∀ form ∈ memberForms, isBody (inForm form n) = true) ∧
      (n ≠ "async" → isBody (inForm methodForm n) = true) ∧
        (n ∉ reservedWords → ∀ form ∈ valueForms, isBody (inForm form n) = true) ∧
          (n ∈ reservedWords → ∀ form ∈ bindingForms, isBody (inForm form n) = false) := by
  obtain ⟨k, hk, hdescribes, hreserved, hasync⟩ := exists_kind (takes_name_iff.1 hn)
  obtain ⟨hmember, hmethod, hvalue, hbinding⟩ := toldApart_nameKinds k hk
  have hforms : ∀ form ∈ methodForm :: memberForms ++ valueForms, ∀ b,
      k.accepts? form = some b → isBody (inForm form n) = b := fun form hform b =>
    isBody_inForm hdescribes (isForm_of_mem form hform).1 (isForm_of_mem form hform).2
  refine ⟨fun form hform => ?_, fun hne => ?_, fun hn form hform => ?_, fun hn form hform => ?_⟩
  · exact hforms form (by simp [hform]) true (hmember form hform)
  · exact hforms methodForm (by simp) true (hmethod fun h => hne (hasync h))
  · have hfree : k.reserved = false := Bool.eq_false_iff.2 (mt hreserved.2 hn)
    exact hforms form (by simp [hform]) true (hvalue hfree form hform)
  · exact hforms form (by simp [valueForms, hform]) false (hbinding (hreserved.1 hn) form hform)

/-- There is no method of the name `async`, although `async` is no reserved word. -/
theorem exists_name_of_no_method :
    ¬ ∀ n : String, Takes name n.toList [] →
      (∀ form ∈ methodForm :: memberForms, isBody (inForm form n) = true) ∧
        (n ∉ reservedWords → ∀ form ∈ valueForms, isBody (inForm form n) = true) ∧
          (n ∈ reservedWords → ∀ form ∈ bindingForms, isBody (inForm form n) = false) := by
  intro h
  have hname : IsName "async".toList := ⟨by decide, List.all_eq_true.1 (by decide)⟩
  have hmethod := (h "async" (takes_name_iff.2 hname)).1 methodForm List.mem_cons_self
  exact absurd hmethod (by decide +kernel)

end EventMarkup.Script
