import EventMarkup.Proofs.Script.Enclosure
import Mathlib.Tactic.Tauto

/-!
# Calls

An expression without slashes may stand as the argument of a call: where the grammar reads it to its
end, it also reads it between the parentheses of a call, whatever follows (`takes_arguments`).
-/

namespace EventMarkup.Script

open Peg Text

variable {p q a b : Pattern Rule} {ps : List (Pattern Rule)} {s t u rest e : List Char} {n : Nat}

/-! ## Rows and repetitions -/

theorem takes_row_iff :
    Takes (row (a :: b :: ps)) s rest ↔
      ∃ t, Takes a s t ∧ Takes (row (b :: ps)) (skipGap t) rest := by
  refine takes_both_iff.trans (exists_congr fun t => and_congr_right fun _ => ?_)
  refine takes_both_iff.trans ⟨?_, fun h => ⟨_, reads_gap.takes rfl, h⟩⟩
  rintro ⟨v, hv, h⟩
  cases reads_gap.takes_iff.1 hv
  exact h

theorem refuses_row (h : Refuses a s) : Refuses (row (a :: ps)) s := by
  cases ps with
  | nil => exact h
  | cons b ps => exact h.both

theorem Takes.row_refuses (ha : Takes a s t) (hb : Refuses (row (b :: ps)) (skipGap t)) :
    Refuses (row (a :: b :: ps)) s :=
  ha.both_refuses ((reads_gap.takes rfl).both_refuses hb)

theorem takes_many_iff :
    Takes (many a) s rest ↔
      (∃ t, Takes a s t ∧ Takes (.star (.both gap a)) t rest) ∨ Refuses a s ∧ rest = s := by
  refine takes_optional_iff.trans ⟨?_, ?_⟩
  · rintro (h | ⟨h, rfl⟩)
    · exact .inl (takes_both_iff.1 h)
    · refine .inr ⟨?_, rfl⟩
      obtain ⟨far, h⟩ := h
      cases h with
      | bothFails ha => exact ⟨_, ha⟩
      | @both _ _ _ _ _ _ _ x _ ha hb hy =>
        cases x with
        | failed e => exact absurd ⟨_, hb⟩ not_refuses_star
        | matched _ _ _ _ => cases hy
        | exhausted => cases hy
  · rintro (h | ⟨h, rfl⟩)
    · exact .inl (takes_both_iff.2 h)
    · exact .inr ⟨h.both, rfl⟩

theorem takes_star_gap_iff :
    Takes (.star (.both gap a)) s rest ↔
      (∃ t, Takes a (skipGap s) t ∧ Takes (.star (.both gap a)) t rest) ∨
        Refuses a (skipGap s) ∧ rest = s := by
  have hgap : Takes gap s (skipGap s) := reads_gap.takes rfl
  refine takes_star_iff.trans (or_congr (exists_congr fun t => and_congr_left fun _ => ?_)
    (and_congr_left fun _ => ?_))
  · refine takes_both_iff.trans ⟨?_, fun h => ⟨_, hgap, h⟩⟩
    rintro ⟨v, hv, h⟩
    cases reads_gap.takes_iff.1 hv
    exact h
  · refine ⟨?_, fun h => hgap.both_refuses h⟩
    rintro ⟨far, h⟩
    cases h with
    | bothFails ha => exact absurd ⟨_, ha⟩ hgap.not_refuses
    | @both _ _ _ _ _ _ _ x _ ha hb hy =>
      cases reads_gap.takes_iff.1 ⟨_, _, _, ha⟩
      cases x with
      | failed e => exact ⟨_, hb⟩
      | matched _ _ _ _ => cases hy
      | exhausted => cases hy

theorem takes_many_of_star (hs : skipGap s = s) (h : Takes (.star (.both gap a)) s rest) :
    Takes (many a) s rest := by
  refine takes_many_iff.2 ?_
  rw [takes_star_gap_iff, hs] at h
  exact h

theorem refuses_of_foresee (h : foresee n p s = some none) : Refuses p (s ++ t) :=
  outcome_of_foresee h

theorem takes_of_foresee (h : foresee n p s = some (some rest)) : Takes p (s ++ t) (rest ++ t) :=
  outcome_of_foresee h

/-! ## In front of a closing bracket -/

section Framing

variable {idle : Bool} {y : Shape}

theorem closes_of_takes (hsh : traceShape idle y .ground = some .ground) (he : '/' ∉ e)
    (hcloses : Closes .ground e) (h : Takes y.pattern e rest) : Closes .ground rest := by
  obtain ⟨ts, w, far, h⟩ := h
  obtain ⟨n, hn⟩ := h.exists_attempt
  exact (passes_of_trace [] he hsh (hn n (Nat.le_refl n))).closes hcloses

theorem closes_of_takes_all (hsh : traceShape idle y .ground = some .ground) (he : '/' ∉ e)
    (h : Takes y.pattern e []) : Closes .ground e := by
  obtain ⟨ts, w, far, h⟩ := h
  obtain ⟨n, hn⟩ := h.exists_attempt
  exact passes_of_trace [] he hsh (hn n (Nat.le_refl n))

theorem takes_append (ht : Shuts idle t) (hsh : traceShape idle y .ground = some .ground)
    (he : '/' ∉ e) (hcloses : Closes .ground e) (h : Takes y.pattern e rest) :
    Takes y.pattern (e ++ t) (rest ++ t) := by
  obtain ⟨ts, w, far, h⟩ := h
  obtain ⟨n, hn⟩ := h.exists_attempt
  have hframed : Framed t y.pattern e (attempt Rule.pattern n y.pattern e) :=
    framed_of_trace ht he (show Closes (Level.over [] .ground) e from hcloses) hsh
  rw [hn n (Nat.le_refl n)] at hframed
  exact hframed

theorem refuses_append (ht : Shuts idle t) (hsh : traceShape idle y .ground = some .ground)
    (he : '/' ∉ e) (hcloses : Closes .ground e) (h : Refuses y.pattern e) :
    Refuses y.pattern (e ++ t) := by
  obtain ⟨far, h⟩ := h
  obtain ⟨n, hn⟩ := h.exists_attempt
  have hframed : Framed t y.pattern e (attempt Rule.pattern n y.pattern e) :=
    framed_of_trace ht he (show Closes (Level.over [] .ground) e from hcloses) hsh
  rw [hn n (Nat.le_refl n)] at hframed
  exact hframed

end Framing

theorem takes_star_mono (hpq : ∀ x t, x <:+ s → Takes p x t → Takes q x t)
    (hend : Refuses q rest) (h : Takes (.star p) s rest) : Takes (.star q) s rest := by
  obtain ⟨ts, w, far, h⟩ := h
  generalize hr : Pattern.star p = r at h
  generalize hx : Reply.matched ts w rest far = x at h
  induction h generalizing ts w far with
  | more ha hs hy _ ihs =>
    cases hr
    obtain ⟨us, v, e, rfl, -⟩ := Reply.after_eq_matched (hy.symm.trans hx.symm)
    exact (hpq _ _ List.suffix_rfl ⟨_, _, _, ha⟩).more
      (ihs (fun x t h => hpq x t (h.trans ha.suffix)) _ _ _ rfl rfl)
  | enough ha _ =>
    cases hx
    exact hend.enough
  | _ => cases hr

theorem refuses_assignment_dots : foresee 200 (.rule .assignment) ['.', '.', '.'] = some none := by
  decide

theorem refuses_lit_of_takes {w : String} (hw : foresee n p w.toList = some none)
    (h : Takes p s rest) : Refuses (.lit w) s := by
  cases hd : dropFront? w.toList s with
  | none => exact (reads_text _).refuses hd
  | some t =>
    rw [eq_append_of_dropFront? hd] at h
    exact absurd (refuses_of_foresee hw) h.not_refuses

theorem refuses_dots_of_assignment (h : Takes (.rule .assignment) s rest) :
    Refuses (.lit "...") s :=
  refuses_lit_of_takes refuses_assignment_dots h

theorem Takes.argument (h : Takes (.rule .assignment) s rest) (hs : skipGap s = s) :
    Takes (.rule .argument) s rest := by
  refine Takes.rule (takes_row_iff.2
    ⟨s, takes_optional_iff.2 (.inr ⟨refuses_dots_of_assignment h, rfl⟩), ?_⟩)
  rw [hs]
  exact h

theorem skipGap_close (t : List Char) : skipGap (')' :: t) = ')' :: t :=
  skipGap_cons (by decide) (comment?_eq_none (by decide))

theorem takes_arguments_of_expression (h : Takes (.rule .expression) (skipGap s) (')' :: t)) :
    Takes (.rule .arguments) ('(' :: s) t := by
  have hcomma : Refuses (.lit ",") (')' :: t) := (reads_text _).refuses rfl
  obtain ⟨v, hv, hmany⟩ := takes_row_iff.1 (takes_phrase_iff.1 (takes_rule_iff.1 h))
  have hitem : ∀ s r, Takes (row [.lit ",", .rule .assignment]) s r →
      Takes (row [.lit ",", .rule .argument]) s r := by
    intro s r h
    obtain ⟨x, hx, h⟩ := takes_row_iff.1 h
    exact takes_row_iff.2 ⟨x, hx, Takes.argument h (skipGap_skipGap x)⟩
  have hmany : Takes (many (row [.lit ",", .rule .argument])) (skipGap v) (')' :: t) := by
    rcases takes_many_iff.1 hmany with ⟨x, hx, hstar⟩ | ⟨-, hv⟩
    · refine takes_many_iff.2 (.inl ⟨x, hitem _ _ hx, takes_star_mono ?_ ?_ hstar⟩)
      · intro s r _ h
        obtain ⟨y, hy, h⟩ := takes_both_iff.1 h
        exact hy.both (hitem _ _ h)
      · refine (reads_gap.takes rfl).both_refuses ?_
        rw [skipGap_close]
        exact refuses_row hcomma
    · rw [← hv]
      exact takes_many_iff.2 (.inr ⟨refuses_row hcomma, rfl⟩)
  have hlist : Takes (commaList (.rule .argument)) (skipGap s) (')' :: t) := by
    refine Takes.either (takes_row_iff.2
      ⟨v, hv.argument (skipGap_skipGap s), takes_row_iff.2 ⟨_, hmany, ?_⟩⟩)
    rw [skipGap_close]
    exact takes_optional_iff.2 (.inr ⟨hcomma, rfl⟩)
  have hend : Takes (row [.lit ")"]) (skipGap (')' :: t)) t := by
    rw [skipGap_close]
    exact (reads_text _).takes rfl
  exact Takes.rule (takes_row_iff.2
    ⟨s, (reads_text _).takes rfl, takes_row_iff.2 ⟨_, hlist, hend⟩⟩)

/-! ## Blanks in front

A blank in front of an expression is taken, but only in front of an operand. So an arrow function
behind it is not seen as one, and the expression ends in front of the arrow. -/

def arrows : Pattern Rule :=
  .either (row [word "async", .rule .arrowFunction]) (.rule .arrowFunction)

def plainAssignment : Pattern Rule :=
  row [.rule .conditional, .optional (row [assignOperator, .rule .assignment])]

def endOperator : Pattern Rule := .either (.lit "++") (.lit "--")

/-- What an assignment takes behind its first operand. -/
def TakesBehind (m rest : List Char) : Prop :=
  ∃ x y z, Takes (.optional endOperator) (skipGap m) x ∧
    Takes (many (row [binaryOperator, .rule .unary])) (skipGap x) y ∧
    Takes (.optional (row [.lit "?", .rule .assignment, .lit ":", .rule .assignment]))
      (skipGap y) z ∧
    Takes (.optional (row [assignOperator, .rule .assignment])) (skipGap z) rest

/-- No operator is in front. -/
structure Halts (s : List Char) : Prop where
  settled : skipGap s = s
  endOperator : Refuses endOperator s
  binaryOperator : Refuses binaryOperator s
  question : Refuses (.lit "?") s
  assignOperator : Refuses assignOperator s

theorem takes_plainAssignment_iff (h : Refuses frontOperator s) :
    Takes plainAssignment s rest ↔
      ∃ m, Takes (.rule .callMember) (skipGap s) m ∧ TakesBehind m rest := by
  have hfront : ∀ t, Takes (many frontOperator) s t ↔ t = s := fun t =>
    takes_many_iff.trans ⟨fun h' => h'.elim (fun ⟨_, hx, _⟩ => absurd h hx.not_refuses) And.right,
      fun ht => .inr ⟨h, ht⟩⟩
  constructor
  · intro hplain
    obtain ⟨z, hconditional, hrest⟩ := takes_row_iff.1 hplain
    obtain ⟨y, hbinary, hz⟩ := takes_row_iff.1 (takes_rule_iff.1 hconditional)
    obtain ⟨x, hunary, hy⟩ := takes_row_iff.1 (takes_rule_iff.1 hbinary)
    obtain ⟨s', hs', hmember⟩ := takes_row_iff.1 (takes_rule_iff.1 hunary)
    rw [(hfront s').1 hs'] at hmember
    obtain ⟨m, hm, hx⟩ := takes_row_iff.1 hmember
    exact ⟨m, hm, x, y, z, hx, hy, hz, hrest⟩
  · rintro ⟨m, hm, x, y, z, hx, hy, hz, hrest⟩
    have hunary : Takes (.rule .unary) s x :=
      .rule (takes_row_iff.2 ⟨s, (hfront s).2 rfl, takes_row_iff.2 ⟨m, hm, hx⟩⟩)
    have hbinary : Takes (.rule .binary) s y := .rule (takes_row_iff.2 ⟨x, hunary, hy⟩)
    have hconditional : Takes (.rule .conditional) s z := .rule (takes_row_iff.2 ⟨y, hbinary, hz⟩)
    exact takes_row_iff.2 ⟨z, hconditional, hrest⟩

theorem TakesBehind.eq_of_halts (h : TakesBehind s rest) (hs : Halts (skipGap s)) :
    rest = skipGap s := by
  obtain ⟨x, y, z, hx, hy, hz, hrest⟩ := h
  have hnone : ∀ {p t}, Takes (.optional p) (skipGap s) t → Refuses p (skipGap s) →
      t = skipGap s := fun h hp =>
    (takes_optional_iff.1 h).elim (fun h => absurd hp h.not_refuses) And.right
  cases hnone hx hs.endOperator
  rw [hs.settled] at hy
  rcases takes_many_iff.1 hy with ⟨_, hop, -⟩ | ⟨-, rfl⟩
  · exact absurd (refuses_row hs.binaryOperator) hop.not_refuses
  rw [hs.settled] at hz
  cases hnone hz (refuses_row hs.question)
  rw [hs.settled] at hrest
  exact hnone hrest (refuses_row hs.assignOperator)

/-! ### Identifiers and parentheses in front -/

theorem refuses_of_isNameless {l : Leaf} (hl : l.isNameless = true)
    (htame : isTame l.pattern = true) (h : (identifier? s).isSome = true) :
    Refuses l.pattern s := by
  obtain ⟨x, hx⟩ := runs_of_isTame htame s
  exact (takes_or_refuses_of_runs hx).resolve_left fun ⟨_, ht⟩ => not_takes_of_isNameless hl h ht

theorem refuses_leaves (ls : List Leaf)
    (hls : (ls.all fun l => l.isNameless && isTame l.pattern) = true)
    (h : (identifier? s).isSome = true) : ∀ p ∈ ls.map Leaf.pattern, Refuses p s := by
  intro p hp
  obtain ⟨l, hl, rfl⟩ := List.mem_map.1 hp
  have hspec := List.all_eq_true.1 hls l hl
  rw [Bool.and_eq_true] at hspec
  exact refuses_of_isNameless hspec.1 hspec.2 h

theorem refuses_suffix_of_identifier (h : (identifier? s).isSome = true) :
    Refuses (.rule .suffix) s := by
  have hmark := refuses_leaves [.mark .chain, .mark .dot, .mark .openSquare,
    .mark .openRound, .mark .backquote] (by decide) h
  simp only [List.map_cons, List.map_nil, List.forall_mem_cons] at hmark
  obtain ⟨hchain, hdot, hsquare, hround, hquote, -⟩ := hmark
  refine Refuses.rule (refuses_oneOf ?_)
  simp only [List.forall_mem_cons, List.not_mem_nil, false_implies, implies_true, and_true]
  exact ⟨refuses_row hchain, refuses_row hdot, .rule (refuses_row hsquare),
    .rule (refuses_row hround), .rule (.phrase (Refuses.both hquote))⟩

theorem halts_of_identifier (h : (identifier? s).isSome = true) (hs : skipGap s = s) : Halts s where
  settled := hs
  endOperator := refuses_oneOf
    (refuses_leaves [.operator "++", .operator "--"] (by decide) h)
  binaryOperator := refuses_oneOf
    (refuses_leaves ((["===", "!==", "==", "!=", "**", "<=", ">=", "<<", ">>>", ">>", "&&",
      "||", "??", "<", ">", "+", "-", "*", "/", "%", "&", "|", "^"].map Leaf.operator) ++
      [Leaf.word "instanceof", Leaf.word "in"]) (by decide) h)
  question := refuses_leaves [.mark .question] (by decide) h _ List.mem_cons_self
  assignOperator := by
    have hsign := refuses_leaves [.operator "="] (by decide) h _ List.mem_cons_self
    exact refuses_oneOf (List.forall_mem_append.2
      ⟨refuses_leaves ([">>>=", "<<=", ">>=", "**=", "&&=", "||=", "??=", "+=", "-=", "*=",
        "/=", "%=", "&=", "|=", "^="].map Leaf.operator) (by decide) h,
        List.forall_mem_singleton.2 (refuses_row hsign)⟩)

/-- The primary expressions but identifiers. -/
def namelessPrimaries : List (Pattern Rule) :=
  [parenthesized, row [.lit "[", holedList (.rule .arrayElement), .lit "]"],
    row [.lit "\x7b", commaList (.rule .property), .lit "\x7d"], .rule .functionExpression,
    .rule .templateLiteral, stringLiteral, numberLiteral, regexLiteral, word "this", word "true",
    word "false", word "null"]

theorem takes_primary_of_identifier (h : identifier? s = some t)
    (hfunction : Refuses (word "function") (skipGap t)) : Takes (.rule .primary) s t := by
  have hid : (identifier? s).isSome = true := by rw [h]; rfl
  have hleaves := refuses_leaves [.mark .openRound, .mark .openSquare, .mark .openCurly,
    .mark .backquote, .string, .number, .regex, .word "this", .word "true", .word "false",
    .word "null", .word "function"] (by decide) hid
  simp only [List.map_cons, List.map_nil, List.forall_mem_cons] at hleaves
  obtain ⟨hround, hsquare, hcurly, hquote, hstring, hnumber, hregex, hthis, htrue, hfalse, hnull,
    hword, -⟩ := hleaves
  have hsettled : skipGap s = s := by
    obtain ⟨hstarts, -⟩ := takes_identifier (reads_identifier.takes h)
    cases s with
    | nil => cases hstarts
    | cons c s =>
      exact skipGap_cons (isGapBlank_of_isNameStart hstarts)
        (comment?_eq_none (ne_slash_of_isNameStart hstarts))
  -- a word in front may be the one of an asynchronous function, but no function follows
  have hcallable : Refuses (.rule .functionExpression) s := by
    refine Refuses.rule ?_
    have hasync := reads_word (w := "async") (List.all_eq_true.1 (by decide))
    by_cases hs : word? "async".toList s = none
    · refine Takes.row_refuses (takes_optional_iff.2 (.inr ⟨hasync.refuses hs, rfl⟩)) ?_
      rw [hsettled]
      exact refuses_row hword
    · obtain ⟨v, hv⟩ := Option.ne_none_iff_exists'.1 hs
      have hvt : v = t := by
        have hid := (takes_identifier (reads_identifier.takes h)).2.2
        unfold word? at hv
        split at hv
        · exact (Option.some.inj hv).symm.trans hid
        · cases hv
      subst hvt
      exact Takes.row_refuses (takes_optional_iff.2 (.inl (hasync.takes hv)))
        (refuses_row hfunction)
  refine Takes.rule (takes_oneOf namelessPrimaries [] ?_
    (reads_identifier.takes h))
  simp only [namelessPrimaries]
  simp only [List.forall_mem_cons, List.not_mem_nil, false_implies, implies_true, and_true]
  exact ⟨refuses_row hround, refuses_row hsquare, refuses_row hcurly, hcallable,
    .rule (.phrase (Refuses.both hquote)), hstring, hnumber, hregex, hthis, htrue, hfalse, hnull⟩

theorem closing_unique {x y : Shape} (hx : traceShape false x .ground = some .ground)
    (hy : traceShape false y .ground = some .ground) (hs : '/' ∉ s)
    (h : Takes (row [.lit "(", x.pattern, .lit ")"]) s t)
    (h' : Takes (row [.lit "(", y.pattern, .lit ")"]) s u) : t = u := by
  -- in square brackets a parenthesis cannot close anything
  have hend : ∀ {z : Shape} {r : List Char}, traceShape false z .ground = some .ground →
      Takes (row [.lit "(", z.pattern, .lit ")"]) s r →
      Passes (⟨false, [.square]⟩, skipGap s.tail) (⟨false, [.square]⟩, ')' :: r) := by
    intro z r hz h
    obtain ⟨v, hv, h⟩ := takes_row_iff.1 h
    obtain ⟨m, hm, hclose⟩ := takes_row_iff.1 h
    have hsv : s = '(' :: v := takes_lit.1 hv
    have hsub : ∀ {l : List Char}, l <:+ v → '/' ∉ l := fun hl hmem =>
      hs (hsv ▸ List.mem_cons_of_mem _ (hl.subset hmem))
    have hgap : skipGap v <:+ v := (reads_gap.takes rfl).suffix
    obtain ⟨ts, w, far, hruns⟩ := hm
    obtain ⟨n, hn⟩ := hruns.exists_attempt
    have hpasses := passes_of_trace [.square] (hsub hgap) hz (hn n (Nat.le_refl n))
    have hskip := passes_gap [.square] (hsub (hruns.suffix.trans hgap))
    have hclose : skipGap m = ')' :: r := takes_lit.1 hclose
    rw [hclose] at hskip
    rw [hsv]
    exact hpasses.trans hskip
  rcases (hend hx h).total (hend hy h') with hpasses | hpasses
  · have heq := hpasses.eq_of_pass rfl
    cases heq
    rfl
  · have heq := hpasses.eq_of_pass rfl
    cases heq
    rfl

theorem takes_callMember {v : List Char} (hnew : Refuses (word "new") s) (hs : skipGap s = s)
    (hprimary : Takes (.rule .primary) s v) (hsuffix : Takes (many (.rule .suffix)) (skipGap v) t) :
    Takes (.rule .callMember) s t := by
  refine Takes.rule (takes_row_iff.2 ⟨s, takes_many_iff.2 (.inr ⟨hnew, rfl⟩), ?_⟩)
  rw [hs]
  exact takes_row_iff.2 ⟨v, hprimary, hsuffix⟩

theorem exists_primary_of_callMember (hnew : Refuses (word "new") s) (hs : skipGap s = s)
    (h : Takes (.rule .callMember) s t) :
    ∃ v, Takes (.rule .primary) s v ∧ Takes (many (.rule .suffix)) (skipGap v) t := by
  obtain ⟨x, hx, h⟩ := takes_row_iff.1 (takes_rule_iff.1 h)
  have hxs : x = s :=
    (takes_many_iff.1 hx).elim (fun ⟨_, hx, _⟩ => absurd hnew hx.not_refuses) And.right
  rw [hxs, hs] at h
  exact takes_row_iff.1 h

/-! ### Arrow functions in front -/

/-- What may stand in front of an arrow, and the arrow behind it. -/
def Heads (s v : List Char) : Prop :=
  (Takes identifier s v ∨ Takes (.rule .formalParams) s v) ∧ ∃ t, skipGap v = '=' :: '>' :: t

theorem exists_heads_of_arrowFunction (h : Takes (.rule .arrowFunction) s rest) :
    ∃ v, Heads s v := by
  obtain ⟨v, hv, h⟩ := takes_row_iff.1 (takes_rule_iff.1 h)
  obtain ⟨w, hw, -⟩ := takes_row_iff.1 h
  exact ⟨v, (takes_either_iff.1 hv).imp_right And.right, w, takes_lit.1 hw⟩

theorem halts_of_foresee {w : List Char} (hsettled : skipGap (w ++ t) = w ++ t)
    (h : ([endOperator, binaryOperator, .lit "?", assignOperator].all fun p =>
      foresee 100 p w == some none) = true) : Halts (w ++ t) := by
  simp only [List.all_cons, List.all_nil, Bool.and_true, Bool.and_eq_true, beq_iff_eq] at h
  exact ⟨hsettled, refuses_of_foresee h.1, refuses_of_foresee h.2.1, refuses_of_foresee h.2.2.1,
    refuses_of_foresee h.2.2.2⟩

theorem skipGap_arrow (t : List Char) : skipGap ('=' :: '>' :: t) = '=' :: '>' :: t :=
  skipGap_cons (by decide) (comment?_eq_none (by decide))

theorem halts_arrow (t : List Char) : Halts ('=' :: '>' :: t) :=
  halts_of_foresee (w := ['=', '>']) (skipGap_arrow t) (by decide)

theorem halts_openRound (t : List Char) : Halts ('(' :: t) :=
  halts_of_foresee (w := ['(']) (skipGap_cons (by decide) (comment?_eq_none (by decide)))
    (by decide)

theorem refuses_suffix_arrow (t : List Char) : Refuses (.rule .suffix) ('=' :: '>' :: t) :=
  refuses_of_foresee (n := 100) (s := ['=', '>']) (by decide)

theorem refuses_function_arrow (t : List Char) : Refuses (word "function") ('=' :: '>' :: t) :=
  refuses_of_foresee (n := 100) (s := ['=', '>']) (by decide)

theorem exists_of_formalParams (h : Takes (.rule .formalParams) s t) : ∃ u, s = '(' :: u := by
  obtain ⟨v, hv, -⟩ := takes_row_iff.1 (takes_rule_iff.1 h)
  exact ⟨v, takes_lit.1 hv⟩

theorem takes_many_suffix_arrow {v : List Char} (hv : skipGap v = '=' :: '>' :: t) :
    Takes (many (.rule .suffix)) (skipGap v) (skipGap v) :=
  takes_many_iff.2 (.inr ⟨hv ▸ refuses_suffix_arrow t, rfl⟩)

theorem skipGap_of_heads {m v : List Char} (hslash : '/' ∉ s) (hs : skipGap s = s)
    (hm : Takes (.rule .callMember) s m) (h : Heads s v) : skipGap m = skipGap v := by
  obtain ⟨hv, t, ht⟩ := h
  rcases hv with hv | hv
  · have hid : identifier? s = some v := reads_identifier.takes_iff.1 hv
    have hnew : Refuses (word "new") s :=
      refuses_of_isNameless (l := .word "new") (by decide) (by decide)
        (by rw [hid]; rfl)
    have hprimary := takes_primary_of_identifier hid (ht ▸ refuses_function_arrow t)
    have hmember := takes_callMember hnew hs hprimary (takes_many_suffix_arrow ht)
    rw [hm.unique hmember, skipGap_skipGap]
  · obtain ⟨u, rfl⟩ := exists_of_formalParams hv
    have hnew : Refuses (word "new") ('(' :: u) :=
      refuses_of_foresee (n := 100) (s := ['(']) (by decide)
    obtain ⟨p, hp, hsuffix⟩ := exists_primary_of_callMember hnew hs hm
    rcases takes_either_iff.1 (takes_rule_iff.1 hp) with hp | ⟨-, hp⟩
    · have hpv : p = v := closing_unique (x := .rule .expression)
        (y := Shape.commaList (.rule .param)) (by decide) (by decide) hslash hp
        (takes_rule_iff.1 hv)
      rw [hpv] at hsuffix
      rw [hsuffix.unique (takes_many_suffix_arrow ht), skipGap_skipGap]
    · exact absurd (refuses_of_foresee (n := 100) (s := ['(']) (by decide))
        hp.not_refuses

/-- Nothing that may follow an operand is in front: neither an operator nor what ends it. -/
def Strange (s : List Char) : Prop := Halts s ∧ s ≠ [] ∧ s.head? ≠ some ','

theorem strange_arrow (t : List Char) : Strange ('=' :: '>' :: t) := ⟨halts_arrow t, nofun, nofun⟩

theorem identifier?_of_async {v : List Char} (h : Takes (word "async") s v) :
    identifier? s = some v := by
  have hword := (reads_word (w := "async") (List.all_eq_true.1 (by decide))).takes_iff.1 h
  unfold word? at hword
  split at hword
  · rename_i hfront
    have hstarts : startsName s = true := by
      rw [← frontName_append_behindName s, hfront]
      rfl
    unfold identifier?
    rw [if_pos ⟨hstarts, by rw [hfront]; decide⟩]
    exact hword
  · cases hword

theorem takes_suffix_of_arguments (h : Takes (.rule .arguments) ('(' :: s) t) :
    Takes (.rule .suffix) ('(' :: s) t := by
  have hrefuses : ∀ {p : Pattern Rule}, foresee 100 p ['('] = some none → Refuses p ('(' :: s) :=
    fun hp => refuses_of_foresee hp
  refine Takes.rule (takes_oneOf [row [.lit "?.", .oneOf [.rule .arguments, .rule .index, name]],
    row [.lit ".", name], .rule .index] _ ?_ h)
  simp only [List.forall_mem_cons, List.not_mem_nil, false_implies, implies_true, and_true]
  exact ⟨hrefuses (by decide), hrefuses (by decide), hrefuses (by decide)⟩

theorem takes_arguments_of_suffix (h : Takes (.rule .suffix) ('(' :: s) t) :
    Takes (.rule .arguments) ('(' :: s) t := by
  have hnot : ∀ {p : Pattern Rule}, foresee 100 p ['('] = some none →
      ¬ Takes p ('(' :: s) t := fun hp ht => ht.not_refuses (refuses_of_foresee hp)
  rcases takes_either_iff.1 (takes_rule_iff.1 h) with h | ⟨-, h⟩
  · exact absurd h (hnot (by decide))
  rcases takes_either_iff.1 h with h | ⟨-, h⟩
  · exact absurd h (hnot (by decide))
  rcases takes_either_iff.1 h with h | ⟨-, h⟩
  · exact absurd h (hnot (by decide))
  rcases takes_either_iff.1 h with h | ⟨-, h⟩
  · exact h
  · exact absurd h (hnot (by decide))

theorem strange_of_arrows {m : List Char} (hslash : '/' ∉ s) (hs : skipGap s = s)
    (hm : Takes (.rule .callMember) s m) (h : Takes arrows s rest) : Strange (skipGap m) := by
  rcases takes_either_iff.1 h with h | ⟨-, h⟩
  · obtain ⟨v, hv, h⟩ := takes_row_iff.1 h
    obtain ⟨w, ⟨hw, t, ht⟩⟩ := exists_heads_of_arrowFunction h
    have hid := identifier?_of_async hv
    have hnew : Refuses (word "new") s :=
      refuses_of_isNameless (l := .word "new") (by decide) (by decide)
        (by rw [hid]; rfl)
    rcases hw with hw | hw
    · -- a name follows the word, and the word is an operand by itself
      have hid' : (identifier? (skipGap v)).isSome = true := by
        rw [reads_identifier.takes_iff.1 hw]
        rfl
      have hprimary := takes_primary_of_identifier hid
        (refuses_of_isNameless (l := .word "function") (by decide) (by decide) hid')
      have hmember := takes_callMember hnew hs hprimary
        (takes_many_iff.2 (.inr ⟨refuses_suffix_of_identifier hid', rfl⟩))
      rw [hm.unique hmember, skipGap_skipGap]
      obtain ⟨hstarts, -⟩ := takes_identifier hw
      refine ⟨halts_of_identifier hid' (skipGap_skipGap v), ?_, ?_⟩
      · intro hnil
        rw [hnil] at hstarts
        cases hstarts
      · intro hcomma
        cases hv : skipGap v with
        | nil => rw [hv] at hcomma; cases hcomma
        | cons c u =>
          rw [hv] at hcomma hstarts
          cases hcomma
          have hname : isNameStart ',' = true := hstarts
          exact absurd hname (by decide)
    · -- parentheses follow the word, as the arguments of a call or not at all
      obtain ⟨u, hu⟩ := exists_of_formalParams hw
      have hprimary := takes_primary_of_identifier hid
        (hu ▸ refuses_of_foresee (n := 100) (s := ['(']) (by decide))
      obtain ⟨x, hx⟩ := runs_of_isTame (isTame_rule .suffix) (skipGap v)
      rcases takes_or_refuses_of_runs hx with ⟨q, hq⟩ | hnone
      · have hqw : q = w := by
          have hslash' : '/' ∉ skipGap v := fun hmem =>
            hslash (((reads_gap.takes rfl).suffix.trans hv.suffix).subset hmem)
          rw [hu] at hq hw hslash'
          exact closing_unique (x := Shape.commaList (.rule .argument))
            (y := Shape.commaList (.rule .param)) (by decide) (by decide) hslash'
            (takes_rule_iff.1 (takes_arguments_of_suffix hq)) (takes_rule_iff.1 hw)
        have hsuffix : Takes (many (.rule .suffix)) (skipGap v) w := by
          refine takes_many_iff.2 (.inl ⟨q, hq, ?_⟩)
          rw [hqw]
          refine takes_star_gap_iff.2 (.inr ⟨?_, rfl⟩)
          rw [ht]
          exact refuses_suffix_arrow t
        rw [hm.unique (takes_callMember hnew hs hprimary hsuffix), ht]
        exact strange_arrow t
      · have hmember := takes_callMember hnew hs hprimary
          (takes_many_iff.2 (.inr ⟨hnone, rfl⟩))
        rw [hm.unique hmember, skipGap_skipGap, hu]
        exact ⟨halts_openRound u, nofun, by simp⟩
  · obtain ⟨v, hv⟩ := exists_heads_of_arrowFunction h
    rw [skipGap_of_heads hslash hs hm hv]
    obtain ⟨-, t, ht⟩ := hv
    rw [ht]
    exact strange_arrow t

/-! ### Operators in front -/

/-- The words that begin a statement or go on with one. -/
def statementWords : List String :=
  ["if", "else", "for", "while", "do", "switch", "try", "return", "throw", "break", "continue",
    "var", "const"]

/-- Reserved words that begin no operand: the operators in front of one and the words of
statements. -/
def strayWords : List String := ["typeof", "void", "delete"] ++ statementWords

theorem strayWords_spec : ∀ w ∈ strayWords,
    (∀ c ∈ w.toList, isNameRest c = true) ∧ w.toList ≠ "new".toList ∧
      w.toList ∈ reservedWords.map String.toList ∧
      (namelessPrimaries.all fun p => foresee 100 p w.toList == some none) = true := by
  have hall : (strayWords.all fun w => w.toList.all isNameRest &&
      (w.toList != "new".toList && ((reservedWords.map String.toList).contains w.toList &&
        namelessPrimaries.all fun p => foresee 100 p w.toList == some none))) = true := by
    decide +kernel
  intro w hw
  simpa only [Bool.and_eq_true, bne_iff_ne, List.contains_iff_mem, List.all_eq_true (p := isNameRest)]
    using List.all_eq_true.1 hall w hw

theorem frontName_ne_of_callMember (hs : skipGap s = s) (h : Takes (.rule .callMember) s t)
    {w : String} (hw : w ∈ strayWords) : frontName s ≠ w.toList := by
  intro hfront
  obtain ⟨-, hne, hreserved, hprimaries⟩ := strayWords_spec w hw
  have hnew : Refuses (word "new") s :=
    (reads_word (w := "new") (List.all_eq_true.1 (by decide))).refuses (if_neg (hfront ▸ hne))
  obtain ⟨v, hv, -⟩ := exists_primary_of_callMember hnew hs h
  refine hv.not_refuses (Refuses.rule ?_)
  show Refuses (.oneOf (namelessPrimaries ++ [identifier])) s
  refine refuses_oneOf fun p hp => ?_
  rcases List.mem_append.1 hp with hp | hp
  · rw [← frontName_append_behindName s, hfront]
    exact refuses_of_foresee (beq_iff_eq.1 (List.all_eq_true.1 hprimaries p hp))
  · cases List.mem_singleton.1 hp
    exact reads_identifier.refuses (if_neg fun hid => hid.2 (hfront ▸ hreserved))

theorem refuses_strayWord {w : String} (hw : w ∈ strayWords) (h : frontName s ≠ w.toList) :
    Refuses (word w) s :=
  (reads_word (strayWords_spec w hw).1).refuses (if_neg h)

theorem refuses_frontOperator (hs : skipGap s = s) (h : Takes (.rule .callMember) s t) :
    Refuses frontOperator s := by
  have hlit : ∀ {w : String}, foresee 100 (.rule .callMember) w.toList = some none →
      Refuses (.lit w) s := fun hw => refuses_lit_of_takes hw h
  have hword : ∀ {w : String}, w ∈ strayWords → Refuses (word w) s := fun hw =>
    refuses_strayWord hw (frontName_ne_of_callMember hs h hw)
  refine refuses_oneOf ?_
  simp only [List.map_cons, List.map_nil, List.cons_append, List.nil_append, List.forall_mem_cons,
    List.not_mem_nil, false_implies, implies_true, and_true]
  exact ⟨hlit (by decide), hlit (by decide), hlit (by decide),
    hlit (by decide), hlit (by decide), hlit (by decide),
    hword (by decide), hword (by decide), hword (by decide)⟩

theorem refuses_statementWord (hs : skipGap s = s) (h : Takes (.rule .expression) s rest)
    {w : String} (hw : w ∈ statementWords) : Refuses (word w) s := by
  have hstray : w ∈ strayWords := List.mem_append_right _ hw
  refine refuses_strayWord hstray fun hfront => ?_
  have hall : (statementWords.all fun w => [frontOperator, word "async", .rule .formalParams].all
      fun p => foresee 100 p w.toList == some none) = true := by
    decide +kernel
  have hnone := List.all_eq_true.1 hall w hw
  simp only [List.all_cons, List.all_nil, Bool.and_true, Bool.and_eq_true, beq_iff_eq] at hnone
  have hrefuses : ∀ {p : Pattern Rule}, foresee 100 p w.toList = some none → Refuses p s := by
    intro p hp
    rw [← frontName_append_behindName s, hfront]
    exact refuses_of_foresee hp
  have hid : Refuses identifier s :=
    reads_identifier.refuses (if_neg fun hid => hid.2 (hfront ▸ (strayWords_spec w hstray).2.2.1))
  have harrows : Refuses arrows s := (refuses_row (hrefuses hnone.2.1)).either
    (.rule (refuses_row (hid.either (hrefuses hnone.2.2))))
  obtain ⟨r, hr, -⟩ := takes_row_iff.1 (takes_phrase_iff.1 (takes_rule_iff.1 h))
  rcases takes_either_iff.1 (takes_rule_iff.1 hr) with hr | ⟨-, hr⟩
  · exact hr.not_refuses harrows
  · obtain ⟨m, hm, -⟩ := (takes_plainAssignment_iff (hrefuses hnone.1)).1 hr
    rw [hs] at hm
    exact frontName_ne_of_callMember hs hm hstray hfront

/-! ### The first operand -/

def gapBlanks : List Char :=
  [' ', '\t', '\n', '\x0B', '\x0C', '\r', '\u00A0', '\uFEFF', '\u2028', '\u2029']

theorem mem_gapBlanks {c : Char} (h : isGapBlank c = true) : c ∈ gapBlanks := by
  simp only [isGapBlank, Bool.or_eq_true, beq_iff_eq] at h
  simp only [gapBlanks, List.mem_cons, List.not_mem_nil, or_false]
  tauto

theorem foresee_gapBlanks :
    (gapBlanks.all fun c => foresee 100 arrows [c] == some none &&
      foresee 100 frontOperator [c] == some none) = true := by
  decide +kernel

theorem takes_assignment_of_blank {c : Char} (hc : isGapBlank c = true) (hslash : '/' ∉ c :: s)
    (hend : skipGap rest = [] ∨ ∃ t, skipGap rest = ',' :: t)
    (h : Takes (.rule .assignment) (c :: s) rest) :
    Takes (.rule .assignment) (skipGap (c :: s)) rest := by
  have hblank := List.all_eq_true.1 foresee_gapBlanks c (mem_gapBlanks hc)
  rw [Bool.and_eq_true, beq_iff_eq, beq_iff_eq] at hblank
  have harrows : Refuses arrows ([c] ++ s) := refuses_of_foresee hblank.1
  have hfront : Refuses frontOperator ([c] ++ s) := refuses_of_foresee hblank.2
  rcases takes_either_iff.1 (takes_rule_iff.1 h) with h | ⟨-, h⟩
  · exact absurd harrows h.not_refuses
  obtain ⟨m, hm, hbehind⟩ := (takes_plainAssignment_iff hfront).1 h
  have hsettled := skipGap_skipGap (c :: s)
  have hslash' : '/' ∉ skipGap (c :: s) := fun hmem =>
    hslash ((reads_gap.takes rfl).suffix.subset hmem)
  have hplain : Takes plainAssignment (skipGap (c :: s)) rest := by
    refine (takes_plainAssignment_iff (refuses_frontOperator hsettled hm)).2 ⟨m, ?_, hbehind⟩
    rw [hsettled]
    exact hm
  refine Takes.rule (Refuses.either_takes ?_ hplain)
  obtain ⟨x, hx⟩ := runs_of_isTame (p := arrows) (by decide) (skipGap (c :: s))
  refine (takes_or_refuses_of_runs hx).resolve_left fun ⟨r, hr⟩ => ?_
  obtain ⟨hhalts, hne, hcomma⟩ := strange_of_arrows hslash' hsettled hm hr
  have hrest := hbehind.eq_of_halts hhalts
  rw [hrest, skipGap_skipGap] at hend
  rcases hend with hend | ⟨t, hend⟩
  · exact hne hend
  · rw [hend] at hcomma
    exact hcomma rfl

theorem takes_expression_skipGap (hslash : '/' ∉ s) (h : Takes (.rule .expression) s []) :
    Takes (.rule .expression) (skipGap s) [] := by
  by_cases hs : skipGap s = s
  · rwa [hs]
  obtain ⟨r, hr, hmany⟩ := takes_row_iff.1 (takes_phrase_iff.1 (takes_rule_iff.1 h))
  refine Takes.rule (Takes.phrase (takes_row_iff.2 ⟨r, ?_, hmany⟩))
  cases s with
  | nil => exact absurd (skipGap_eq_self rfl rfl) hs
  | cons c s =>
    have hc : isGapBlank c = true := by
      by_contra hc
      exact hs (skipGap_cons (Bool.not_eq_true _ ▸ hc) (comment?_of_not_mem hslash))
    refine takes_assignment_of_blank hc hslash ?_ hr
    rcases takes_many_iff.1 hmany with ⟨x, hx, -⟩ | ⟨-, hnil⟩
    · obtain ⟨t, ht, -⟩ := takes_row_iff.1 hx
      exact .inr ⟨t, takes_lit.1 ht⟩
    · exact .inl hnil.symm

/-- An expression without slashes that the grammar reads to its end may be the argument of a call,
whatever follows the call. -/
theorem takes_arguments (hslash : '/' ∉ e) (h : Takes (.rule .expression) e []) (t : List Char) :
    Takes (.rule .arguments) ('(' :: (e ++ ')' :: t)) t := by
  have hslash' : '/' ∉ skipGap e := fun hmem => hslash ((reads_gap.takes rfl).suffix.subset hmem)
  have hexpression := takes_expression_skipGap hslash h
  have hsh : traceShape false (.rule .expression) .ground = some .ground := by decide
  refine takes_arguments_of_expression ?_
  rw [skipGap_append (shuts_close t) hslash]
  exact takes_append (y := .rule .expression) (shuts_close t) hsh hslash'
    (closes_of_takes_all hsh hslash' hexpression) hexpression

end EventMarkup.Script
