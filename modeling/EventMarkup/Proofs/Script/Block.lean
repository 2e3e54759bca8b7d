import EventMarkup.Proofs.Script.Spans

/-!
# Bodies in braces

A function body is judged in front of the end of a text, and it is written in front of the brace
that closes the function. Without slashes, what the grammar reads of it is the same in both places,
and a list of statements may end in either. But a body begins with an expression where a block
begins with a statement. So a body that the grammar takes as it stands is a block if it begins
neither with a curly brace nor with the word of a declaration that may also be a name
(`isBlock_of_takes_body`). Statements may stand in front of it (`IsStatement.isBlock_append`), also
conditions, since no statement begins with the word that would go on with one
(`refuses_else_of_statement`).
-/

namespace EventMarkup.Script

open Peg Text

variable {s t u r v k x : List Char} {y : Shape} {n : Nat}

/-! ## Functions -/

/-- The text is a list of statements in front of the brace that ends it. -/
def IsBlock (body : List Char) : Prop :=
  ∀ k, Spans (many (.rule .statement)) (body ++ '\x7d' :: k) ('\x7d' :: k)

theorem isValue_function (h : IsBlock x) :
    IsValue ("function($event)\x7b".toList ++ (x ++ ['\x7d'])) := by
  intro k hk
  have hbody : Spans braced ('\x7b' :: (x ++ '\x7d' :: k)) k :=
    (spans_mark rfl rfl _).row ((h k).row (spans_mark rfl rfl k))
  have hparams : Spans (.rule .formalParams) ("($event)\x7b".toList ++ (x ++ '\x7d' :: k))
      ('\x7b' :: (x ++ '\x7d' :: k)) :=
    spans_of_foresee (n := 100) (r := ['\x7b']) rfl (by decide) _
  have hword : Spans (word "function") ("function($event)\x7b".toList ++ (x ++ '\x7d' :: k))
      ("($event)\x7b".toList ++ (x ++ '\x7d' :: k)) :=
    spans_of_foresee (n := 100) rfl (by decide) _
  have hfunction : Spans (.rule .functionExpression)
      ("function($event)\x7b".toList ++ (x ++ '\x7d' :: k)) k :=
    .rule (Spans.row (.optional_nil (refuses_skipGap_of_foresee (n := 100) rfl (by decide) _))
      (hword.row (Spans.row
        (.optional_nil (refuses_skipGap_of_foresee (n := 100) rfl (by decide) _))
        (hparams.row hbody))))
  have htext : "function($event)\x7b".toList ++ (x ++ ['\x7d']) ++ k =
      "function($event)\x7b".toList ++ (x ++ '\x7d' :: k) := by
    simp
  rw [htext]
  refine spans_assignment_of_front rfl (by decide) (.rule (.oneOf [parenthesized,
    row [.lit "[", holedList (.rule .arrayElement), .lit "]"],
    row [.lit "\x7b", commaList (.rule .property), .lit "\x7d"]] _ ?_ hfunction)) hk.ends
  simp only [List.forall_mem_cons, List.not_mem_nil, false_implies, implies_true, and_true]
  exact ⟨refuses_skipGap_of_foresee (n := 100) rfl (by decide) _,
    refuses_skipGap_of_foresee (n := 100) rfl (by decide) _,
    refuses_skipGap_of_foresee (n := 100) rfl (by decide) _⟩

/-! ## Ends of statements -/

def statementEnd : Pattern Rule :=
  .oneOf [.rule .terminator, .ahead (.lit "\x7d"), .ahead endOfScript]

theorem shuts_brace (t : List Char) : Shuts true ('\x7d' :: t) := ⟨_, _, rfl, by decide⟩

theorem ends_brace (t : List Char) : Ends ('\x7d' :: t) := ends_cons (by decide) t

theorem spans_statementEnd_semicolon (t : List Char) : Spans statementEnd (';' :: t) t :=
  .either (.rule (spans_mark rfl rfl t))

theorem spans_statementEnd_brace (t : List Char) :
    Spans statementEnd ('\x7d' :: t) ('\x7d' :: t) := by
  have hterminator : Refuses (.rule .terminator) ('\x7d' :: t) :=
    refuses_of_foresee (n := 100) (s := ['\x7d']) (by decide)
  have hpause : Takes Leaf.pause.pattern ('\x7d' :: t) ('\x7d' :: t) := reads_pause.takes rfl
  exact .of_takes (halts_cons (by decide) t).settled (hterminator.either_takes hpause)

theorem spans_many_statement_brace (t : List Char) :
    Spans (many (.rule .statement)) ('\x7d' :: t) ('\x7d' :: t) :=
  .many_nil (refuses_skipGap_of_foresee (n := 200) (w := ['\x7d']) rfl (by decide +kernel) t)

/-! ## Statements -/

theorem spans_statement_of_expression (hbrace : (skipGap s).head? ≠ some '\x7b')
    (hlet : Refuses (word "let") (skipGap s)) (h : Spans (.rule .expression) s r)
    (hend : Spans statementEnd r k) : Spans (.rule .statement) s k := by
  obtain ⟨v, hv, -⟩ := id h
  have hs : skipGap (skipGap s) = skipGap s := skipGap_skipGap s
  have hword : ∀ {w : String}, w ∈ statementWords → Refuses (word w) (skipGap s) := fun hw =>
    refuses_statementWord hs hv hw
  have hrow : ∀ {w : String} {ps}, w ∈ statementWords →
      Refuses (row (word w :: ps)) (skipGap s) := fun hw => refuses_row (hword hw)
  have hsemicolon : Refuses (.lit ";") (skipGap s) :=
    refuses_lit_of_takes (n := 200) (by decide +kernel) hv
  have hopen : Refuses (.lit "\x7b") (skipGap s) := by
    refine (reads_text _).refuses ?_
    cases hd : dropFront? "\x7b".toList (skipGap s) with
    | none => rfl
    | some t =>
      rw [eq_append_of_dropFront? hd] at hbrace
      exact absurd rfl hbrace
  have hdeclaration : Refuses (.rule .declaration) (skipGap s) := by
    refine .rule (refuses_row (refuses_oneOf ?_))
    simp only [List.forall_mem_cons, List.not_mem_nil, false_implies, implies_true, and_true]
    exact ⟨hword (by decide), hlet, hword (by decide)⟩
  have hsimple : Spans (.rule .simpleStatement) s k := by
    refine .rule (Spans.row (.oneOf [row [word "return", .optional (.rule .expression)],
      row [word "throw", .rule .expression], word "break", word "continue",
      .rule .declaration] [] ?_ h) hend)
    simp only [List.forall_mem_cons, List.not_mem_nil, false_implies, implies_true, and_true]
    exact ⟨hrow (by decide), hrow (by decide), hword (by decide), hword (by decide), hdeclaration⟩
  refine .rule (.oneOf [.rule .emptyStatement, .rule .block, .rule .ifStatement,
    .rule .forStatement, .rule .whileStatement, .rule .doStatement, .rule .switchStatement,
    .rule .tryStatement] [] ?_ hsimple)
  simp only [List.forall_mem_cons, List.not_mem_nil, false_implies, implies_true, and_true]
  exact ⟨.rule hsemicolon, .rule (refuses_row hopen), .rule (hrow (by decide)),
    .rule (hrow (by decide)), .rule (hrow (by decide)), .rule (hrow (by decide)),
    .rule (hrow (by decide)), .rule (hrow (by decide))⟩

/-- An expression that is told by its front, in front of a brace. -/
theorem isBlock_of_foresee (hw : isSolidFront r = true) (hbrace : r.head? ≠ some '\x7b')
    (hlet : foresee 100 (word "let") r = some none)
    (h : foresee n (.rule .expression) (r ++ ['\x7d']) = some (some ['\x7d'])) : IsBlock r := by
  intro k
  have hsettled := skipGap_of_isSolidFront hw ('\x7d' :: k)
  have htext : r ++ ['\x7d'] ++ k = r ++ '\x7d' :: k := List.append_assoc ..
  have hexpression : Spans (.rule .expression) (r ++ '\x7d' :: k) ('\x7d' :: k) :=
    .of_takes hsettled (htext ▸ takes_of_foresee h)
  refine .many_cons (spans_statement_of_expression ?_ ?_ hexpression (spans_statementEnd_brace k))
    (spans_many_statement_brace k)
  · rw [hsettled]
    cases r with
    | nil => cases hw
    | cons c r => exact hbrace
  · rw [hsettled]
    exact refuses_of_foresee hlet

/-! ## Bodies -/

theorem spans_append_brace (hsh : traceShape true y .ground = some .ground) (hslash : '/' ∉ s)
    (hcloses : Closes .ground s) (h : Takes y.pattern (skipGap s) r) (k : List Char) :
    Spans y.pattern (s ++ '\x7d' :: k) (r ++ '\x7d' :: k) := by
  have hslash' : '/' ∉ skipGap s := fun hmem => hslash ((reads_gap.takes rfl).suffix.subset hmem)
  have hcloses' : Closes .ground (skipGap s) := (passes_gap [] hslash).closes hcloses
  refine ⟨_, ?_, rfl⟩
  rw [skipGap_append (shuts_brace k) hslash]
  exact takes_append (shuts_brace k) hsh hslash' hcloses' h

theorem spans_many_statement_of_takes (hslash : '/' ∉ s) (hcloses : Closes .ground s)
    (h : Takes (many (.rule .statement)) (skipGap s) r) (hr : skipGap r = []) (k : List Char) :
    Spans (many (.rule .statement)) (s ++ '\x7d' :: k) ('\x7d' :: k) := by
  have hrslash : '/' ∉ r := fun hmem =>
    hslash ((h.suffix.trans (reads_gap.takes rfl).suffix).subset hmem)
  obtain ⟨v, hv, hvr⟩ := spans_append_brace (y := Shape.many (.rule .statement)) (by decide)
    hslash hcloses h k
  refine ⟨v, hv, hvr.trans ?_⟩
  rw [skipGap_append (shuts_brace k) hrslash, hr, List.nil_append]
  exact (halts_cons (by decide) k).settled.symm

theorem semicolon_or_nil_of_takes (hslash : '/' ∉ t) (hcloses : Closes .ground t)
    (h : Takes (.optional (row [.lit ";", many (.rule .statement)])) (skipGap t) u)
    (hu : skipGap u = []) (k : List Char) :
    (∃ r, skipGap t = ';' :: r ∧
      Spans (many (.rule .statement)) (r ++ '\x7d' :: k) ('\x7d' :: k)) ∨ skipGap t = [] := by
  rcases takes_optional_iff.1 h with h | ⟨-, rfl⟩
  · obtain ⟨r, hsemicolon, hmany⟩ := takes_row_iff.1 h
    have heq : skipGap t = ';' :: r := takes_lit.1 hsemicolon
    have hrcloses : Closes .ground r :=
      (Passes.single rfl).closes (heq ▸ (passes_gap [] hslash).closes hcloses)
    have hrslash : '/' ∉ r := fun hmem => hslash ((reads_gap.takes rfl).suffix.subset
      (heq ▸ List.mem_cons_of_mem _ hmem))
    exact .inl ⟨r, heq, spans_many_statement_of_takes hrslash hrcloses hmany hu k⟩
  · exact .inr (by rwa [skipGap_skipGap] at hu)

theorem exists_of_takes_body (h : Takes (.rule .body) x r) :
    ∃ t u, Takes (.optional (.rule .expression)) (skipGap x) t ∧
      Takes (.optional (row [.lit ";", many (.rule .statement)])) (skipGap t) u ∧
      skipGap u = [] := by
  obtain ⟨s, hs, h⟩ := takes_both_iff.1 (takes_rule_iff.1 h)
  cases reads_gap.takes_iff.1 hs
  obtain ⟨t, ht, h⟩ := takes_row_iff.1 h
  obtain ⟨u, hu, h⟩ := takes_row_iff.1 h
  exact ⟨t, u, ht, hu, (takes_endOfScript_iff.1 h).1⟩

theorem closes_of_takes_body (hslash : '/' ∉ x) (h : Takes (.rule .body) x r) :
    Closes .ground (skipGap x) := by
  obtain ⟨t, u, ht, hu, hend⟩ := exists_of_takes_body h
  have hslash' : '/' ∉ skipGap x := fun hmem => hslash ((reads_gap.takes rfl).suffix.subset hmem)
  have hrow : Takes (row [.optional (.rule .expression),
      .optional (row [.lit ";", many (.rule .statement)])]) (skipGap x) u :=
    takes_row_iff.2 ⟨t, ht, hu⟩
  have hwhole : Takes (Shape.both (.row [.optional (.rule .expression),
      .optional (.row [.mark .semicolon, .many (.rule .statement)])]) (.leaf .gap)).pattern
      (skipGap x) [] := takes_both_iff.2 ⟨u, hrow, reads_gap.takes (congrArg some hend)⟩
  have hsh : traceShape true (Shape.both (.row [.optional (.rule .expression),
      .optional (.row [.mark .semicolon, .many (.rule .statement)])]) (.leaf .gap)) .ground =
      some .ground := by decide
  exact closes_of_takes_all hsh hslash' hwhole

/-- A body without slashes is a list of statements in braces, if it begins neither as a block nor as
a declaration. -/
theorem isBlock_of_takes_body (hslash : '/' ∉ x) (hbrace : (skipGap x).head? ≠ some '\x7b')
    (hlet : Refuses (word "let") (skipGap x)) (h : Takes (.rule .body) x []) : IsBlock x := by
  intro k
  have hcloses := closes_of_takes_body hslash h
  obtain ⟨t, u, ht, hu, hend⟩ := exists_of_takes_body h
  have hslash' : '/' ∉ skipGap x := fun hmem => hslash ((reads_gap.takes rfl).suffix.subset hmem)
  have htslash : '/' ∉ t := fun hmem => hslash' (ht.suffix.subset hmem)
  have hsh : traceShape true (Shape.optional (.rule .expression)) .ground = some .ground := by
    decide
  have htcloses : Closes .ground t := closes_of_takes hsh hslash' hcloses ht
  have hgap : skipGap (x ++ '\x7d' :: k) = skipGap x ++ '\x7d' :: k :=
    skipGap_append (shuts_brace k) hslash
  have htgap : skipGap (t ++ '\x7d' :: k) = skipGap t ++ '\x7d' :: k :=
    skipGap_append (shuts_brace k) htslash
  have hrest := semicolon_or_nil_of_takes htslash htcloses hu hend k
  rcases takes_optional_iff.1 ht with hexpression | ⟨-, rfl⟩
  · have hexpression : Spans (.rule .expression) (x ++ '\x7d' :: k) (t ++ '\x7d' :: k) := by
      refine ⟨_, ?_, rfl⟩
      rw [hgap]
      exact takes_append (y := .rule .expression) (shuts_brace k) (by decide) hslash' hcloses
        hexpression
    have hfront : ∀ s, Spans statementEnd (t ++ '\x7d' :: k) s →
        Spans (.rule .statement) (x ++ '\x7d' :: k) s := by
      refine fun s hs => spans_statement_of_expression ?_ ?_ hexpression hs
      · rw [hgap]
        cases hx : skipGap x with
        | nil => exact fun h => absurd (Option.some.inj h) (by decide)
        | cons c y =>
          rw [hx] at hbrace
          exact hbrace
      · rw [hgap]
        exact refuses_append (y := .word "let") (shuts_brace k) (by decide) hslash' hcloses hlet
    rcases hrest with ⟨t', heq, hmany⟩ | hnil
    · have hsemicolon := spans_statementEnd_semicolon (t' ++ '\x7d' :: k)
      refine .many_cons (hfront _ (hsemicolon.congr_left ?_)) hmany
      rw [htgap, heq]
      exact (halts_cons (by decide) _).settled.symm
    · refine .many_cons (hfront _ ((spans_statementEnd_brace k).congr_left ?_))
        (spans_many_statement_brace k)
      rw [htgap, hnil]
      exact (halts_cons (by decide) _).settled.symm
  · rw [skipGap_skipGap] at hrest
    rcases hrest with ⟨t', heq, hmany⟩ | hnil
    · have hempty : Spans (.rule .statement) (';' :: (t' ++ '\x7d' :: k)) (t' ++ '\x7d' :: k) :=
        .rule (.either (.rule (spans_mark rfl rfl _)))
      refine .many_cons (hempty.congr_left ?_) hmany
      rw [hgap, heq]
      exact (halts_cons (by decide) _).settled.symm
    · refine (spans_many_statement_brace k).congr_left ?_
      rw [hgap, hnil]
      exact (halts_cons (by decide) _).settled.symm

/-! ## Statements one after the other -/

/-- The text is a statement, whatever follows it but the other half of a condition. -/
def IsStatement (x : List Char) : Prop :=
  ∀ k, Refuses (word "else") (skipGap k) → Spans (.rule .statement) (x ++ k) k

theorem refuses_else_of_statement (hs : skipGap s = s) (h : Takes (.rule .statement) s t) :
    Refuses (word "else") s := by
  refine refuses_strayWord (by decide) fun hfront => h.not_refuses ?_
  have htext : s = "else".toList ++ behindName s := by
    rw [← hfront, frontName_append_behindName]
  have hforeseen : ∀ {p : Pattern Rule}, foresee 100 p "else".toList = some none → Refuses p s :=
    fun hp => htext ▸ refuses_of_foresee hp
  have hexpression : Refuses (.rule .expression) s := by
    obtain ⟨x, hx⟩ := runs_of_isTame (isTame_rule .expression) s
    refine (takes_or_refuses_of_runs hx).resolve_left fun ⟨r, hr⟩ => ?_
    have helse : Takes (word "else") s (behindName s) :=
      (reads_word (List.all_eq_true.1 (by decide))).takes (if_pos hfront)
    exact helse.not_refuses (refuses_statementWord hs hr (by decide))
  have hsimple : Refuses (.rule .simpleStatement) s := by
    refine .rule (refuses_row (refuses_oneOf ?_))
    simp only [List.forall_mem_cons, List.not_mem_nil, false_implies, implies_true, and_true]
    exact ⟨hforeseen (by decide), hforeseen (by decide), hforeseen (by decide),
      hforeseen (by decide), hforeseen (by decide), hexpression⟩
  refine .rule (refuses_oneOf ?_)
  simp only [List.forall_mem_cons, List.not_mem_nil, false_implies, implies_true, and_true]
  exact ⟨hforeseen (by decide), hforeseen (by decide), hforeseen (by decide),
    hforeseen (by decide), hforeseen (by decide), hforeseen (by decide), hforeseen (by decide),
    hforeseen (by decide), hsimple⟩

theorem refuses_else_of_spans (h : Spans (many (.rule .statement)) s k)
    (hk : Refuses (word "else") (skipGap k)) : Refuses (word "else") (skipGap s) := by
  obtain ⟨r, hr, hrk⟩ := h
  rcases takes_many_iff.1 hr with ⟨t, ht, -⟩ | ⟨-, rfl⟩
  · exact refuses_else_of_statement (skipGap_skipGap s) ht
  · rwa [← hrk, skipGap_skipGap] at hk

theorem IsStatement.isBlock_append (hx : IsStatement x) (hr : IsBlock r) : IsBlock (x ++ r) := by
  intro k
  have helse : Refuses (word "else") (skipGap ('\x7d' :: k)) :=
    refuses_skipGap_of_foresee (n := 100) (w := ['\x7d']) rfl (by decide) k
  rw [List.append_assoc]
  exact .many_cons (hx _ (refuses_else_of_spans (hr k) helse)) (hr k)

theorem isStatement_of_foresee (hw : isSolidFront r = true)
    (h : foresee n (.rule .statement) r = some (some [])) : IsStatement r := fun k _ =>
  spans_of_foresee hw h k

theorem isStatement_guard (h : ∀ t, Spans (.rule .expression) (x ++ ')' :: t) (')' :: t)) :
    IsStatement ("if(".toList ++ (x ++ ")return;".toList)) := by
  intro k helse
  have htext : "if(".toList ++ (x ++ ")return;".toList) ++ k =
      "if(".toList ++ (x ++ ')' :: ("return;".toList ++ k)) := by
    simp
  rw [htext]
  have hif : Spans (word "if") ("if(".toList ++ (x ++ ')' :: ("return;".toList ++ k)))
      ('(' :: (x ++ ')' :: ("return;".toList ++ k))) :=
    spans_of_foresee (n := 100) (r := ['(']) rfl (by decide) _
  have hcondition : Spans parenthesized ('(' :: (x ++ ')' :: ("return;".toList ++ k)))
      ("return;".toList ++ k) :=
    (spans_mark rfl rfl _).row ((h _).row (spans_mark rfl rfl _))
  have hreturn : Spans (.rule .statement) ("return;".toList ++ k) k :=
    spans_of_foresee (n := 200) (r := []) rfl (by decide) k
  have hstatement : Spans (.rule .ifStatement) _ k := .rule (hif.row (hcondition.row
    (hreturn.row (.optional_nil (refuses_row helse)))))
  refine .rule (.oneOf [.rule .emptyStatement, .rule .block] _ ?_ hstatement)
  simp only [List.forall_mem_cons, List.not_mem_nil, false_implies, implies_true, and_true]
  exact ⟨refuses_skipGap_of_foresee (n := 100) rfl (by decide) _,
    refuses_skipGap_of_foresee (n := 100) rfl (by decide) _⟩

end EventMarkup.Script
