import EventMarkup.Proofs.Interpolated

/-!
# Interpolations as arguments

An interpolation is judged as what it becomes, the argument of a call in the script expression of
its text. If it has no slashes and closes all that it opens, then what stands around it does not
matter: the call is read for itself, and a text on one line is free of problems if and only if each
of its interpolations is a list of arguments (`ofNode_interpolation_eq_nil_iff`). Such a list is a
function body by itself unless it spreads something or ends in a comma
(`isBody_of_ofNode_interpolation_eq_nil`). An interpolation that closes a bracket of its call may
join the code around it to something else (`exists_unbalanced_interpolation`).
-/

namespace EventMarkup

open Peg Text Script Markup

/-! ## Lists of arguments -/

/-- In parentheses the text is the list of arguments of a call. -/
def IsArguments (e : List Char) : Prop := Takes (.rule .arguments) ('(' :: (e ++ [')'])) []

instance (e : List Char) : Decidable (IsArguments e) :=
  decidable_of_iff _ (reads_read? (isTame_rule .arguments)).takes_iff.symm

variable {e s t rest : List Char}

theorem exists_takes_optional {p : Pattern Rule} (hp : isTame p = true) (s : List Char) :
    ∃ rest, Takes (.optional p) s rest := by
  obtain ⟨x, hx⟩ := runs_of_isTame hp s
  rcases takes_or_refuses_of_runs hx with ⟨rest, h⟩ | h
  · exact ⟨rest, h.either⟩
  · exact ⟨s, takes_optional_iff.2 (.inr ⟨h, rfl⟩)⟩

theorem refuses_close_of_closes (hcloses : Closes .ground s) (hne : s ≠ []) (k : List Char) :
    Refuses (.lit ")") (s ++ k) := by
  cases s with
  | nil => exact absurd rfl hne
  | cons c s =>
    refine (reads_text _).refuses ?_
    have hc : ¬ ')' = c := by
      rintro rfl
      have heq := hcloses.eq_of_pass rfl
      cases heq
    simp [dropFront?, hc]

/-- Of a text that closes all it opens the list of arguments takes some front, and the text is a
list of arguments if only blanks remain. What follows the call does not matter. -/
theorem exists_takes_argumentList (hslash : '/' ∉ e) (hcloses : Closes .ground e) :
    ∃ r, Takes (commaList (.rule .argument)) (skipGap e) r ∧ ∀ k,
      (skipGap r = [] → Takes (.rule .arguments) ('(' :: (e ++ ')' :: k)) k) ∧
      (skipGap r ≠ [] → Refuses (.rule .arguments) ('(' :: (e ++ ')' :: k))) := by
  have hsh : traceShape false (Shape.commaList (.rule .argument)) .ground = some .ground := by
    decide
  have hslash' : '/' ∉ skipGap e := fun hmem => hslash ((reads_gap.takes rfl).suffix.subset hmem)
  have hcloses' : Closes .ground (skipGap e) := (passes_gap [] hslash).closes hcloses
  obtain ⟨r, hr⟩ : ∃ r, Takes (Shape.commaList (.rule .argument)).pattern (skipGap e) r :=
    exists_takes_optional (by decide +kernel) (skipGap e)
  have hrslash : '/' ∉ r := fun hmem => hslash' (hr.suffix.subset hmem)
  have hrcloses : Closes .ground (skipGap r) :=
    (passes_gap [] hrslash).closes (closes_of_takes hsh hslash' hcloses' hr)
  refine ⟨r, hr, fun k => ?_⟩
  have hopen : Takes (.lit "(") ('(' :: (e ++ ')' :: k)) (e ++ ')' :: k) := takes_lit.2 rfl
  have hlist : Takes (commaList (.rule .argument)) (skipGap (e ++ ')' :: k)) (r ++ ')' :: k) := by
    rw [skipGap_append (shuts_close k) hslash]
    exact takes_append (shuts_close k) hsh hslash' hcloses' hr
  have hrest := skipGap_append (shuts_close k) hrslash
  constructor
  · intro hend
    refine .rule (takes_row_iff.2 ⟨_, hopen, takes_row_iff.2 ⟨_, hlist, ?_⟩⟩)
    rw [hrest, hend]
    exact takes_lit.2 rfl
  · intro hend
    refine .rule (hopen.row_refuses (hlist.row_refuses ?_))
    rw [hrest]
    exact refuses_close_of_closes hrcloses hend _

theorem IsArguments.takes (hslash : '/' ∉ e) (hcloses : Closes .ground e) (h : IsArguments e)
    (k : List Char) : Takes (.rule .arguments) ('(' :: (e ++ ')' :: k)) k := by
  obtain ⟨r, -, hr⟩ := exists_takes_argumentList hslash hcloses
  refine (hr k).1 (Decidable.byContradiction fun hend => ?_)
  exact h.not_refuses ((hr []).2 hend)

theorem refuses_arguments (hslash : '/' ∉ e) (hcloses : Closes .ground e) (h : ¬ IsArguments e)
    (k : List Char) : Refuses (.rule .arguments) ('(' :: (e ++ ')' :: k)) := by
  obtain ⟨r, -, hr⟩ := exists_takes_argumentList hslash hcloses
  exact (hr k).2 fun hend => h ((hr []).1 hend)

theorem takes_assignment_of_argument (hdots : ¬ "...".toList <:+: s) (hs : skipGap s = s)
    (h : Takes (.rule .argument) s t) : Takes (.rule .assignment) s t := by
  obtain ⟨v, hv, h⟩ := takes_row_iff.1 (takes_rule_iff.1 h)
  rcases takes_optional_iff.1 hv with hv | ⟨-, hvs⟩
  · exact absurd ⟨[], v, (takes_lit.1 hv).symm⟩ hdots
  · rw [hvs, hs] at h
    exact h

theorem isBody_of_isArguments (hslash : '/' ∉ e) (hcloses : Closes .ground e)
    (hdots : ¬ "...".toList <:+: e) (hcomma : ∀ front back, e = front ++ ',' :: back →
      skipGap back ≠ []) (h : IsArguments e) : Script.isBody (String.ofList e) = true := by
  obtain ⟨r, hlist, hr⟩ := exists_takes_argumentList hslash hcloses
  have hend : skipGap r = [] := Decidable.byContradiction fun hend => h.not_refuses ((hr []).2 hend)
  have hgap : ∀ x, skipGap x <:+ x := fun _ => (reads_gap.takes rfl).suffix
  refine isBody_of_takes (t := []) ?_
  rw [String.toList_ofList]
  rcases takes_optional_iff.1 hlist with hlist | ⟨-, rfl⟩
  · obtain ⟨v, hv, hlist⟩ := takes_row_iff.1 hlist
    obtain ⟨w, hmany, hlast⟩ := takes_row_iff.1 hlist
    have hve : v <:+ e := hv.suffix.trans (hgap e)
    have hwe : w <:+ e := hmany.suffix.trans ((hgap v).trans hve)
    have hw : skipGap w = [] := by
      rcases takes_optional_iff.1 hlast with hlast | ⟨-, rfl⟩
      · obtain ⟨front, hfront⟩ := (hgap w).trans hwe
        rw [takes_lit.1 hlast] at hfront
        exact absurd hend (hcomma front r hfront.symm)
      · rwa [skipGap_skipGap] at hend
    have hitem : ∀ x y, x <:+ e → Takes (row [.lit ",", .rule .argument]) x y →
        Takes (row [.lit ",", .rule .assignment]) x y := by
      intro x y hx h
      obtain ⟨z, hz, h⟩ := takes_row_iff.1 h
      refine takes_row_iff.2 ⟨z, hz, takes_assignment_of_argument (fun hmem => hdots ?_)
        (skipGap_skipGap z) h⟩
      exact hmem.trans ((hgap z).trans (hz.suffix.trans hx)).isInfix
    refine takes_body_of_optional (t := w) (Takes.either (.rule (.phrase
      (takes_row_iff.2 ⟨v, ?_, ?_⟩)))) hw
    · exact takes_assignment_of_argument (fun hmem => hdots (hmem.trans (hgap e).isInfix))
        (skipGap_skipGap e) hv
    · rcases takes_many_iff.1 hmany with ⟨x, hx, hstar⟩ | ⟨hnone, rfl⟩
      · have hxe : x <:+ e := hx.suffix.trans ((hgap v).trans hve)
        refine takes_many_iff.2 (.inl ⟨x, hitem _ _ ((hgap v).trans hve) hx,
          takes_star_mono (fun y z hy h => ?_) ?_ hstar⟩)
        · obtain ⟨m, hm, h⟩ := takes_both_iff.1 h
          exact hm.both (hitem _ _ (hm.suffix.trans (hy.trans hxe)) h)
        · refine (reads_gap.takes rfl).both_refuses (refuses_row ((reads_text _).refuses ?_))
          rw [hw]
          rfl
      · refine takes_many_iff.2 (.inr ⟨refuses_row ?_, rfl⟩)
        rw [skipGap_skipGap] at hw
        rw [hw]
        exact (reads_text _).refuses rfl
  · rw [skipGap_skipGap] at hend
    refine takes_body_of_optional (t := []) ?_ halts_nil.settled
    rw [hend]
    exact takes_optional_iff.2 (.inr ⟨(reads_read? (by decide)).refuses (by decide), rfl⟩)

/-! ## Sums with a broken call -/

/-- The call of something that is no list of arguments: the operand ends behind the name. -/
def IsBroken (x : List Char) : Prop :=
  BeginsTerm x ∧ ∀ k, ∃ u, Takes (.rule .unary) (x ++ k) ('(' :: u)

theorem halts_open (u : List Char) : Halts ('(' :: u) := halts_cons (by decide) u

theorem isBroken_call (hslash : '/' ∉ e) (hcloses : Closes .ground e) (h : ¬ IsArguments e) :
    IsBroken ('_' :: 's' :: '(' :: (e ++ [')'])) := by
  refine ⟨.inr ⟨_, rfl⟩, fun k => ⟨e ++ ')' :: k, ?_⟩⟩
  refine takes_unary_call ?_ (halts_open _).settled (halts_open _).endOperator
  refine takes_many_iff.2 (.inr ⟨?_, rfl⟩)
  obtain ⟨x, hx⟩ := runs_of_isTame (isTame_rule .suffix) ('(' :: (e ++ ')' :: k))
  refine (takes_or_refuses_of_runs hx).resolve_left fun ⟨r, hr⟩ => ?_
  exact (takes_arguments_of_suffix hr).not_refuses (refuses_arguments hslash hcloses h k)

theorem takes_star_open (u : List Char) :
    Takes (.star (.both gap (row [binaryOperator, .rule .unary]))) ('(' :: u) ('(' :: u) := by
  refine takes_star_gap_iff.2 (.inr ⟨?_, rfl⟩)
  rw [(halts_open u).settled]
  exact refuses_row (halts_open u).binaryOperator

/-- A sum ends at its first broken call. -/
theorem exists_takes_star_addends {xs : List (List Char)} (h : ∀ x ∈ xs, IsTerm x ∨ IsBroken x)
    (hbroken : ∃ x ∈ xs, IsBroken x) :
    ∃ u, Takes (.star (.both gap (row [binaryOperator, .rule .unary]))) (addends xs)
      ('(' :: u) := by
  induction xs with
  | nil =>
    obtain ⟨x, hx, -⟩ := hbroken
    cases hx
  | cons x xs ih =>
    obtain ⟨hx, hxs⟩ := List.forall_mem_cons.1 h
    have hfirst : IsBroken x → ∃ u,
        Takes (.star (.both gap (row [binaryOperator, .rule .unary]))) (addends (x :: xs))
          ('(' :: u) := by
      rintro ⟨hbegins, hx⟩
      obtain ⟨u, hu⟩ := hx (addends xs)
      exact ⟨u, takes_star_addend hbegins hu (takes_star_open u)⟩
    obtain ⟨y, hy, hbroken⟩ := hbroken
    rcases List.mem_cons.1 hy with rfl | hy
    · exact hfirst hbroken
    · refine hx.elim (fun hx => ?_) hfirst
      have hends := endsTerm_addends fun z hz => (hxs z hz).elim And.left And.left
      obtain ⟨u, hu⟩ := ih hxs ⟨y, hy, hbroken⟩
      exact ⟨u, takes_star_addend hx.1 (hx.2 _ hends) hu⟩

theorem refuses_body_of_expression {u : List Char} (hs : skipGap s = s)
    (h : Takes (.rule .expression) s ('(' :: u)) : Refuses (.rule .body) s := by
  have hrefuses : ∀ {p : Pattern Rule}, foresee 100 p ['('] = some none → Refuses p ('(' :: u) :=
    fun hp => refuses_of_foresee hp
  refine Refuses.rule ((reads_gap.takes (congrArg some hs)).both_refuses (h.either.row_refuses ?_))
  rw [(halts_open u).settled]
  refine Takes.row_refuses (takes_optional_iff.2 (.inr ⟨hrefuses (by decide), rfl⟩)) ?_
  rw [(halts_open u).settled]
  exact hrefuses (by decide)

theorem refuses_body_intercalate {xs : List String}
    (h : ∀ x ∈ xs, IsTerm x.toList ∨ IsBroken x.toList) (hbroken : ∃ x ∈ xs, IsBroken x.toList) :
    Refuses (.rule .body) ("+".intercalate xs).toList := by
  cases xs with
  | nil =>
    obtain ⟨x, hx, -⟩ := hbroken
    cases hx
  | cons x xs =>
    obtain ⟨hx, hxs⟩ := List.forall_mem_cons.1 h
    have hterms : ∀ y ∈ xs.map String.toList, IsTerm y ∨ IsBroken y := by simpa using hxs
    have hends := endsTerm_addends fun y hy => (hterms y hy).elim And.left And.left
    have hbegins : BeginsTerm x.toList := hx.elim And.left And.left
    rw [toList_intercalate_cons]
    have hcut : ∀ {u v}, Takes (.rule .unary) (x.toList ++ addends (xs.map String.toList)) v →
        skipGap v = v →
        Takes (.star (.both gap (row [binaryOperator, .rule .unary]))) v ('(' :: u) →
        Refuses (.rule .body) (x.toList ++ addends (xs.map String.toList)) := fun hu hv hstar =>
      refuses_body_of_expression (hbegins.skipGap _)
        (takes_expression_of_addends hbegins hu hv hstar (halts_open _) (by simp))
    have hfirst : IsBroken x.toList →
        Refuses (.rule .body) (x.toList ++ addends (xs.map String.toList)) := by
      intro hx
      obtain ⟨u, hu⟩ := hx.2 (addends (xs.map String.toList))
      exact hcut hu (halts_open u).settled (takes_star_open u)
    obtain ⟨y, hy, hbroken⟩ := hbroken
    rcases List.mem_cons.1 hy with rfl | hy
    · exact hfirst hbroken
    · refine hx.elim (fun hx => ?_) hfirst
      obtain ⟨u, hu⟩ := exists_takes_star_addends hterms
        ⟨y.toList, List.mem_map_of_mem hy, hbroken⟩
      exact hcut (hx.2 _ hends) (skipGap_of_endsTerm hends) hu

/-! ## Texts -/

theorem Diagnostic.ofScript_eq_nil_iff {script text : String} :
    ofScript script text = [] ↔ Script.isBody script = true := by
  unfold ofScript
  split
  · rename_i hbody
    exact iff_of_true rfl hbody
  · rename_i hbody
    refine iff_of_false ?_ hbody
    split <;> exact List.cons_ne_nil _ _

/-- A text with a script expression on one line is free of problems if and only if its
interpolations are lists of arguments, provided that they have no slashes and close what they open
and nothing else. -/
theorem ofNode_interpolation_eq_nil_iff {text script : String}
    {parts : List (List Char × List Char)} {last : List Char}
    (h : Factors text.toList parts last) (hscript : expressionOf? text = some script)
    (hline : ∀ c ∈ script.toList, isLineEnd c = false)
    (hplain : ∀ part ∈ parts, '/' ∉ trim part.2 ∧ Closes .ground (trim part.2)) :
    Diagnostic.ofNode (.interpolation script text) = [] ↔
      ∀ part ∈ parts, IsArguments (trim part.2) := by
  have hexpression := h.expressionOf?_eq
  rw [String.ofList_toList, hscript] at hexpression
  obtain ⟨hparts, rfl⟩ : parts ≠ [] ∧ script = "+".intercalate (termsOf parts last) := by
    split at hexpression
    · cases hexpression
    · exact ⟨‹_›, Option.some.inj hexpression⟩
  rw [Diagnostic.ofNode, Diagnostic.ofScript_eq_nil_iff]
  constructor
  · intro hbody part hpart
    by_contra hbad
    refine ((isBody_iff_takes hline).1 hbody).not_refuses (refuses_body_intercalate ?_ ?_)
    · refine forall_mem_termsOf (P := fun x => IsTerm x ∨ IsBroken x)
        (fun s => .inl (isTerm_quoted s)) (fun part hpart => ?_) last
      obtain ⟨hslash, hcloses⟩ := hplain part hpart
      by_cases hlist : IsArguments (trim part.2)
      · exact .inl (isTerm_call_of_arguments (hlist.takes hslash hcloses))
      · exact .inr (isBroken_call hslash hcloses hlist)
    · obtain ⟨hslash, hcloses⟩ := hplain part hpart
      refine ⟨scriptTerm part.2, List.mem_append_left _ (List.mem_flatMap.2
        ⟨part, hpart, List.mem_append_right _ (List.mem_singleton_self _)⟩), ?_⟩
      simpa [scriptTerm, trimString] using isBroken_call hslash hcloses hbad
  · intro hall
    refine isBody_intercalate (termsOf_ne_nil hparts last)
      (forall_mem_termsOf isTerm_quoted (fun part hpart => ?_) last)
    obtain ⟨hslash, hcloses⟩ := hplain part hpart
    exact isTerm_call_of_arguments ((hall part hpart).takes hslash hcloses)

/-- Where no problem is reported for a text, each interpolation is a function body by itself, if it
neither spreads anything nor ends in a comma. -/
theorem isBody_of_ofNode_interpolation_eq_nil {text script : String}
    {parts : List (List Char × List Char)} {last : List Char}
    (h : Factors text.toList parts last) (hscript : expressionOf? text = some script)
    (hline : ∀ c ∈ script.toList, isLineEnd c = false)
    (hplain : ∀ part ∈ parts, '/' ∉ trim part.2 ∧ Closes .ground (trim part.2))
    (hnone : Diagnostic.ofNode (.interpolation script text) = []) :
    ∀ part ∈ parts, ¬ "...".toList <:+: trim part.2 →
      (∀ front back, trim part.2 = front ++ ',' :: back → skipGap back ≠ []) →
      Script.isBody (String.ofList (trim part.2)) = true := by
  intro part hpart hdots hcomma
  obtain ⟨hslash, hcloses⟩ := hplain part hpart
  exact isBody_of_isArguments hslash hcloses hdots hcomma
    ((ofNode_interpolation_eq_nil_iff h hscript hline hplain).1 hnone part hpart)

/-- Both conditions on the interpolation are needed. -/
example : (IsArguments "...a".toList ∧ Script.isBody "...a" = false) ∧
    IsArguments "a,".toList ∧ Script.isBody "a," = false := by
  decide +kernel

end EventMarkup
