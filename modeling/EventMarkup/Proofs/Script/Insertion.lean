import EventMarkup.Proofs.Peg.Matches
import EventMarkup.Proofs.Script.Ending
import EventMarkup.Script.Body

/-!
# Semicolons that are put in

What becomes of the semicolons that `isBody` puts in front of lines. The text is kept with a mark on
each of them (`Marked`), and `takers?` tells which phrase of the accepted text takes it. Nothing
else is changed (`original_of_separated?`), every semicolon is taken by one phrase
(`exists_takers_of_separated?`), and a semicolon that is taken as the end of a statement has a
statement before it (`yieldAll_ne_nil_of_terminator`). But a semicolon is put in wherever the
grammar stops, whatever it was looking for there, so some are taken by other phrases
(`exists_stray_semicolon`).
-/

namespace EventMarkup.Peg

variable {ρ : Type}

namespace Tree

mutual

/-- The innermost rule around each character of a tree, from left to right, `r` being the rule
around the tree. -/
def owners (r : ρ) : Tree ρ → List ρ
  | .leaf _ => [r]
  | .node r' children => ownersAll r' children

def ownersAll (r : ρ) : List (Tree ρ) → List ρ
  | [] => []
  | t :: ts => owners r t ++ ownersAll r ts

end

mutual

theorem length_owners (r : ρ) : (t : Tree ρ) → (owners r t).length = (yield t).length
  | .leaf _ => rfl
  | .node r' children => length_ownersAll r' children

theorem length_ownersAll (r : ρ) :
    (ts : List (Tree ρ)) → (ownersAll r ts).length = (yieldAll ts).length
  | [] => rfl
  | t :: ts => by
    rw [ownersAll, yieldAll, List.length_append, List.length_append, length_owners, length_ownersAll]

end

end Tree

/-! ## What stands before a node -/

/-- Whether a match of the pattern takes something before every node of the rule. -/
def Pattern.defers [DecidableEq ρ] (empty : ρ → Bool) (r : ρ) : Pattern ρ → Bool
  | .nothing | .one _ | .text _ | .atEnd | .ahead _ | .notAhead _ => true
  | .rule r' => decide (r' ≠ r)
  | .both a b => a.defers empty r && (!a.mayBeEmpty empty || b.defers empty r)
  | .either a b => a.defers empty r && b.defers empty r
  | .star a => a.defers empty r
  | .token a => a.defers empty r
  | .phrase a => a.defers empty r

theorem Grammar.Orderly.yieldAll_ne_nil_of_defers [DecidableEq ρ] {g : Grammar ρ} (o : g.Orderly)
    {r : ρ} {p : Pattern ρ} {s : List Char} {x : Reply ρ} (h : Runs g.body p s x)
    {ts us vs ws : List (Tree ρ)} {w : Nat} {rest : List Char} {far : Reach}
    (hx : x = .matched ts w rest far) (hp : p.defers o.empty r = true)
    (hts : ts = us ++ .node r vs :: ws) : Tree.yieldAll us ≠ [] := by
  have hmem : Tree.node r vs ∈ ts := by simp [hts]
  induction h generalizing ts us ws w rest far with
  | nothing | atEnd | enough | ahead | notAhead =>
    cases hx
    simp at hmem
  | one =>
    cases hx
    simp at hmem
  | text =>
    cases hx
    simp at hmem
  | rule _ hy =>
    obtain ⟨_, -, rfl⟩ := Reply.named_eq_matched (hy.symm.trans hx)
    simp only [List.mem_singleton, Tree.node.injEq] at hmem
    exact absurd hmem.1.symm (of_decide_eq_true hp)
  | both ha _ hy iha ihb =>
    obtain ⟨ts', v, e, hb, rfl, -, -⟩ := Reply.after_eq_matched (hy.symm.trans hx)
    obtain ⟨hpa, hpb⟩ := Bool.and_eq_true_iff.1 hp
    rcases exists_of_append_eq_append hts with ⟨ws', hin⟩ | ⟨us', rfl, hin⟩
    · exact iha rfl hpa hin (by simp [hin])
    rw [Tree.yieldAll_append]
    rcases Bool.or_eq_true_iff.1 hpb with hsolid | hpb
    · -- The first part takes something, and it stands before the node.
      intro hnil
      have hwidth := (ha.append rfl).2
      rw [(List.append_eq_nil_iff.1 hnil).1, List.length_nil] at hwidth
      subst hwidth
      simp [o.mayBeEmpty_of_runs ha rfl] at hsolid
    · exact List.append_ne_nil_of_right_ne_nil _ (ihb hb hpb hin (by simp [hin]))
  | first _ ih => exact ih hx (Bool.and_eq_true_iff.1 hp).1 hts hmem
  | second _ _ hy _ ih =>
    obtain ⟨e, he, -⟩ := Reply.noting_eq_matched (hy.symm.trans hx)
    exact ih he (Bool.and_eq_true_iff.1 hp).2 hts hmem
  | more _ _ hy iha ihs =>
    obtain ⟨ts', v, e, hs, rfl, -, -⟩ := Reply.after_eq_matched (hy.symm.trans hx)
    rcases exists_of_append_eq_append hts with ⟨ws', hin⟩ | ⟨us', rfl, hin⟩
    · exact iha rfl hp hin (by simp [hin])
    · rw [Tree.yieldAll_append]
      exact List.append_ne_nil_of_right_ne_nil _ (ihs hs hp hin (by simp [hin]))
  | token _ hy ih =>
    obtain ⟨e, he, -⟩ := Reply.asToken_eq_matched (hy.symm.trans hx)
    exact ih he hp hts hmem
  | phrase _ hy ih => exact ih (Reply.asPhrase_eq_matched (hy.symm.trans hx)) hp hts hmem
  | _ => cases hx

end EventMarkup.Peg

namespace EventMarkup.Script

open Peg Text

/-! ## Texts with marks -/

/-- A text in which the characters that were put in are marked. -/
abbrev Marked := List (Char × Bool)

namespace Marked

def ofText (s : List Char) : Marked := s.map (·, false)

def text (m : Marked) : List Char := m.map (·.1)

def original (m : Marked) : List Char := text (m.filter (!·.2))

/-- The text with a marked semicolon put in at the given place. -/
def insert (m : Marked) (place : Nat) : Marked := m.take place ++ (';', true) :: m.drop place

@[simp] theorem text_ofText (s : List Char) : (ofText s).text = s := by
  simp [ofText, text, Function.comp_def]

@[simp] theorem original_ofText (s : List Char) : (ofText s).original = s := by
  have hfilter : (ofText s).filter (!·.2) = ofText s := by
    simp [ofText, List.filter_eq_self]
  rw [original, hfilter, text_ofText]

@[simp] theorem text_insert (m : Marked) (place : Nat) :
    (m.insert place).text = withSemicolon m.text place := by
  simp [insert, text, withSemicolon]

@[simp] theorem original_insert (m : Marked) (place : Nat) :
    (m.insert place).original = m.original := by
  have hfilter : (m.insert place).filter (!·.2) = m.filter (!·.2) := by
    rw [insert, List.filter_append, List.filter_cons_of_neg (by simp), ← List.filter_append,
      List.take_append_drop]
  rw [original, hfilter, original]

end Marked

/-- The text with at most `rounds` semicolons put in front of lines where the grammar stopped, if
it is a function body then. -/
def separated? : Nat → Marked → Option Marked
  | rounds, m =>
    match verdict m.text with
    | .accepted => some m
    | .stopped place =>
      match rounds with
      | 0 => none
      | rounds + 1 => if startsLine m.text place then separated? rounds (m.insert place) else none

theorem isBodyWithin_text (rounds : Nat) (m : Marked) :
    isBodyWithin rounds m.text = (separated? rounds m).isSome := by
  induction rounds generalizing m with
  | zero =>
    unfold isBodyWithin separated?
    cases verdict m.text with
    | accepted => rfl
    | stopped place => rfl
  | succ rounds ih =>
    unfold isBodyWithin separated?
    cases verdict m.text with
    | accepted => rfl
    | stopped place =>
      dsimp only
      rw [← Marked.text_insert, ih]
      cases startsLine m.text place with
      | true => rfl
      | false => rfl

theorem separated?_induction {P : Marked → Prop}
    (hinsert : ∀ m place, startsLine m.text place = true → P m → P (m.insert place))
    {rounds : Nat} {m m' : Marked} (h : separated? rounds m = some m') (hm : P m) :
    P m' ∧ verdict m'.text = .accepted := by
  induction rounds generalizing m with
  | zero =>
    unfold separated? at h
    split at h
    · rename_i hverdict
      cases h
      exact ⟨hm, hverdict⟩
    · cases h
  | succ rounds ih =>
    unfold separated? at h
    split at h
    · rename_i hverdict
      cases h
      exact ⟨hm, hverdict⟩
    · dsimp only at h
      split at h
      · rename_i hline
        exact ih h (hinsert m _ hline hm)
      · cases h

theorem original_of_separated? {rounds : Nat} {s : List Char} {m : Marked}
    (h : separated? rounds (.ofText s) = some m) :
    m.original = s ∧ ∀ entry ∈ m, entry.2 = true → entry.1 = ';' := by
  refine (separated?_induction (P := fun m => m.original = s ∧
    ∀ entry ∈ m, entry.2 = true → entry.1 = ';') ?_ h ⟨Marked.original_ofText s, ?_⟩).1
  · rintro m place - ⟨horiginal, hmarks⟩
    refine ⟨(Marked.original_insert m place).trans horiginal, ?_⟩
    intro entry hentry
    rcases List.mem_append.1 hentry with hentry | hentry
    · exact hmarks entry (List.mem_of_mem_take hentry)
    rcases List.mem_cons.1 hentry with rfl | hentry
    · exact fun _ => rfl
    · exact hmarks entry (List.mem_of_mem_drop hentry)
  · intro entry hentry
    obtain ⟨c, -, rfl⟩ := List.mem_map.1 hentry
    intro h
    cases h

/-! ## What takes the semicolons -/

theorem exists_parts_of_accepted {s : List Char} (h : verdict s = .accepted) :
    ∃ parts w far, grammar.run .body s = .matched [.node .body parts] w [] far ∧
      Tree.yieldAll parts = s := by
  have hruns := orderly.runs_run .body s
  unfold verdict at h
  split at h
  · rename_i ts w rest far hrun
    rw [hrun] at hruns
    have hmatches : Matches Rule.pattern (.rule .body) s rest := ⟨_, _, _, hruns⟩
    -- The body ends with the end of the text, behind two parts and the gaps around them.
    obtain ⟨_, -, hbody⟩ := hmatches.of_rule.of_both
    obtain ⟨_, -, hbody⟩ := hbody.of_both
    obtain ⟨_, -, hbody⟩ := hbody.of_both
    obtain ⟨_, -, hbody⟩ := hbody.of_both
    obtain ⟨_, -, hend⟩ := hbody.of_both
    obtain ⟨-, rfl⟩ := hend.of_token.of_atEnd
    have hyield := (hruns.append rfl).1
    cases hruns with
    | rule _ hy =>
      obtain ⟨parts, -, rfl⟩ := Reply.named_eq_matched hy.symm
      refine ⟨parts, w, far, hrun, ?_⟩
      simpa [Tree.yieldAll, Tree.yield] using hyield.symm
  · cases h
  · cases h

/-- Whether a semicolon that a rule takes in the body with the given parts ends a statement. -/
def endsStatement (parts : List (Peg.Tree Rule)) : Rule → Bool
  | .terminator => true
  | .body => parts.any fun
    | .node .expression _ => true
    | _ => false
  | _ => false

/-- The rules that take the semicolons which are put into a text, each with whether it ends a
statement with its semicolon, if the text becomes a function body. -/
def takers? (text : String) : Option (List (Rule × Bool)) := do
  let m ← separated? (text.toList.countP isLineEnd) (.ofText text.toList)
  match grammar.run .body m.text with
  | .matched [.node _ parts] _ _ _ =>
    some (((m.zip (Tree.ownersAll .body parts)).filter (·.1.2)).map fun entry =>
      (entry.2, endsStatement parts entry.2))
  | _ => none

/-- Every semicolon that is put into a text is taken by one rule. -/
theorem exists_takers_of_separated? {text : String} {m : Marked}
    (h : separated? (text.toList.countP isLineEnd) (.ofText text.toList) = some m) :
    ∃ takers, takers? text = some takers ∧ takers.length = m.countP (·.2) := by
  obtain ⟨-, haccepted⟩ := separated?_induction (P := fun _ => True) (fun _ _ _ _ => trivial) h
    trivial
  obtain ⟨parts, w, far, hrun, hyield⟩ := exists_parts_of_accepted haccepted
  have hlength : m.length = (Tree.ownersAll .body parts).length := by
    rw [Tree.length_ownersAll, hyield, Marked.text, List.length_map]
  have htakers : takers? text = some (((m.zip (Tree.ownersAll .body parts)).filter (·.1.2)).map
      fun entry => (entry.2, endsStatement parts entry.2)) := by
    rw [takers?, h, Option.bind_eq_bind, Option.bind_some, hrun]
  refine ⟨_, htakers, ?_⟩
  calc
    _ = (m.zip (Tree.ownersAll .body parts)).countP (·.1.2) := by
      rw [List.length_map, List.countP_eq_length_filter]
    _ = ((m.zip (Tree.ownersAll .body parts)).map (·.1)).countP (·.2) := by
      rw [List.countP_map]
      rfl
    _ = m.countP (·.2) := by
      rw [List.map_fst_zip (Nat.le_of_eq hlength)]

theorem isSome_takers? (text : String) : (takers? text).isSome = isBody text := by
  have hbody : isBody text =
      (separated? (text.toList.countP isLineEnd) (.ofText text.toList)).isSome := by
    rw [← isBodyWithin_text, Marked.text_ofText]
    rfl
  rw [hbody]
  cases h : separated? (text.toList.countP isLineEnd) (.ofText text.toList) with
  | none => simp [takers?, h]
  | some m =>
    obtain ⟨takers, htakers, -⟩ := exists_takers_of_separated? h
    rw [htakers]
    rfl

example : takers? "a\nb" = some [(.body, true)] := by decide +kernel

example : takers? "a; \x7bwhile (x)\n\x7d" = some [(.emptyStatement, false)] := by decide +kernel

theorem yieldAll_ne_nil_of_terminator {r : Rule} {s rest : List Char} {w : Nat} {far : Reach}
    {us vs ws : List (Peg.Tree Rule)}
    (h : Runs Rule.pattern r.pattern s (.matched (us ++ .node .terminator vs :: ws) w rest far)) :
    Tree.yieldAll us ≠ [] := by
  have hdefers : ∀ r : Rule, r.pattern.defers orderly.empty .terminator = true := by
    intro r
    cases r <;> decide +kernel
  exact orderly.yieldAll_ne_nil_of_defers h rfl (hdefers r) rfl

/-- A semicolon may be put in where it ends no statement. -/
theorem exists_stray_semicolon :
    ¬ ∀ text takers, takers? text = some takers → ∀ taker ∈ takers, taker.2 = true := by
  intro h
  have hhead : takers? "a; for (x\ny; z) w" = some [(.headSeparator, false)] := by decide +kernel
  exact absurd (h _ _ hhead _ (List.mem_singleton_self _)) (by decide)

end EventMarkup.Script
