import EventMarkup.Proofs.Peg.Runs

/-!
# Matching ends

An attempt that is allowed a number of steps in proportion to the length of the text never runs out
of them, provided that the grammar is orderly: no rule leads back to itself before a character is
taken, and no pattern is repeated that may match the empty text. Both are read off two tables, one
that tells which rules may match the empty text and one that bounds how many patterns are open at
once under a rule until a character is taken. `Grammar.Orderly.run_ne_exhausted` is the main
statement.
-/

namespace EventMarkup.Peg

variable {ρ : Type}

namespace Pattern

/-- Whether the pattern may match the empty text, if the table is right about the rules. -/
def mayBeEmpty (empty : ρ → Bool) : Pattern ρ → Bool
  | .nothing => true
  | .one _ => false
  | .text cs => cs.isEmpty
  | .atEnd => true
  | .rule r => empty r
  | .both a b => a.mayBeEmpty empty && b.mayBeEmpty empty
  | .either a b => a.mayBeEmpty empty || b.mayBeEmpty empty
  | .star _ => true
  | .ahead _ => true
  | .notAhead _ => true
  | .token a => a.mayBeEmpty empty
  | .phrase a => a.mayBeEmpty empty

/-- How many patterns are open at once before a character is taken, if the tables are right about
the rules. -/
def nesting (empty : ρ → Bool) (nest : ρ → Nat) : Pattern ρ → Nat
  | .nothing => 1
  | .one _ => 1
  | .text _ => 1
  | .atEnd => 1
  | .rule r => nest r + 1
  | .both a b =>
    max (a.nesting empty nest) (if a.mayBeEmpty empty then b.nesting empty nest else 0) + 1
  | .either a b => max (a.nesting empty nest) (b.nesting empty nest) + 1
  | .star a => a.nesting empty nest + 1
  | .ahead a => a.nesting empty nest + 1
  | .notAhead a => a.nesting empty nest + 1
  | .token a => a.nesting empty nest + 1
  | .phrase a => a.nesting empty nest + 1

/-- Whether all parts of the pattern keep to the bound, and none that may be empty is repeated. -/
def isTame (empty : ρ → Bool) (nest : ρ → Nat) (bound : Nat) (p : Pattern ρ) : Bool :=
  p.nesting empty nest ≤ bound &&
    match p with
    | .both a b => a.isTame empty nest bound && b.isTame empty nest bound
    | .either a b => a.isTame empty nest bound && b.isTame empty nest bound
    | .star a => !a.mayBeEmpty empty && a.isTame empty nest bound
    | .ahead a => a.isTame empty nest bound
    | .notAhead a => a.isTame empty nest bound
    | .token a => a.isTame empty nest bound
    | .phrase a => a.isTame empty nest bound
    | _ => true

end Pattern

/-- Two tables about the rules of a grammar that are right and keep to its depth. -/
structure Grammar.Orderly (g : Grammar ρ) where
  /-- The rules that may match the empty text. -/
  empty : ρ → Bool
  /-- A bound on the patterns that are open at once under a rule. -/
  nest : ρ → Nat
  empty_body : ∀ r, (g.body r).mayBeEmpty empty = true → empty r = true
  nest_body : ∀ r, (g.body r).nesting empty nest ≤ nest r
  nest_lt : ∀ r, nest r < g.depth
  tame_body : ∀ r, (g.body r).isTame empty nest g.depth = true

namespace Grammar.Orderly

variable {g : Grammar ρ} (o : g.Orderly)

theorem mayBeEmpty_of_runs {p : Pattern ρ} {s : List Char} {x : Reply ρ}
    (h : Runs g.body p s x) {ts : List (Tree ρ)} {rest : List Char} {far : Reach}
    (hx : x = .matched ts 0 rest far) : p.mayBeEmpty o.empty = true := by
  induction h generalizing ts rest far with
  | nothing s => rfl
  | one _ s => cases hx
  | @text cs s rest hd =>
    simp only [Reply.matched.injEq, List.length_eq_zero_iff] at hx
    simp [Pattern.mayBeEmpty, hx.2.1]
  | atEnd => rfl
  | rule _ hy ih =>
    obtain ⟨us, hus, rfl⟩ := Reply.named_eq_matched (hy.symm.trans hx)
    exact o.empty_body _ (ih hus)
  | @both _ _ _ _ _ w _ _ _ _ _ hy iha ihb =>
    obtain ⟨us, v, e, hus, rfl, hw, rfl⟩ := Reply.after_eq_matched (hy.symm.trans hx)
    obtain ⟨rfl, rfl⟩ : w = 0 ∧ v = 0 := by omega
    rw [Pattern.mayBeEmpty, iha rfl, ihb hus, Bool.and_self]
  | first _ ih => rw [Pattern.mayBeEmpty, ih hx, Bool.true_or]
  | second _ _ hy _ ih =>
    obtain ⟨e, he, rfl⟩ := Reply.noting_eq_matched (hy.symm.trans hx)
    rw [Pattern.mayBeEmpty, ih he, Bool.or_true]
  | more _ _ _ _ _ => rfl
  | enough _ _ => rfl
  | ahead _ _ => rfl
  | notAhead _ _ => rfl
  | token _ hy ih =>
    obtain ⟨e, he, rfl⟩ := Reply.asToken_eq_matched (hy.symm.trans hx)
    exact ih he
  | phrase _ hy ih => exact ih (Reply.asPhrase_eq_matched (hy.symm.trans hx))
  | _ => cases hx

theorem nesting_le {p : Pattern ρ} (h : p.isTame o.empty o.nest g.depth = true) :
    p.nesting o.empty o.nest ≤ g.depth := by
  unfold Pattern.isTame at h
  simp only [Bool.and_eq_true, decide_eq_true_eq] at h
  exact h.1

/-- What is left behind a pattern leaves steps for the pattern behind it. -/
theorem steps_suffice {a b : Pattern ρ} {s rest : List Char} {ts : List (Tree ρ)} {w steps : Nat}
    {far : Reach} (ha : Runs g.body a s (.matched ts w rest far))
    (hb : b.isTame o.empty o.nest g.depth = true)
    (hempty : a.mayBeEmpty o.empty = true → b.nesting o.empty o.nest + g.depth * s.length ≤ steps)
    (hsteps : g.depth * s.length ≤ steps) :
    b.nesting o.empty o.nest + g.depth * rest.length ≤ steps := by
  have hlength := ha.length_eq
  cases w with
  | zero =>
    have hrest : rest.length = s.length := by omega
    rw [hrest]
    exact hempty (o.mayBeEmpty_of_runs ha rfl)
  | succ w =>
    have hle : rest.length + 1 ≤ s.length := by omega
    have hmul : g.depth * (rest.length + 1) ≤ g.depth * s.length := Nat.mul_le_mul_left _ hle
    have hnest := o.nesting_le hb
    rw [Nat.mul_add, Nat.mul_one] at hmul
    omega

theorem attempt_ne_exhausted {steps : Nat} {p : Pattern ρ} {s : List Char}
    (hp : p.isTame o.empty o.nest g.depth = true)
    (hsteps : p.nesting o.empty o.nest + g.depth * s.length ≤ steps) :
    attempt g.body steps p s ≠ .exhausted := by
  induction steps generalizing p s with
  | zero =>
    have hpos : 0 < p.nesting o.empty o.nest := by cases p <;> simp [Pattern.nesting]
    omega
  | succ steps ih =>
    unfold Pattern.isTame at hp
    simp only [Bool.and_eq_true] at hp
    obtain ⟨hnest, hp⟩ := hp
    cases p with
    | nothing => simp [attempt]
    | one ok =>
      cases s with
      | nil => simp [attempt]
      | cons c s => simp only [attempt]; split <;> simp
    | text cs => simp only [attempt]; split <;> simp
    | atEnd => cases s <;> simp [attempt]
    | rule r =>
      have hbody := o.nest_body r
      simp only [Pattern.nesting] at hsteps
      have h := ih (o.tame_body r) (s := s) (by omega)
      simp only [attempt]
      cases hx : attempt g.body steps (g.body r) s <;> simp_all [Reply.named]
    | both a b =>
      simp only [Bool.and_eq_true] at hp
      simp only [Pattern.nesting] at hsteps
      have ha := ih hp.1 (s := s) (by omega)
      simp only [attempt]
      cases hx : attempt g.body steps a s with
      | exhausted => exact absurd hx ha
      | failed far => simp
      | matched ts w rest far =>
        have hb := ih hp.2 (s := rest) ?_
        · dsimp only
          cases hy : attempt g.body steps b rest <;> simp_all [Reply.after]
        · refine o.steps_suffice (runs_of_attempt hx (by simp)) hp.2 (fun he => ?_) (by omega)
          rw [if_pos he] at hsteps
          omega
    | either a b =>
      simp only [Bool.and_eq_true] at hp
      simp only [Pattern.nesting] at hsteps
      have ha := ih hp.1 (s := s) (by omega)
      have hb := ih hp.2 (s := s) (by omega)
      simp only [attempt]
      cases hx : attempt g.body steps a s with
      | exhausted => exact absurd hx ha
      | matched ts w rest far => simp
      | failed far =>
        dsimp only
        cases hy : attempt g.body steps b s <;> simp_all [Reply.noting]
    | star a =>
      simp only [Bool.and_eq_true, Bool.not_eq_true'] at hp
      have hstar : (Pattern.star a).isTame o.empty o.nest g.depth = true := by
        unfold Pattern.isTame
        simp [hp.1, hp.2, hnest]
      simp only [Pattern.nesting] at hsteps
      have ha := ih hp.2 (s := s) (by omega)
      simp only [attempt]
      cases hx : attempt g.body steps a s with
      | exhausted => exact absurd hx ha
      | failed far => simp
      | matched ts w rest far =>
        have hs := ih hstar (s := rest) ?_
        · dsimp only
          cases hy : attempt g.body steps (.star a) rest <;> simp_all [Reply.after]
        · refine o.steps_suffice (runs_of_attempt hx (by simp)) hstar (fun he => ?_) (by omega)
          rw [hp.1] at he
          cases he
    | ahead a =>
      simp only [Pattern.nesting] at hsteps
      have ha := ih hp (s := s) (by omega)
      simp only [attempt]
      cases hx : attempt g.body steps a s <;> simp_all
    | notAhead a =>
      simp only [Pattern.nesting] at hsteps
      have ha := ih hp (s := s) (by omega)
      simp only [attempt]
      cases hx : attempt g.body steps a s <;> simp_all
    | token a =>
      simp only [Pattern.nesting] at hsteps
      have ha := ih hp (s := s) (by omega)
      simp only [attempt]
      cases hx : attempt g.body steps a s <;> simp_all [Reply.asToken]
    | phrase a =>
      simp only [Pattern.nesting] at hsteps
      have ha := ih hp (s := s) (by omega)
      simp only [attempt]
      cases hx : attempt g.body steps a s <;> simp_all [Reply.asPhrase]

theorem rule_tame (r : ρ) : (Pattern.rule r).isTame o.empty o.nest g.depth = true := by
  have hlt : o.nest r + 1 ≤ g.depth := o.nest_lt r
  unfold Pattern.isTame
  rw [Bool.and_true]
  exact decide_eq_true hlt

theorem attempt_steps_ne_exhausted {p : Pattern ρ}
    (hp : p.isTame o.empty o.nest g.depth = true) (s : List Char) :
    attempt g.body (g.steps s.length) p s ≠ .exhausted := by
  have hnest := o.nesting_le hp
  refine o.attempt_ne_exhausted hp ?_
  rw [Grammar.steps, Nat.mul_add, Nat.mul_one]
  omega

include o

/-- Matching a rule of the grammar never runs out of steps. -/
theorem run_ne_exhausted (r : ρ) (s : List Char) : g.run r s ≠ .exhausted :=
  o.attempt_steps_ne_exhausted (o.rule_tame r) s

theorem runs_run (r : ρ) (s : List Char) : Runs g.body (.rule r) s (g.run r s) :=
  runs_of_attempt rfl (o.run_ne_exhausted r s)

theorem run_eq_iff {r : ρ} {s : List Char} {x : Reply ρ} :
    g.run r s = x ↔ Runs g.body (.rule r) s x := by
  constructor
  · rintro rfl
    exact o.runs_run r s
  · intro h
    exact (o.runs_run r s).unique h

end Grammar.Orderly

end EventMarkup.Peg
