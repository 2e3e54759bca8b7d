import EventMarkup.Proofs.Script.Ending
import EventMarkup.Proofs.Script.PathCut
import EventMarkup.Proofs.Script.Segments
import EventMarkup.Proofs.Iteration.Cut

/-!
# Activations

To match a pattern against a text, its parts are matched in turn, each at some place of the text,
and their parts before they are done. An activation is a pattern at a place; `Opens` says which
activations stand directly inside of one, and `Nested` how many levels lie between two. An attempt
runs out of its steps if and only if activations nest as deep as it has steps
(`attempt_eq_exhausted_iff`), so steps that suffice bound the nesting. Then no pattern is open
inside of itself at one place either, for it would be so as often as one likes (`Nested.again`).

`Grammar.Ends` lists what it means that matching a rule ends. Every rule of an orderly grammar does
(`Grammar.Orderly.ends`), and `matching_ends` says it of the rules that the library starts to match
with.
-/

namespace EventMarkup.Peg

variable {ρ : Type} {body : ρ → Pattern ρ} {p q q' : Pattern ρ} {s t t' : List Char} {n m : Nat}

/-! ## What is open inside of what -/

/-- To match the first pattern against the first text, the second pattern is matched against the
second text. -/
inductive Opens (body : ρ → Pattern ρ) :
    Pattern ρ → List Char → Pattern ρ → List Char → Prop where
  | rule (r : ρ) (s : List Char) : Opens body (.rule r) s (body r) s
  | bothFirst (a b : Pattern ρ) (s : List Char) : Opens body (.both a b) s a s
  /-- The second of two patterns is matched behind what the first one took. -/
  | bothSecond {a : Pattern ρ} (b : Pattern ρ) {s t : List Char} (h : Matches body a s t) :
    Opens body (.both a b) s b t
  | eitherFirst (a b : Pattern ρ) (s : List Char) : Opens body (.either a b) s a s
  /-- The second alternative is tried where the first one fails. -/
  | eitherSecond {a : Pattern ρ} (b : Pattern ρ) {s : List Char} (h : Fails body a s) :
    Opens body (.either a b) s b s
  | round (a : Pattern ρ) (s : List Char) : Opens body (.star a) s a s
  /-- A repetition goes on behind what a round took. -/
  | again {a : Pattern ρ} {s t : List Char} (h : Matches body a s t) :
    Opens body (.star a) s (.star a) t
  | ahead (a : Pattern ρ) (s : List Char) : Opens body (.ahead a) s a s
  | notAhead (a : Pattern ρ) (s : List Char) : Opens body (.notAhead a) s a s
  | token (a : Pattern ρ) (s : List Char) : Opens body (.token a) s a s
  | phrase (a : Pattern ρ) (s : List Char) : Opens body (.phrase a) s a s

/-- The second pattern is open at the second text, the given number of levels inside of the first
pattern at the first text. -/
inductive Nested (body : ρ → Pattern ρ) :
    Nat → Pattern ρ → List Char → Pattern ρ → List Char → Prop where
  | here (p : Pattern ρ) (s : List Char) : Nested body 0 p s p s
  | inside {n : Nat} {p q q' : Pattern ρ} {s t t' : List Char} (h : Opens body p s q t)
    (hq : Nested body n q t q' t') : Nested body (n + 1) p s q' t'

theorem Nested.trans (h : Nested body n p s q t) (h' : Nested body m q t q' t') :
    Nested body (n + m) p s q' t' := by
  induction h with
  | here => rwa [Nat.zero_add]
  | inside hopens _ ih =>
    rw [Nat.add_right_comm]
    exact .inside hopens (ih h')

/-- A pattern that is open inside of itself at the same place is so as often as one likes. -/
theorem Nested.again (h : Nested body n p s p s) (k : Nat) : Nested body (k * n) p s p s := by
  induction k with
  | zero =>
    rw [Nat.zero_mul]
    exact .here p s
  | succ k ih =>
    rw [Nat.succ_mul]
    exact ih.trans h

theorem Opens.suffix (h : Opens body p s q t) : t <:+ s := by
  cases h with
  | bothSecond _ ha => exact ha.suffix
  | again ha => exact ha.suffix
  | _ => exact List.suffix_refl _

theorem Nested.suffix (h : Nested body n p s q t) : t <:+ s := by
  induction h with
  | here => exact List.suffix_refl _
  | inside hopens _ ih => exact ih.trans hopens.suffix

/-! ## Attempts that run out of steps -/

theorem attempt_eq_or_exhausted {x : Reply ρ} (h : Runs body p s x) (n : Nat) :
    attempt body n p s = x ∨ attempt body n p s = .exhausted := by
  by_cases hx : attempt body n p s = .exhausted
  · exact .inr hx
  · exact .inl ((runs_of_attempt rfl hx).unique h)

section Exhausted

variable {ts : List (Tree ρ)} {w : Nat} {far : Reach} {x : Reply ρ}

theorem Reply.named_eq_exhausted_iff {r : ρ} : x.named r = .exhausted ↔ x = .exhausted := by
  cases x <;> simp [Reply.named]

theorem Reply.after_eq_exhausted_iff : x.after ts w far = .exhausted ↔ x = .exhausted := by
  cases x <;> simp [Reply.after]

theorem Reply.noting_eq_exhausted_iff : x.noting far = .exhausted ↔ x = .exhausted := by
  cases x <;> simp [Reply.noting]

theorem Reply.asToken_eq_exhausted_iff : x.asToken = .exhausted ↔ x = .exhausted := by
  cases x <;> simp [Reply.asToken]

theorem Reply.asPhrase_eq_exhausted_iff : x.asPhrase = .exhausted ↔ x = .exhausted := by
  cases x <;> simp [Reply.asPhrase]

end Exhausted

theorem exists_opens_of_exhausted (h : attempt body (n + 1) p s = .exhausted) :
    ∃ q t, Opens body p s q t ∧ attempt body n q t = .exhausted := by
  cases p with
  | nothing => cases h
  | one ok =>
    cases s with
    | nil => cases h
    | cons c s =>
      simp only [attempt] at h
      split at h <;> cases h
  | text cs =>
    simp only [attempt] at h
    split at h <;> cases h
  | atEnd => cases s <;> cases h
  | rule r => exact ⟨body r, s, .rule r s, Reply.named_eq_exhausted_iff.1 h⟩
  | both a b =>
    simp only [attempt] at h
    split at h
    · rename_i ts w rest far ha
      exact ⟨b, rest, .bothSecond b ⟨ts, w, far, runs_of_attempt ha (by simp)⟩,
        Reply.after_eq_exhausted_iff.1 h⟩
    · cases h
    · rename_i ha
      exact ⟨a, s, .bothFirst a b s, ha⟩
  | either a b =>
    simp only [attempt] at h
    split at h
    · cases h
    · rename_i far ha
      exact ⟨b, s, .eitherSecond b ⟨far, runs_of_attempt ha (by simp)⟩,
        Reply.noting_eq_exhausted_iff.1 h⟩
    · rename_i ha
      exact ⟨a, s, .eitherFirst a b s, ha⟩
  | star a =>
    simp only [attempt] at h
    split at h
    · rename_i ts w rest far ha
      exact ⟨.star a, rest, .again ⟨ts, w, far, runs_of_attempt ha (by simp)⟩,
        Reply.after_eq_exhausted_iff.1 h⟩
    · cases h
    · rename_i ha
      exact ⟨a, s, .round a s, ha⟩
  | ahead a =>
    simp only [attempt] at h
    split at h
    · cases h
    · cases h
    · rename_i ha
      exact ⟨a, s, .ahead a s, ha⟩
  | notAhead a =>
    simp only [attempt] at h
    split at h
    · cases h
    · cases h
    · rename_i ha
      exact ⟨a, s, .notAhead a s, ha⟩
  | token a => exact ⟨a, s, .token a s, Reply.asToken_eq_exhausted_iff.1 h⟩
  | phrase a => exact ⟨a, s, .phrase a s, Reply.asPhrase_eq_exhausted_iff.1 h⟩

theorem Opens.exhausted (h : Opens body p s q t) (hq : attempt body n q t = .exhausted) :
    attempt body (n + 1) p s = .exhausted := by
  cases h with
  | rule r => simp [attempt, hq, Reply.named]
  | bothFirst a b => simp [attempt, hq]
  | bothSecond b ha =>
    obtain ⟨ts, w, far, ha⟩ := ha
    rcases attempt_eq_or_exhausted ha n with ha | ha <;> simp [attempt, ha, hq, Reply.after]
  | eitherFirst a b => simp [attempt, hq]
  | eitherSecond b ha =>
    obtain ⟨far, ha⟩ := ha
    rcases attempt_eq_or_exhausted ha n with ha | ha <;> simp [attempt, ha, hq, Reply.noting]
  | round a => simp [attempt, hq]
  | again ha =>
    obtain ⟨ts, w, far, ha⟩ := ha
    rcases attempt_eq_or_exhausted ha n with ha | ha <;> simp [attempt, ha, hq, Reply.after]
  | ahead a => simp [attempt, hq]
  | notAhead a => simp [attempt, hq]
  | token a => simp [attempt, hq, Reply.asToken]
  | phrase a => simp [attempt, hq, Reply.asPhrase]

/-- An attempt runs out of its steps exactly if activations nest as deep as it has steps. -/
theorem attempt_eq_exhausted_iff :
    attempt body n p s = .exhausted ↔ ∃ q t, Nested body n p s q t := by
  induction n generalizing p s with
  | zero => exact ⟨fun _ => ⟨p, s, .here p s⟩, fun _ => rfl⟩
  | succ n ih =>
    constructor
    · intro h
      obtain ⟨q, t, hopens, hq⟩ := exists_opens_of_exhausted h
      obtain ⟨q', t', hnested⟩ := ih.1 hq
      exact ⟨q', t', .inside hopens hnested⟩
    · rintro ⟨q', t', h⟩
      cases h with
      | inside hopens hnested => exact hopens.exhausted (ih.2 ⟨q', t', hnested⟩)

/-! ## Repetitions -/

/-- The first pattern repeats the second, with nothing between the rounds or with a gap. -/
inductive Repeats (gap : Pattern ρ) : Pattern ρ → Pattern ρ → Prop where
  | star (a : Pattern ρ) : Repeats gap (.star a) a
  | plus (a : Pattern ρ) : Repeats gap (.plus a) a
  | starSpaced (a : Pattern ρ) : Repeats gap (.starSpaced gap a) a

/-- Matching the rule against the text ends. What is skipped between the rounds of repetitions is
the gap. -/
structure Grammar.Ends (g : Grammar ρ) (gap : Pattern ρ) (r : ρ) (s : List Char) : Prop where
  /-- The steps that the text is allowed suffice. -/
  run_ne_exhausted : g.run r s ≠ .exhausted
  /-- Activations nest at most in proportion to the length of the text. -/
  nested_lt : ∀ {n p t}, Nested g.body n (.rule r) s p t → n < g.depth * (s.length + 1)
  /-- Where a pattern is open inside of itself, something has been taken in between. -/
  advances : ∀ {n m p t u}, Nested g.body n (.rule r) s p t → Nested g.body (m + 1) p t p u →
    u.length < t.length
  /-- No round of a repetition takes nothing. -/
  round_advances : ∀ {n p a t}, Nested g.body n (.rule r) s p t → Repeats gap p a →
    ∀ {u v}, Matches g.body a u v → v.length < u.length

namespace Grammar.Orderly

variable {g : Grammar ρ} (o : g.Orderly)

theorem isTame_of_opens (hp : p.isTame o.empty o.nest g.depth = true)
    (h : Opens g.body p s q t) : q.isTame o.empty o.nest g.depth = true := by
  cases h with
  | rule r => exact o.tame_body r
  | again => exact hp
  | _ =>
    simp only [Pattern.isTame, Bool.and_eq_true] at hp
    simp only [hp]

theorem isTame_of_nested (hp : p.isTame o.empty o.nest g.depth = true)
    (h : Nested g.body n p s q t) : q.isTame o.empty o.nest g.depth = true := by
  induction h with
  | here => exact hp
  | inside hopens _ ih => exact ih (o.isTame_of_opens hp hopens)

theorem mayBeEmpty_of_star {a : Pattern ρ}
    (h : (Pattern.star a).isTame o.empty o.nest g.depth = true) :
    a.mayBeEmpty o.empty = false := by
  simp only [Pattern.isTame, Bool.and_eq_true, Bool.not_eq_true'] at h
  exact h.2.1

theorem mayBeEmpty_of_repeats {gap a : Pattern ρ} (hgap : gap.mayBeEmpty o.empty = true)
    (hp : p.isTame o.empty o.nest g.depth = true) (h : Repeats gap p a) :
    a.mayBeEmpty o.empty = false := by
  cases h with
  | star => exact o.mayBeEmpty_of_star hp
  | plus =>
    unfold Pattern.plus Pattern.isTame at hp
    simp only [Bool.and_eq_true] at hp
    exact o.mayBeEmpty_of_star hp.2.2
  | starSpaced =>
    unfold Pattern.starSpaced Pattern.optional Pattern.isTame at hp
    simp only [Bool.and_eq_true] at hp
    obtain ⟨-, hboth, -⟩ := hp
    unfold Pattern.isTame at hboth
    simp only [Bool.and_eq_true] at hboth
    -- A round is a gap and the pattern; as the gap may be empty, the pattern is not.
    have hround := o.mayBeEmpty_of_star hboth.2.2
    rwa [Pattern.mayBeEmpty, hgap, Bool.true_and] at hround

theorem length_lt_of_matches {a : Pattern ρ} (ha : a.mayBeEmpty o.empty = false)
    (h : Matches g.body a s t) : t.length < s.length := by
  obtain ⟨ts, w, far, h⟩ := h
  have hlength := h.length_eq
  cases w with
  | zero =>
    rw [o.mayBeEmpty_of_runs h rfl] at ha
    cases ha
  | succ w => omega

include o

theorem nested_lt {r : ρ} (h : Nested g.body n (.rule r) s p t) :
    n < g.depth * (s.length + 1) := by
  refine Nat.lt_of_not_le fun hn => ?_
  have hexhausted : attempt g.body n (.rule r) s = .exhausted :=
    attempt_eq_exhausted_iff.2 ⟨p, t, h⟩
  have hnest := o.nesting_le (o.rule_tame r)
  refine o.attempt_ne_exhausted (o.rule_tame r) ?_ hexhausted
  rw [Nat.mul_add, Nat.mul_one] at hn
  omega

theorem ends {gap : Pattern ρ} (hgap : gap.mayBeEmpty o.empty = true) (r : ρ) (s : List Char) :
    g.Ends gap r s where
  run_ne_exhausted := o.run_ne_exhausted r s
  nested_lt := o.nested_lt
  advances {n m p t u} hp hagain := by
    refine Nat.lt_of_le_of_ne hagain.suffix.length_le fun hlength => ?_
    -- Otherwise the pattern would be open inside of itself deeper than anything can be.
    obtain rfl := hagain.suffix.eq_of_length hlength
    have hdeep := o.nested_lt (hp.trans (hagain.again (g.depth * (s.length + 1))))
    have hle := Nat.le_mul_of_pos_right (g.depth * (s.length + 1)) (by omega : 0 < m + 1)
    omega
  round_advances hp hrepeats _ _ h :=
    o.length_lt_of_matches
      (o.mayBeEmpty_of_repeats hgap (o.isTame_of_nested (o.rule_tame r) hp) hrepeats) h

end Grammar.Orderly

end EventMarkup.Peg

namespace EventMarkup

open Peg

/-- Whatever the text, matching ends for paths by either of their grammars, names, function bodies,
scripts with literals, iterations and lists of items. The rounds of a repetition in a function body
may have blanks and comments between them; the other grammars skip nothing. -/
theorem matching_ends (s : List Char) :
    Script.pathGrammar.Ends .nothing .path s ∧ Script.lookGrammar.Ends .nothing .path s ∧
      Script.pathGrammar.Ends .nothing .bareName s ∧ Script.grammar.Ends Script.gap .body s ∧
      Script.literalGrammar.Ends .nothing .script s ∧
      Iteration.grammar.Ends .nothing .iteration s ∧ Iteration.grammar.Ends .nothing .list s :=
  ⟨Script.pathOrderly.ends rfl .path s, Script.lookOrderly.ends rfl .path s,
    Script.pathOrderly.ends rfl .bareName s, Script.orderly.ends rfl .body s,
    Script.literalOrderly.ends rfl .script s, Iteration.orderly.ends rfl .iteration s,
    Iteration.orderly.ends rfl .list s⟩

end EventMarkup
