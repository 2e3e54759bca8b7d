import EventMarkup.Proofs.Peg.Runs

/-!
# What a reply tells of failures

The reach of a reply is the farthest place where a reported pattern failed. Which patterns tell of a
failure is read off the patterns: a mute one never does (`Runs.reach_of_isMute`), some do whenever
they fail, and some whenever they match tell of a failure at the end of the match or behind it,
because they stop only where they cannot go on (`Runs.tells`).
-/

namespace EventMarkup.Peg

open Text

variable {ρ : Type} {body : ρ → Pattern ρ}

def Reply.reach : Reply ρ → Reach
  | .matched _ _ _ far => far
  | .failed far => far
  | .exhausted => none

namespace Pattern

/-- Whether the pattern names no rule and reports nothing. -/
def isMute : Pattern ρ → Bool
  | .nothing | .one _ | .text _ | .atEnd | .notAhead _ => true
  | .rule _ | .token _ | .phrase _ => false
  | .both a b => a.isMute && b.isMute
  | .either a b => a.isMute && b.isMute
  | .star a => a.isMute
  | .ahead a => a.isMute

end Pattern

/-- Two tables about the rules: which tell of a failure whenever they fail, and which whenever they
match. -/
structure Telling (ρ : Type) where
  failing : ρ → Bool
  matching : ρ → Bool

namespace Pattern

def isNothing : Pattern ρ → Bool
  | .nothing => true
  | _ => false

/-- Whether the pattern, when it fails and when it matches, tells of a failure. -/
def tells (t : Telling ρ) : Pattern ρ → Bool × Bool
  | .nothing | .token _ => (true, false)
  | .one _ | .text _ | .atEnd | .notAhead _ => (false, false)
  | .rule r => (t.failing r, t.matching r)
  | .both a b =>
    ((a.tells t).1 && ((b.tells t).1 || (a.tells t).2), (a.tells t).2 || (b.tells t).2)
  | .either a b =>
    ((a.tells t).1 || (b.tells t).1, (a.tells t).2 && ((b.tells t).2 || (a.tells t).1))
  | .star a => (true, (a.tells t).1)
  | .ahead a => a.tells t
  | .phrase a => (true, (a.tells t).2)

def tellsFailing (t : Telling ρ) (p : Pattern ρ) : Bool := (p.tells t).1

def tellsMatching (t : Telling ρ) (p : Pattern ρ) : Bool := (p.tells t).2

/-- Whether a match of the pattern tells of a failure at its end or behind it. -/
def tellsEnding (t : Telling ρ) : Pattern ρ → Bool
  | .both _ b => b.tellsEnding t
  | .either a b => a.tellsEnding t && (b.tellsEnding t || (b.isNothing && a.tellsFailing t))
  | .star a => a.tellsFailing t
  | .phrase a => a.tellsEnding t
  | _ => false

end Pattern

/-- The tables are right about the rules of a grammar. -/
structure Telling.Sound (t : Telling ρ) (body : ρ → Pattern ρ) : Prop where
  failing_body : ∀ r, t.failing r = true → (body r).tellsFailing t = true
  matching_body : ∀ r, t.matching r = true → (body r).tellsMatching t = true

/-! ## Reaches -/

namespace Reach

variable {a b : Reach} {j k w : Nat}

theorem mem_or_mem_of_mem_farther (h : k ∈ farther a b) : k ∈ a ∨ k ∈ b := by
  cases a with
  | none => exact .inr h
  | some m =>
    cases b with
    | none => exact .inl h
    | some n =>
      cases h
      rcases Nat.le_total m n with hle | hle
      · exact .inr (congrArg some (Nat.max_eq_right hle).symm)
      · exact .inl (congrArg some (Nat.max_eq_left hle).symm)

theorem le_of_mem_farther_right (h : k ∈ farther a b) (hj : j ∈ b) : j ≤ k := by
  cases hj
  cases a with
  | none => exact Nat.le_of_eq (Option.some.inj h)
  | some m => exact Option.some.inj h ▸ Nat.le_max_right m j

theorem exists_le_farther_left (h : j ∈ a) : ∃ k ∈ farther a b, j ≤ k := by
  cases h
  cases b with
  | none => exact ⟨j, rfl, Nat.le_refl j⟩
  | some m => exact ⟨_, rfl, Nat.le_max_left j m⟩

theorem exists_le_farther_right (h : j ∈ b) : ∃ k ∈ farther a b, j ≤ k := by
  cases h
  cases a with
  | none => exact ⟨j, rfl, Nat.le_refl j⟩
  | some m => exact ⟨_, rfl, Nat.le_max_right m j⟩

theorem farther_ne_none_iff : farther a b ≠ none ↔ a ≠ none ∨ b ≠ none := by
  cases a <;> cases b <;> simp [farther]

theorem shift_ne_none_iff : shift w a ≠ none ↔ a ≠ none := by
  cases a <;> simp [shift]

theorem mem_shift_iff : k ∈ shift w a ↔ ∃ j ∈ a, k = w + j := by
  cases a <;> simp [shift, eq_comm]

theorem exists_le_shift (h : j ∈ b) (a : Reach) : ∃ k ∈ farther a (shift w b), w + j ≤ k :=
  exists_le_farther_right (mem_shift_iff.2 ⟨j, h, rfl⟩)

end Reach

namespace Reply

variable {x : Reply ρ} {ts : List (Tree ρ)} {w : Nat} {far e : Reach}

theorem reach_after (hx : x ≠ .exhausted) :
    (x.after ts w far).reach = far.farther (x.reach.shift w) := by
  cases x with
  | matched | failed => rfl
  | exhausted => exact absurd rfl hx

theorem reach_noting (hx : x ≠ .exhausted) : (x.noting far).reach = far.farther x.reach := by
  cases x with
  | matched | failed => rfl
  | exhausted => exact absurd rfl hx

theorem named_eq_failed {r : ρ} (h : x.named r = .failed e) : x = .failed e := by
  cases x with
  | matched => cases h
  | failed => exact h
  | exhausted => cases h

end Reply

/-! ## Runs -/

section Runs

variable {p : Pattern ρ} {s : List Char} {x : Reply ρ}

theorem Runs.reach_of_isMute (h : Runs body p s x) (hp : p.isMute = true) : x.reach = none := by
  induction h with
  | rule | token | phrase => cases hp
  | @both _ _ _ _ _ _ far _ _ _ hb hy iha ihb =>
    obtain ⟨hpa, hpb⟩ := Bool.and_eq_true_iff.1 hp
    obtain rfl : far = none := iha hpa
    rw [hy, Reply.reach_after hb.ne_exhausted, ihb hpb]
    rfl
  | @second _ _ _ far _ _ _ hb hy iha ihb =>
    obtain ⟨hpa, hpb⟩ := Bool.and_eq_true_iff.1 hp
    obtain rfl : far = none := iha hpa
    rw [hy, Reply.reach_noting hb.ne_exhausted, ihb hpb]
    rfl
  | @more _ _ _ _ _ far _ _ _ hs hy iha ihs =>
    obtain rfl : far = none := iha hp
    rw [hy, Reply.reach_after hs.ne_exhausted, ihs hp]
    rfl
  | bothFails _ ih | first _ ih => exact ih (Bool.and_eq_true_iff.1 hp).1
  | enough _ ih | ahead _ ih | aheadFails _ ih => exact ih hp
  | _ => rfl

/-- What a pattern tells by its reply, if the tables are right about the rules. -/
def Pattern.Tells (t : Telling ρ) (p : Pattern ρ) : Reply ρ → Prop
  | .matched _ w _ far =>
    (p.tellsMatching t = true → far ≠ none) ∧ (p.tellsEnding t = true → ∃ k ∈ far, w ≤ k)
  | .failed far => p.tellsFailing t = true → far ≠ none
  | .exhausted => True

variable {t : Telling ρ}

theorem Pattern.Tells.of_silent {ts : List (Tree ρ)} {w : Nat} {rest : List Char} {far : Reach}
    (hmatching : p.tellsMatching t = false) (hending : p.tellsEnding t = false) :
    p.Tells t (.matched ts w rest far) :=
  ⟨fun h => absurd h (ne_true_of_eq_false hmatching),
    fun h => absurd h (ne_true_of_eq_false hending)⟩

/-- Whatever table is right about the rules, a pattern tells by its replies what it tells by the
table. -/
theorem Runs.tells (ht : t.Sound body) (h : Runs body p s x) : p.Tells t x := by
  induction h with
  | nothing | one | text | atEnd | notAhead => exact .of_silent rfl rfl
  | oneFails | oneEnds | textFails | atEndFails | notAheadFails =>
    intro hp
    cases hp
  | @rule r _ x _ _ hy ih =>
    subst hy
    cases x with
    | matched => exact ⟨fun hp => ih.1 (ht.matching_body r hp), nofun⟩
    | failed => exact fun hp => ih (ht.failing_body r hp)
    | exhausted => trivial
  | @both a b _ _ _ w far x _ _ _ hy iha ihb =>
    subst hy
    cases x with
    | matched us v rest e =>
      refine ⟨fun hp => ?_, fun hp => ?_⟩
      · rw [Reach.farther_ne_none_iff, Reach.shift_ne_none_iff]
        exact (Bool.or_eq_true_iff.1 hp).imp iha.1 ihb.1
      · obtain ⟨k, hk, hle⟩ := ihb.2 hp
        obtain ⟨n, hn, hkn⟩ := Reach.exists_le_shift hk far
        exact ⟨n, hn, by omega⟩
    | failed e =>
      intro hp
      rw [Reach.farther_ne_none_iff, Reach.shift_ne_none_iff]
      exact (Bool.or_eq_true_iff.1 (Bool.and_eq_true_iff.1 hp).2).symm.imp iha.1 ihb
    | exhausted => trivial
  | bothFails _ ih => exact fun hp => ih (Bool.and_eq_true_iff.1 hp).1
  | first _ ih =>
    exact ⟨fun hp => ih.1 (Bool.and_eq_true_iff.1 hp).1, fun hp => ih.2 (Bool.and_eq_true_iff.1 hp).1⟩
  | @second a b _ far x _ _ hb hy iha ihb =>
    subst hy
    cases x with
    | matched us v rest e =>
      refine ⟨fun hp => ?_, fun hp => ?_⟩
      · rw [Reach.farther_ne_none_iff]
        exact (Bool.or_eq_true_iff.1 (Bool.and_eq_true_iff.1 hp).2).symm.imp iha ihb.1
      · rcases Bool.or_eq_true_iff.1 (Bool.and_eq_true_iff.1 hp).2 with hp | hp
        · obtain ⟨k, hk, hle⟩ := ihb.2 hp
          obtain ⟨n, hn, hkn⟩ := Reach.exists_le_farther_right (a := far) hk
          exact ⟨n, hn, by omega⟩
        · -- the empty text ends where the first pattern failed
          obtain ⟨hnothing, hp⟩ := Bool.and_eq_true_iff.1 hp
          obtain ⟨n, hn⟩ := Option.ne_none_iff_exists'.1
            (Reach.farther_ne_none_iff.2 (.inl (iha hp) : far ≠ none ∨ e ≠ none))
          cases b with
          | nothing =>
            cases hb
            exact ⟨n, hn, Nat.zero_le n⟩
          | _ => cases hnothing
    | failed e =>
      intro hp
      rw [Reach.farther_ne_none_iff]
      exact (Bool.or_eq_true_iff.1 hp).imp iha ihb
    | exhausted => trivial
  | @more a _ _ _ w far x _ _ _ hy iha ihs =>
    subst hy
    cases x with
    | matched us v rest e =>
      refine ⟨fun hp => ?_, fun hp => ?_⟩
      · rw [Reach.farther_ne_none_iff, Reach.shift_ne_none_iff]
        exact .inr (ihs.1 hp)
      · obtain ⟨k, hk, hle⟩ := ihs.2 hp
        obtain ⟨n, hn, hkn⟩ := Reach.exists_le_shift hk far
        exact ⟨n, hn, by omega⟩
    | failed e =>
      intro hp
      rw [Reach.farther_ne_none_iff, Reach.shift_ne_none_iff]
      exact .inr (ihs hp)
    | exhausted => trivial
  | enough _ ih =>
    refine ⟨ih, fun hp => ?_⟩
    obtain ⟨n, hn⟩ := Option.ne_none_iff_exists'.1 (ih hp)
    exact ⟨n, hn, Nat.zero_le n⟩
  | ahead _ ih => exact ⟨ih.1, nofun⟩
  | aheadFails _ ih => exact ih
  | @token _ _ x _ _ hy ih =>
    subst hy
    cases x with
    | matched => exact .of_silent rfl rfl
    | failed => exact fun _ => nofun
    | exhausted => trivial
  | @phrase _ _ x _ _ hy ih =>
    subst hy
    cases x with
    | matched => exact ih
    | failed e => exact fun _ => Reach.farther_ne_none_iff.2 (.inl nofun)
    | exhausted => trivial

end Runs

end EventMarkup.Peg
