import EventMarkup.Proofs.Peg.Local
import EventMarkup.Proofs.Peg.Matches
import EventMarkup.Proofs.Script.Ending

/-!
# Reading tokens

What a token takes of a text is a function of the text. `Reads p f` says that the pattern `p` takes
the text up to `f s`, and fails where `f` gives nothing. The combinators of patterns turn into
combinators of such functions, and every pattern that the steps of the grammar suffice for is read
by some function.
-/

namespace EventMarkup.Script

open Peg Text

/-- The pattern matches the front of a text, up to the rest. -/
def Takes (p : Pattern Rule) (s rest : List Char) : Prop :=
  ∃ ts w far, Runs Rule.pattern p s (.matched ts w rest far)

def Refuses (p : Pattern Rule) (s : List Char) : Prop :=
  ∃ far, Runs Rule.pattern p s (.failed far)

/-- What the pattern takes: all up to the given rest, or nothing. -/
def Outcome (p : Pattern Rule) (s : List Char) : Option (List Char) → Prop
  | some rest => Takes p s rest
  | none => Refuses p s

/-- What the pattern takes is told by a function. -/
def Reads (p : Pattern Rule) (f : List Char → Option (List Char)) : Prop :=
  ∀ s, Outcome p s (f s)

variable {p a b : Pattern Rule} {f g : List Char → Option (List Char)} {s t rest : List Char}

theorem Takes.unique (h : Takes p s rest) (h' : Takes p s t) : rest = t := Matches.unique h h'

theorem Takes.not_refuses (h : Takes p s rest) : ¬ Refuses p s := Matches.not_fails h

theorem Takes.suffix (h : Takes p s rest) : rest <:+ s := Matches.suffix h

theorem takes_or_refuses_of_runs {x : Reply Rule} (h : Runs Rule.pattern p s x) :
    (∃ rest, Takes p s rest) ∨ Refuses p s :=
  matches_or_fails_of_runs h

theorem Reads.takes (h : Reads p f) (hf : f s = some rest) : Takes p s rest := by
  have hs := h s
  rwa [hf] at hs

theorem Reads.refuses (h : Reads p f) (hf : f s = none) : Refuses p s := by
  have hs := h s
  rwa [hf] at hs

theorem Reads.takes_iff (h : Reads p f) : Takes p s rest ↔ f s = some rest := by
  refine ⟨fun ht => ?_, h.takes⟩
  cases hf : f s with
  | none => exact absurd (h.refuses hf) ht.not_refuses
  | some t => rw [ht.unique (h.takes hf)]

theorem Reads.refuses_iff (h : Reads p f) : Refuses p s ↔ f s = none := by
  refine ⟨fun hr => ?_, h.refuses⟩
  cases hf : f s with
  | none => rfl
  | some t => exact absurd hr (h.takes hf).not_refuses

theorem Reads.congr (h : Reads p f) (hfg : ∀ s, f s = g s) : Reads p g := by
  intro s
  rw [← hfg s]
  exact h s

/-! ## Combinators -/

theorem Takes.both (ha : Takes a s t) (hb : Takes b t rest) : Takes (.both a b) s rest :=
  Matches.both ha hb

theorem Refuses.both (ha : Refuses a s) : Refuses (.both a b) s := Fails.both ha

theorem Takes.both_refuses (ha : Takes a s t) (hb : Refuses b t) : Refuses (.both a b) s :=
  Matches.both_fails ha hb

theorem Takes.either (ha : Takes a s rest) : Takes (.either a b) s rest := Matches.either ha

theorem Refuses.either_takes (ha : Refuses a s) (hb : Takes b s rest) :
    Takes (.either a b) s rest :=
  Fails.either_matches ha hb

theorem Refuses.either (ha : Refuses a s) (hb : Refuses b s) : Refuses (.either a b) s :=
  Fails.either ha hb

theorem Takes.more (ha : Takes a s t) (hs : Takes (.star a) t rest) : Takes (.star a) s rest :=
  Matches.more ha hs

theorem Refuses.enough (ha : Refuses a s) : Takes (.star a) s s := Fails.enough ha

theorem Takes.notAhead (ha : Takes a s t) : Refuses (.notAhead a) s := Matches.notAhead ha

theorem Refuses.notAhead (ha : Refuses a s) : Takes (.notAhead a) s s := Fails.notAhead ha

theorem Takes.token (ha : Takes a s rest) : Takes (.token a) s rest := Matches.token ha

theorem Refuses.token (ha : Refuses a s) : Refuses (.token a) s := Fails.token ha

theorem Takes.rule {r : Rule} (h : Takes r.pattern s rest) : Takes (.rule r) s rest :=
  Matches.rule h

theorem Refuses.rule {r : Rule} (h : Refuses r.pattern s) : Refuses (.rule r) s := Fails.rule h

theorem Takes.phrase (h : Takes a s rest) : Takes (.phrase a) s rest := Matches.phrase h

theorem Refuses.phrase (h : Refuses a s) : Refuses (.phrase a) s := Fails.phrase h

theorem Takes.nothing (s : List Char) : Takes .nothing s s := Matches.nothing s

theorem takes_both_iff : Takes (.both a b) s rest ↔ ∃ t, Takes a s t ∧ Takes b t rest :=
  matches_both_iff

theorem takes_either_iff :
    Takes (.either a b) s rest ↔ Takes a s rest ∨ Refuses a s ∧ Takes b s rest :=
  matches_either_iff

theorem takes_star_iff :
    Takes (.star a) s rest ↔
      (∃ t, Takes a s t ∧ Takes (.star a) t rest) ∨ Refuses a s ∧ rest = s :=
  matches_star_iff

theorem takes_rule_iff {r : Rule} : Takes (.rule r) s rest ↔ Takes r.pattern s rest :=
  matches_rule_iff

theorem takes_phrase_iff : Takes (.phrase a) s rest ↔ Takes a s rest := matches_phrase_iff

theorem takes_optional_iff :
    Takes (.optional a) s rest ↔ Takes a s rest ∨ Refuses a s ∧ rest = s :=
  matches_optional_iff

theorem refuses_oneOf {ps : List (Pattern Rule)} (h : ∀ p ∈ ps, Refuses p s) :
    Refuses (.oneOf ps) s :=
  fails_oneOf h

theorem takes_oneOf (before after : List (Pattern Rule)) (h : ∀ q ∈ before, Refuses q s)
    (hp : Takes p s rest) : Takes (.oneOf (before ++ p :: after)) s rest :=
  matches_oneOf before after h hp

theorem Takes.both_outcome {o : Option (List Char)} (ha : Takes a s t) (hb : Outcome b t o) :
    Outcome (.both a b) s o := by
  cases o with
  | none => exact ha.both_refuses hb
  | some _ => exact ha.both hb

theorem Refuses.either_outcome {o : Option (List Char)} (ha : Refuses a s) (hb : Outcome b s o) :
    Outcome (.either a b) s o := by
  cases o with
  | none => exact ha.either hb
  | some _ => exact ha.either_takes hb

theorem Outcome.token {o : Option (List Char)} (h : Outcome a s o) : Outcome (.token a) s o := by
  cases o with
  | none => exact Refuses.token h
  | some _ => exact Takes.token h

theorem Outcome.rule {r : Rule} {o : Option (List Char)} (h : Outcome r.pattern s o) :
    Outcome (.rule r) s o := by
  cases o with
  | none => exact Refuses.rule h
  | some _ => exact Takes.rule h

theorem Outcome.phrase {o : Option (List Char)} (h : Outcome a s o) : Outcome (.phrase a) s o := by
  cases o with
  | none => exact Refuses.phrase h
  | some _ => exact Takes.phrase h

theorem Reads.both (ha : Reads a f) (hb : Reads b g) :
    Reads (.both a b) fun s => (f s).bind g := by
  intro s
  show Outcome (.both a b) s ((f s).bind g)
  cases hf : f s with
  | none => exact (ha.refuses hf).both
  | some t => exact (ha.takes hf).both_outcome (hb t)

theorem Reads.either (ha : Reads a f) (hb : Reads b g) :
    Reads (.either a b) fun s => (f s).or (g s) := by
  intro s
  show Outcome (.either a b) s ((f s).or (g s))
  cases hf : f s with
  | some t => exact (ha.takes hf).either
  | none => exact (ha.refuses hf).either_outcome (hb s)

theorem Reads.token (ha : Reads a f) : Reads (.token a) f := fun s => (ha s).token

theorem Reads.notAhead (ha : Reads a f) :
    Reads (.notAhead a) fun s => if (f s).isSome then none else some s := by
  intro s
  show Outcome (.notAhead a) s (if (f s).isSome then none else some s)
  cases hf : f s with
  | none => exact (ha.refuses hf).notAhead
  | some t => exact (ha.takes hf).notAhead

/-- The rest of a text behind one character that satisfies the test. -/
def one? (ok : Char → Bool) : List Char → Option (List Char)
  | c :: s => if ok c then some s else none
  | [] => none

theorem reads_one (ok : Char → Bool) : Reads (.one ok) (one? ok) := by
  intro s
  cases s with
  | nil => exact ⟨_, .oneEnds ok⟩
  | cons c s =>
    rw [one?]
    cases hc : ok c with
    | true => exact ⟨_, _, _, .one hc s⟩
    | false => exact ⟨_, .oneFails hc s⟩

theorem reads_text (cs : List Char) : Reads (.text cs) (dropFront? cs) := by
  intro s
  cases hd : dropFront? cs s with
  | none => exact ⟨_, .textFails hd⟩
  | some rest => exact ⟨_, _, _, .text hd⟩

theorem takes_lit {w : String} : Takes (.lit w) s rest ↔ s = w.toList ++ rest := by
  refine (reads_text w.toList).takes_iff.trans ⟨eq_append_of_dropFront?, ?_⟩
  rintro rfl
  exact dropFront?_append _ _

theorem reads_star_one (ok : Char → Bool) :
    Reads (.star (.one ok)) fun s => some (s.dropWhile ok) :=
  matches_star_one ok

/-! ## Patterns that end -/

/-- Whether the steps of the grammar suffice for a pattern. -/
def isTame (p : Pattern Rule) : Bool := p.isTame orderly.empty orderly.nest grammar.depth

def read? (p : Pattern Rule) (s : List Char) : Option (List Char) :=
  match attempt Rule.pattern (grammar.steps s.length) p s with
  | .matched _ _ rest _ => some rest
  | _ => none

theorem runs_of_isTame (h : isTame p = true) (s : List Char) :
    ∃ x, Runs Rule.pattern p s x :=
  ⟨_, runs_of_attempt rfl (orderly.attempt_steps_ne_exhausted h s)⟩

theorem reads_read? (h : isTame p = true) : Reads p (read? p) := by
  intro s
  have hne := orderly.attempt_steps_ne_exhausted h s
  have hruns := runs_of_attempt rfl hne
  unfold read?
  show Outcome p s (match attempt grammar.body (grammar.steps s.length) p s with
    | .matched _ _ rest _ => some rest
    | _ => none)
  cases hx : attempt grammar.body (grammar.steps s.length) p s with
  | matched ts w rest far =>
    rw [hx] at hruns
    exact ⟨ts, w, far, hruns⟩
  | failed far =>
    rw [hx] at hruns
    exact ⟨far, hruns⟩
  | exhausted => exact absurd hx hne

theorem exists_run_of_read? {r : Rule} (h : read? (.rule r) s = some rest) :
    ∃ trees width reach, grammar.run r s = .matched trees width rest reach := by
  unfold read? at h
  split at h
  · rename_i ts w rest' far hrun
    cases h
    exact ⟨ts, w, far, hrun⟩
  · cases h

theorem isTame_rule (r : Rule) : isTame (.rule r) = true := orderly.rule_tame r

end EventMarkup.Script
