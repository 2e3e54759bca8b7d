import EventMarkup.Proofs.Script.Lexeme

/-!
# What the front of a text decides

A pattern often decides by the first characters whether it matches. `foresee` runs a pattern on the
front of a text as far as it is known, and says nothing where the reply depends on what follows. So
statements about all texts with a given front are proved by evaluation (`takes_of_foresee`,
`refuses_of_foresee`).
-/

namespace EventMarkup.Script

open Peg Text

/-- `dropFront?` on a text of which a front is known; `none` if what follows decides. -/
def foreseeText : (cs s : List Char) → Option (Option (List Char))
  | [], s => some (some s)
  | _ :: _, [] => none
  | c :: cs, d :: s => if c = d then foreseeText cs s else some none

/-- What a pattern takes of a text of which a front is known; `none` if what follows decides or
the steps run out. -/
def foresee : Nat → Pattern Rule → List Char → Option (Option (List Char))
  | 0, _, _ => none
  | n + 1, p, s =>
    match p with
    | .nothing => some (some s)
    | .one ok =>
      match s with
      | [] => none
      | c :: rest => some (if ok c then some rest else none)
    | .text cs => foreseeText cs s
    | .atEnd =>
      match s with
      | [] => none
      | _ :: _ => some none
    | .rule r => foresee n r.pattern s
    | .both a b =>
      match foresee n a s with
      | some (some rest) => foresee n b rest
      | reply => reply
    | .either a b =>
      match foresee n a s with
      | some none => foresee n b s
      | reply => reply
    | .star a =>
      match foresee n a s with
      | some (some rest) => foresee n (.star a) rest
      | some none => some (some s)
      | none => none
    | .ahead _ => none
    | .notAhead a =>
      match foresee n a s with
      | some (some _) => some none
      | some none => some (some s)
      | none => none
    | .token a => foresee n a s
    | .phrase a => foresee n a s

variable {p a b : Pattern Rule} {s t rest : List Char} {n : Nat}

theorem not_refuses_star : ¬ Refuses (.star a) s := by
  rintro ⟨far, h⟩
  generalize hp : Pattern.star a = p at h
  generalize hx : (Reply.failed far : Reply Rule) = x at h
  induction h generalizing far with
  | @more _ _ _ _ _ _ x _ _ _ hy _ ihs =>
    subst hy
    cases x with
    | failed e => exact ihs e hp rfl
    | matched _ _ _ _ => cases hx
    | exhausted => cases hx
  | enough _ _ => cases hx
  | _ => cases hp

theorem Takes.more_outcome {o : Option (List Char)} (ha : Takes a s t)
    (hs : Outcome (.star a) t o) : Outcome (.star a) s o := by
  cases o with
  | none => exact absurd hs not_refuses_star
  | some _ => exact ha.more hs

theorem dropFront?_of_foreseeText {cs : List Char} {o : Option (List Char)}
    (h : foreseeText cs s = some o) : dropFront? cs (s ++ t) = o.map (· ++ t) := by
  induction cs generalizing s with
  | nil =>
    cases h
    rfl
  | cons c cs ih =>
    cases s with
    | nil => cases h
    | cons d s =>
      simp only [foreseeText] at h
      rw [List.cons_append, dropFront?]
      split at h
      · rename_i hc
        rw [if_pos hc]
        exact ih h
      · rename_i hc
        rw [if_neg hc]
        cases h
        rfl

/-- What is foreseen comes true, whatever follows. -/
theorem outcome_of_foresee {o : Option (List Char)} (h : foresee n p s = some o) :
    Outcome p (s ++ t) (o.map (· ++ t)) := by
  induction n generalizing p s o with
  | zero => cases h
  | succ n ih =>
    cases p with
    | nothing =>
      cases h
      exact Takes.nothing _
    | one ok =>
      cases s with
      | nil => cases h
      | cons c s =>
        have hone := reads_one ok (c :: s ++ t)
        simp only [foresee, Option.some.injEq] at h
        subst h
        cases hc : ok c <;> simpa [one?, hc] using hone
    | text cs =>
      have htext := reads_text cs (s ++ t)
      rwa [dropFront?_of_foreseeText h] at htext
    | atEnd =>
      cases s with
      | nil => cases h
      | cons c s =>
        cases h
        exact ⟨_, .atEndFails c (s ++ t)⟩
    | rule r =>
      have hbody : Outcome r.pattern (s ++ t) (o.map (· ++ t)) := ih h
      exact hbody.rule
    | both a b =>
      simp only [foresee] at h
      split at h
      · rename_i rest ha
        have ha : Takes a (s ++ t) (rest ++ t) := ih ha
        exact ha.both_outcome (ih h)
      · rename_i hne
        cases o with
        | none =>
          have ha : Refuses a (s ++ t) := ih h
          exact ha.both
        | some rest => exact absurd h (hne rest)
    | either a b =>
      simp only [foresee] at h
      split at h
      · rename_i ha
        have ha : Refuses a (s ++ t) := ih ha
        exact ha.either_outcome (ih h)
      · rename_i hne
        cases o with
        | none => exact absurd h hne
        | some rest =>
          have ha : Takes a (s ++ t) (rest ++ t) := ih h
          exact ha.either
    | star a =>
      simp only [foresee] at h
      split at h
      · rename_i rest ha
        have ha : Takes a (s ++ t) (rest ++ t) := ih ha
        exact ha.more_outcome (ih h)
      · rename_i ha
        cases h
        have ha : Refuses a (s ++ t) := ih ha
        exact ha.enough
      · cases h
    | ahead a => cases h
    | notAhead a =>
      simp only [foresee] at h
      split at h
      · rename_i rest ha
        cases h
        have ha : Takes a (s ++ t) (rest ++ t) := ih ha
        exact ha.notAhead
      · rename_i ha
        cases h
        have ha : Refuses a (s ++ t) := ih ha
        exact ha.notAhead
      · cases h
    | token a =>
      have ha : Outcome a (s ++ t) (o.map (· ++ t)) := ih h
      exact ha.token
    | phrase a =>
      have ha : Outcome a (s ++ t) (o.map (· ++ t)) := ih h
      exact ha.phrase

end EventMarkup.Script
