import EventMarkup.Peg.Match

/-!
# Runs of patterns

`Runs` relates a pattern and a text to the reply that the rules of matching give, with no bound on
the steps. A pattern has at most one reply to a text (`Runs.unique`), and `attempt` gives that reply
or says that its steps ran out: `runs_of_attempt` and `Runs.exists_attempt` go between the two.
Statements about matching are proved about runs, and a bound on the steps is needed only to know
that a run exists.
-/

namespace EventMarkup.Peg

open Text

variable {ρ : Type} {body : ρ → Pattern ρ}

/-- The reply of a pattern to a text. -/
inductive Runs (body : ρ → Pattern ρ) : Pattern ρ → List Char → Reply ρ → Prop where
  | nothing (s : List Char) : Runs body .nothing s (.matched [] 0 s none)
  | one {ok : Char → Bool} {c : Char} (h : ok c = true) (s : List Char) :
    Runs body (.one ok) (c :: s) (.matched [.leaf c] 1 s none)
  | oneFails {ok : Char → Bool} {c : Char} (h : ok c = false) (s : List Char) :
    Runs body (.one ok) (c :: s) (.failed none)
  | oneEnds (ok : Char → Bool) : Runs body (.one ok) [] (.failed none)
  | text {cs s rest : List Char} (h : dropFront? cs s = some rest) :
    Runs body (.text cs) s (.matched (cs.map .leaf) cs.length rest none)
  | textFails {cs s : List Char} (h : dropFront? cs s = none) :
    Runs body (.text cs) s (.failed none)
  | atEnd : Runs body .atEnd [] (.matched [] 0 [] none)
  | atEndFails (c : Char) (s : List Char) : Runs body .atEnd (c :: s) (.failed none)
  | rule {r : ρ} {s : List Char} {x y : Reply ρ} (h : Runs body (body r) s x)
    (hy : y = x.named r) : Runs body (.rule r) s y
  | both {a b : Pattern ρ} {s rest : List Char} {ts : List (Tree ρ)} {w : Nat} {far : Reach}
    {x y : Reply ρ} (ha : Runs body a s (.matched ts w rest far)) (hb : Runs body b rest x)
    (hy : y = x.after ts w far) : Runs body (.both a b) s y
  | bothFails {a b : Pattern ρ} {s : List Char} {far : Reach} (ha : Runs body a s (.failed far)) :
    Runs body (.both a b) s (.failed far)
  | first {a b : Pattern ρ} {s rest : List Char} {ts : List (Tree ρ)} {w : Nat} {far : Reach}
    (ha : Runs body a s (.matched ts w rest far)) :
    Runs body (.either a b) s (.matched ts w rest far)
  | second {a b : Pattern ρ} {s : List Char} {far : Reach} {x y : Reply ρ}
    (ha : Runs body a s (.failed far)) (hb : Runs body b s x) (hy : y = x.noting far) :
    Runs body (.either a b) s y
  | more {a : Pattern ρ} {s rest : List Char} {ts : List (Tree ρ)} {w : Nat} {far : Reach}
    {x y : Reply ρ} (ha : Runs body a s (.matched ts w rest far))
    (hs : Runs body (.star a) rest x) (hy : y = x.after ts w far) : Runs body (.star a) s y
  | enough {a : Pattern ρ} {s : List Char} {far : Reach} (ha : Runs body a s (.failed far)) :
    Runs body (.star a) s (.matched [] 0 s far)
  | ahead {a : Pattern ρ} {s rest : List Char} {ts : List (Tree ρ)} {w : Nat} {far : Reach}
    (ha : Runs body a s (.matched ts w rest far)) : Runs body (.ahead a) s (.matched [] 0 s far)
  | aheadFails {a : Pattern ρ} {s : List Char} {far : Reach} (ha : Runs body a s (.failed far)) :
    Runs body (.ahead a) s (.failed far)
  | notAhead {a : Pattern ρ} {s : List Char} {far : Reach} (ha : Runs body a s (.failed far)) :
    Runs body (.notAhead a) s (.matched [] 0 s none)
  | notAheadFails {a : Pattern ρ} {s rest : List Char} {ts : List (Tree ρ)} {w : Nat}
    {far : Reach} (ha : Runs body a s (.matched ts w rest far)) :
    Runs body (.notAhead a) s (.failed none)
  | token {a : Pattern ρ} {s : List Char} {x y : Reply ρ} (ha : Runs body a s x)
    (hy : y = x.asToken) : Runs body (.token a) s y
  | phrase {a : Pattern ρ} {s : List Char} {x y : Reply ρ} (ha : Runs body a s x)
    (hy : y = x.asPhrase) : Runs body (.phrase a) s y

/-! ## Runs and attempts -/

theorem Reply.ne_exhausted_of_named {r : ρ} {x : Reply ρ} (h : x.named r ≠ .exhausted) :
    x ≠ .exhausted := by
  rintro rfl
  exact h rfl

theorem Reply.ne_exhausted_of_after {ts : List (Tree ρ)} {w : Nat} {far : Reach} {x : Reply ρ}
    (h : x.after ts w far ≠ .exhausted) : x ≠ .exhausted := by
  rintro rfl
  exact h rfl

theorem Reply.ne_exhausted_of_noting {far : Reach} {x : Reply ρ} (h : x.noting far ≠ .exhausted) :
    x ≠ .exhausted := by
  rintro rfl
  exact h rfl

theorem Reply.ne_exhausted_of_asToken {x : Reply ρ} (h : x.asToken ≠ .exhausted) :
    x ≠ .exhausted := by
  rintro rfl
  exact h rfl

theorem Reply.ne_exhausted_of_asPhrase {x : Reply ρ} (h : x.asPhrase ≠ .exhausted) :
    x ≠ .exhausted := by
  rintro rfl
  exact h rfl

theorem runs_of_attempt {steps : Nat} {p : Pattern ρ} {s : List Char} {x : Reply ρ}
    (h : attempt body steps p s = x) (hx : x ≠ .exhausted) : Runs body p s x := by
  induction steps generalizing p s x with
  | zero => exact absurd h.symm hx
  | succ steps ih =>
    cases p with
    | nothing => exact h ▸ .nothing s
    | one ok =>
      cases s with
      | nil => exact h ▸ .oneEnds ok
      | cons c s =>
        simp only [attempt] at h
        split at h
        · rename_i hc
          exact h ▸ .one hc s
        · rename_i hc
          exact h ▸ .oneFails (Bool.not_eq_true _ ▸ hc) s
    | text cs =>
      simp only [attempt] at h
      split at h
      · rename_i hd
        exact h ▸ .text hd
      · rename_i hd
        exact h ▸ .textFails hd
    | atEnd =>
      cases s with
      | nil => exact h ▸ .atEnd
      | cons c s => exact h ▸ .atEndFails c s
    | rule r =>
      simp only [attempt] at h
      subst h
      exact .rule (ih rfl (Reply.ne_exhausted_of_named hx)) rfl
    | both a b =>
      simp only [attempt] at h
      split at h
      · rename_i ha
        subst h
        exact .both (ih ha (by simp)) (ih rfl (Reply.ne_exhausted_of_after hx)) rfl
      · rename_i ha
        exact h ▸ .bothFails (ih ha (by simp))
      · exact absurd h.symm hx
    | either a b =>
      simp only [attempt] at h
      split at h
      · rename_i ha
        exact h ▸ .first (ih ha (by simp))
      · rename_i ha
        subst h
        exact .second (ih ha (by simp)) (ih rfl (Reply.ne_exhausted_of_noting hx)) rfl
      · exact absurd h.symm hx
    | star a =>
      simp only [attempt] at h
      split at h
      · rename_i ha
        subst h
        exact .more (ih ha (by simp)) (ih rfl (Reply.ne_exhausted_of_after hx)) rfl
      · rename_i ha
        exact h ▸ .enough (ih ha (by simp))
      · exact absurd h.symm hx
    | ahead a =>
      simp only [attempt] at h
      split at h
      · rename_i ha
        exact h ▸ .ahead (ih ha (by simp))
      · rename_i ha
        exact h ▸ .aheadFails (ih ha (by simp))
      · exact absurd h.symm hx
    | notAhead a =>
      simp only [attempt] at h
      split at h
      · rename_i ha
        exact h ▸ .notAheadFails (ih ha (by simp))
      · rename_i ha
        exact h ▸ .notAhead (ih ha (by simp))
      · exact absurd h.symm hx
    | token a =>
      simp only [attempt] at h
      subst h
      exact .token (ih rfl (Reply.ne_exhausted_of_asToken hx)) rfl
    | phrase a =>
      simp only [attempt] at h
      subst h
      exact .phrase (ih rfl (Reply.ne_exhausted_of_asPhrase hx)) rfl

theorem exists_attempt_of_step {p : Pattern ρ} {s : List Char} {x : Reply ρ} (n : Nat)
    (h : ∀ steps, n ≤ steps → attempt body (steps + 1) p s = x) :
    ∃ n, ∀ steps, n ≤ steps → attempt body steps p s = x := by
  refine ⟨n + 1, fun steps hn => ?_⟩
  obtain ⟨k, rfl⟩ : ∃ k, steps = k + 1 := ⟨steps - 1, by omega⟩
  exact h k (by omega)

/-- A run is found by every attempt with enough steps. -/
theorem Runs.exists_attempt {p : Pattern ρ} {s : List Char} {x : Reply ρ} (h : Runs body p s x) :
    ∃ n, ∀ steps, n ≤ steps → attempt body steps p s = x := by
  induction h with
  | nothing s => exact exists_attempt_of_step 0 fun _ _ => rfl
  | one h s => exact exists_attempt_of_step 0 fun _ _ => by simp [attempt, h]
  | oneFails h s => exact exists_attempt_of_step 0 fun _ _ => by simp [attempt, h]
  | oneEnds ok => exact exists_attempt_of_step 0 fun _ _ => rfl
  | text h => exact exists_attempt_of_step 0 fun _ _ => by simp [attempt, h]
  | textFails h => exact exists_attempt_of_step 0 fun _ _ => by simp [attempt, h]
  | atEnd => exact exists_attempt_of_step 0 fun _ _ => rfl
  | atEndFails c s => exact exists_attempt_of_step 0 fun _ _ => rfl
  | rule _ hy ih =>
    obtain ⟨n, hn⟩ := ih
    exact exists_attempt_of_step n fun k hk => by rw [attempt, hn k hk, hy]
  | both _ _ hy iha ihb =>
    obtain ⟨n, hn⟩ := iha
    obtain ⟨m, hm⟩ := ihb
    refine exists_attempt_of_step (max n m) fun k hk => ?_
    simp only [attempt, hn k (by omega), hm k (by omega), hy]
  | bothFails _ ih =>
    obtain ⟨n, hn⟩ := ih
    exact exists_attempt_of_step n fun k hk => by simp only [attempt, hn k hk]
  | first _ ih =>
    obtain ⟨n, hn⟩ := ih
    exact exists_attempt_of_step n fun k hk => by simp only [attempt, hn k hk]
  | second _ _ hy iha ihb =>
    obtain ⟨n, hn⟩ := iha
    obtain ⟨m, hm⟩ := ihb
    refine exists_attempt_of_step (max n m) fun k hk => ?_
    simp only [attempt, hn k (by omega), hm k (by omega), hy]
  | more _ _ hy iha ihs =>
    obtain ⟨n, hn⟩ := iha
    obtain ⟨m, hm⟩ := ihs
    refine exists_attempt_of_step (max n m) fun k hk => ?_
    simp only [attempt, hn k (by omega), hm k (by omega), hy]
  | enough _ ih =>
    obtain ⟨n, hn⟩ := ih
    exact exists_attempt_of_step n fun k hk => by simp only [attempt, hn k hk]
  | ahead _ ih =>
    obtain ⟨n, hn⟩ := ih
    exact exists_attempt_of_step n fun k hk => by simp only [attempt, hn k hk]
  | aheadFails _ ih =>
    obtain ⟨n, hn⟩ := ih
    exact exists_attempt_of_step n fun k hk => by simp only [attempt, hn k hk]
  | notAhead _ ih =>
    obtain ⟨n, hn⟩ := ih
    exact exists_attempt_of_step n fun k hk => by simp only [attempt, hn k hk]
  | notAheadFails _ ih =>
    obtain ⟨n, hn⟩ := ih
    exact exists_attempt_of_step n fun k hk => by simp only [attempt, hn k hk]
  | token _ hy ih =>
    obtain ⟨n, hn⟩ := ih
    exact exists_attempt_of_step n fun k hk => by rw [attempt, hn k hk, hy]
  | phrase _ hy ih =>
    obtain ⟨n, hn⟩ := ih
    exact exists_attempt_of_step n fun k hk => by rw [attempt, hn k hk, hy]

theorem Runs.unique {p : Pattern ρ} {s : List Char} {x y : Reply ρ} (hx : Runs body p s x)
    (hy : Runs body p s y) : x = y := by
  obtain ⟨n, hn⟩ := hx.exists_attempt
  obtain ⟨m, hm⟩ := hy.exists_attempt
  rw [← hn (max n m) (Nat.le_max_left n m), ← hm (max n m) (Nat.le_max_right n m)]

theorem Runs.ne_exhausted {p : Pattern ρ} {s : List Char} {x : Reply ρ} (h : Runs body p s x) :
    x ≠ .exhausted := by
  induction h with
  | @rule _ _ x _ _ hy ih => subst hy; cases x <;> simp_all [Reply.named]
  | @both _ _ _ _ _ _ _ x _ _ _ hy _ ih => subst hy; cases x <;> simp_all [Reply.after]
  | @second _ _ _ _ x _ _ _ hy _ ih => subst hy; cases x <;> simp_all [Reply.noting]
  | @more _ _ _ _ _ _ x _ _ _ hy _ ih => subst hy; cases x <;> simp_all [Reply.after]
  | @token _ _ x _ _ hy ih => subst hy; cases x <;> simp_all [Reply.asToken]
  | @phrase _ _ x _ _ hy ih => subst hy; cases x <;> simp_all [Reply.asPhrase]
  | _ => simp

/-! ## What a match takes -/

section Replies

variable {ts ts' : List (Tree ρ)} {w w' : Nat} {rest : List Char} {far far' : Reach} {x : Reply ρ}

theorem Reply.named_eq_matched {r : ρ} (h : x.named r = .matched ts w rest far) :
    ∃ us, x = .matched us w rest far ∧ ts = [.node r us] := by
  cases x with
  | matched us v t e =>
    cases h
    exact ⟨us, rfl, rfl⟩
  | failed e => cases h
  | exhausted => cases h

theorem Reply.after_eq_matched (h : x.after ts' w' far' = .matched ts w rest far) :
    ∃ us v e, x = .matched us v rest e ∧ ts = ts' ++ us ∧ w = w' + v ∧
      far = far'.farther (e.shift w') := by
  cases x with
  | matched us v t e =>
    cases h
    exact ⟨us, v, e, rfl, rfl, rfl, rfl⟩
  | failed e => cases h
  | exhausted => cases h

theorem Reply.noting_eq_matched (h : x.noting far' = .matched ts w rest far) :
    ∃ e, x = .matched ts w rest e ∧ far = far'.farther e := by
  cases x with
  | matched us v t e =>
    cases h
    exact ⟨e, rfl, rfl⟩
  | failed e => cases h
  | exhausted => cases h

theorem Reply.asToken_eq_matched (h : x.asToken = .matched ts w rest far) :
    ∃ e, x = .matched ts w rest e ∧ far = none := by
  cases x with
  | matched us v t e =>
    cases h
    exact ⟨e, rfl, rfl⟩
  | failed e => cases h
  | exhausted => cases h

theorem Reply.asPhrase_eq_matched (h : x.asPhrase = .matched ts w rest far) :
    x = .matched ts w rest far := by
  cases x with
  | matched us v t e => exact h
  | failed e => cases h
  | exhausted => cases h

end Replies

/-- A match takes a front of the text, and the leaves of its trees spell that front. -/
theorem Runs.append {p : Pattern ρ} {s : List Char} {x : Reply ρ} (h : Runs body p s x)
    {ts : List (Tree ρ)} {w : Nat} {rest : List Char} {far : Reach}
    (hx : x = .matched ts w rest far) :
    s = Tree.yieldAll ts ++ rest ∧ (Tree.yieldAll ts).length = w := by
  induction h generalizing ts w rest far with
  | nothing s =>
    cases hx
    exact ⟨rfl, rfl⟩
  | one _ s =>
    cases hx
    exact ⟨rfl, rfl⟩
  | text hd =>
    cases hx
    rw [Tree.yieldAll_map_leaf]
    exact ⟨eq_append_of_dropFront? hd, rfl⟩
  | atEnd =>
    cases hx
    exact ⟨rfl, rfl⟩
  | rule _ hy ih =>
    obtain ⟨us, hus, rfl⟩ := Reply.named_eq_matched (hy.symm.trans hx)
    simpa [Tree.yieldAll, Tree.yield] using ih hus
  | both _ _ hy iha ihb =>
    obtain ⟨us, v, e, hus, rfl, rfl, rfl⟩ := Reply.after_eq_matched (hy.symm.trans hx)
    obtain ⟨hs, hw⟩ := iha rfl
    obtain ⟨ht, hv⟩ := ihb hus
    rw [Tree.yieldAll_append, List.append_assoc, ← ht, List.length_append, hw, hv]
    exact ⟨hs, rfl⟩
  | first _ ih => exact ih hx
  | second _ _ hy _ ih =>
    obtain ⟨e, he, rfl⟩ := Reply.noting_eq_matched (hy.symm.trans hx)
    exact ih he
  | more _ _ hy iha ihs =>
    obtain ⟨us, v, e, hus, rfl, rfl, rfl⟩ := Reply.after_eq_matched (hy.symm.trans hx)
    obtain ⟨hs, hw⟩ := iha rfl
    obtain ⟨ht, hv⟩ := ihs hus
    rw [Tree.yieldAll_append, List.append_assoc, ← ht, List.length_append, hw, hv]
    exact ⟨hs, rfl⟩
  | enough _ _ =>
    cases hx
    exact ⟨rfl, rfl⟩
  | ahead _ _ =>
    cases hx
    exact ⟨rfl, rfl⟩
  | notAhead _ _ =>
    cases hx
    exact ⟨rfl, rfl⟩
  | token _ hy ih =>
    obtain ⟨e, he, rfl⟩ := Reply.asToken_eq_matched (hy.symm.trans hx)
    exact ih he
  | phrase _ hy ih => exact ih (Reply.asPhrase_eq_matched (hy.symm.trans hx))
  | _ => cases hx

theorem Runs.length_eq {p : Pattern ρ} {s rest : List Char} {ts : List (Tree ρ)} {w : Nat}
    {far : Reach} (h : Runs body p s (.matched ts w rest far)) : s.length = w + rest.length := by
  obtain ⟨hs, hw⟩ := h.append rfl
  rw [hs, List.length_append, hw]

theorem Runs.suffix {p : Pattern ρ} {s rest : List Char} {ts : List (Tree ρ)} {w : Nat}
    {far : Reach} (h : Runs body p s (.matched ts w rest far)) : rest <:+ s :=
  ⟨_, (h.append rfl).1.symm⟩

theorem exists_of_append_eq_append {α : Type} {us ws as bs : List α} {x : α}
    (h : as ++ bs = us ++ x :: ws) :
    (∃ vs, as = us ++ x :: vs) ∨ ∃ vs, us = as ++ vs ∧ bs = vs ++ x :: ws := by
  rcases List.append_eq_append_iff.1 h with ⟨vs, rfl, hbs⟩ | ⟨vs, rfl, hws⟩
  · exact .inr ⟨vs, rfl, hbs⟩
  · cases vs with
    | nil => exact .inr ⟨[], by simp, by simpa using hws.symm⟩
    | cons y vs =>
      obtain ⟨rfl, -⟩ := List.cons.inj hws
      exact .inl ⟨vs, rfl⟩

end EventMarkup.Peg
