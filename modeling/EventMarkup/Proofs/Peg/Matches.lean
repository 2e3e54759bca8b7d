import EventMarkup.Proofs.Peg.Ending

/-!
# Matches and failures

`Matches` keeps of a match only what it leaves of the text, and `Fails` says that there is no match.
A match or a failure of a pattern is put together from those of its parts, and a match is taken
apart along its pattern. Where the steps of a grammar suffice for a pattern, it matches or it fails
(`Grammar.Orderly.matches_or_fails`).
-/

namespace EventMarkup.Peg

open Text

variable {ρ : Type} {body : ρ → Pattern ρ}

/-- The pattern matches the front of a text, up to the rest. -/
def Matches (body : ρ → Pattern ρ) (p : Pattern ρ) (s rest : List Char) : Prop :=
  ∃ ts w far, Runs body p s (.matched ts w rest far)

/-- The pattern does not match. -/
def Fails (body : ρ → Pattern ρ) (p : Pattern ρ) (s : List Char) : Prop :=
  ∃ far, Runs body p s (.failed far)

variable {p a b : Pattern ρ} {s t rest : List Char}

theorem matches_or_fails_of_runs {x : Reply ρ} (h : Runs body p s x) :
    (∃ rest, Matches body p s rest) ∨ Fails body p s := by
  cases x with
  | matched ts w rest far => exact .inl ⟨rest, ts, w, far, h⟩
  | failed far => exact .inr ⟨far, h⟩
  | exhausted => exact absurd rfl h.ne_exhausted

theorem Matches.unique (h : Matches body p s rest) (h' : Matches body p s t) : rest = t := by
  obtain ⟨_, _, _, h⟩ := h
  obtain ⟨_, _, _, h'⟩ := h'
  cases h.unique h'
  rfl

theorem Matches.not_fails (h : Matches body p s rest) : ¬ Fails body p s := by
  rintro ⟨_, h'⟩
  obtain ⟨_, _, _, h⟩ := h
  cases h.unique h'

theorem Matches.suffix (h : Matches body p s rest) : rest <:+ s := by
  obtain ⟨_, _, _, h⟩ := h
  exact h.suffix

theorem dropFront?_eq_none {c : Char} {cs : List Char} (h : ∀ d ∈ s.head?, c ≠ d) :
    dropFront? (c :: cs) s = none := by
  cases s with
  | nil => rfl
  | cons d s => exact if_neg (h d rfl)

/-! ## Putting together -/

theorem Matches.nothing (s : List Char) : Matches body .nothing s s := ⟨_, _, _, .nothing s⟩

theorem Matches.one {ok : Char → Bool} {c : Char} (h : ok c = true) (s : List Char) :
    Matches body (.one ok) (c :: s) s :=
  ⟨_, _, _, .one h s⟩

theorem Fails.one {ok : Char → Bool} (h : ∀ c ∈ s.head?, ok c = false) :
    Fails body (.one ok) s := by
  cases s with
  | nil => exact ⟨_, .oneEnds ok⟩
  | cons c s => exact ⟨_, .oneFails (h c rfl) s⟩

theorem Matches.text (cs rest : List Char) : Matches body (.text cs) (cs ++ rest) rest :=
  ⟨_, _, _, .text (dropFront?_append cs rest)⟩

theorem Fails.text {cs : List Char} (h : dropFront? cs s = none) : Fails body (.text cs) s :=
  ⟨_, .textFails h⟩

theorem Matches.both (ha : Matches body a s t) (hb : Matches body b t rest) :
    Matches body (.both a b) s rest := by
  obtain ⟨_, _, _, ha⟩ := ha
  obtain ⟨_, _, _, hb⟩ := hb
  exact ⟨_, _, _, .both ha hb rfl⟩

theorem Fails.both (ha : Fails body a s) : Fails body (.both a b) s := by
  obtain ⟨_, ha⟩ := ha
  exact ⟨_, .bothFails ha⟩

theorem Matches.both_fails (ha : Matches body a s t) (hb : Fails body b t) :
    Fails body (.both a b) s := by
  obtain ⟨_, _, _, ha⟩ := ha
  obtain ⟨_, hb⟩ := hb
  exact ⟨_, .both ha hb rfl⟩

theorem Matches.either (ha : Matches body a s rest) : Matches body (.either a b) s rest := by
  obtain ⟨_, _, _, ha⟩ := ha
  exact ⟨_, _, _, .first ha⟩

theorem Fails.either_matches (ha : Fails body a s) (hb : Matches body b s rest) :
    Matches body (.either a b) s rest := by
  obtain ⟨_, ha⟩ := ha
  obtain ⟨_, _, _, hb⟩ := hb
  exact ⟨_, _, _, .second ha hb rfl⟩

theorem Fails.either (ha : Fails body a s) (hb : Fails body b s) : Fails body (.either a b) s := by
  obtain ⟨_, ha⟩ := ha
  obtain ⟨_, hb⟩ := hb
  exact ⟨_, .second ha hb rfl⟩

theorem Matches.more (ha : Matches body a s t) (hs : Matches body (.star a) t rest) :
    Matches body (.star a) s rest := by
  obtain ⟨_, _, _, ha⟩ := ha
  obtain ⟨_, _, _, hs⟩ := hs
  exact ⟨_, _, _, .more ha hs rfl⟩

theorem Fails.enough (ha : Fails body a s) : Matches body (.star a) s s := by
  obtain ⟨_, ha⟩ := ha
  exact ⟨_, _, _, .enough ha⟩

theorem Matches.notAhead (ha : Matches body a s t) : Fails body (.notAhead a) s := by
  obtain ⟨_, _, _, ha⟩ := ha
  exact ⟨_, .notAheadFails ha⟩

theorem Fails.notAhead (ha : Fails body a s) : Matches body (.notAhead a) s s := by
  obtain ⟨_, ha⟩ := ha
  exact ⟨_, _, _, .notAhead ha⟩

theorem Matches.token (ha : Matches body a s rest) : Matches body (.token a) s rest := by
  obtain ⟨_, _, _, ha⟩ := ha
  exact ⟨_, _, _, .token ha rfl⟩

theorem Fails.token (ha : Fails body a s) : Fails body (.token a) s := by
  obtain ⟨_, ha⟩ := ha
  exact ⟨_, .token ha rfl⟩

theorem Matches.phrase (h : Matches body a s rest) : Matches body (.phrase a) s rest := by
  obtain ⟨_, _, _, h⟩ := h
  exact ⟨_, _, _, .phrase h rfl⟩

theorem Fails.phrase (h : Fails body a s) : Fails body (.phrase a) s := by
  obtain ⟨_, h⟩ := h
  exact ⟨_, .phrase h rfl⟩

theorem Matches.rule {r : ρ} (h : Matches body (body r) s rest) :
    Matches body (.rule r) s rest := by
  obtain ⟨_, _, _, h⟩ := h
  exact ⟨_, _, _, .rule h rfl⟩

theorem Fails.rule {r : ρ} (h : Fails body (body r) s) : Fails body (.rule r) s := by
  obtain ⟨_, h⟩ := h
  exact ⟨_, .rule h rfl⟩

theorem fails_oneOf {ps : List (Pattern ρ)} (h : ∀ p ∈ ps, Fails body p s) :
    Fails body (.oneOf ps) s := by
  induction ps with
  | nil => exact Fails.one fun _ _ => rfl
  | cons p ps ih =>
    cases ps with
    | nil => exact h p List.mem_cons_self
    | cons q ps =>
      exact (h p List.mem_cons_self).either (ih fun r hr => h r (List.mem_cons_of_mem p hr))

theorem matches_oneOf (before after : List (Pattern ρ)) (h : ∀ q ∈ before, Fails body q s)
    (hp : Matches body p s rest) : Matches body (.oneOf (before ++ p :: after)) s rest := by
  induction before with
  | nil =>
    cases after with
    | nil => exact hp
    | cons q after => exact hp.either
  | cons q before ih =>
    have hrest := ih fun r hr => h r (List.mem_cons_of_mem q hr)
    cases before with
    | nil => exact (h q List.mem_cons_self).either_matches hrest
    | cons r before => exact (h q List.mem_cons_self).either_matches hrest

theorem matches_star_one (ok : Char → Bool) (s : List Char) :
    Matches body (.star (.one ok)) s (s.dropWhile ok) := by
  induction s with
  | nil => exact (Fails.one (by simp)).enough
  | cons c s ih =>
    cases hc : ok c with
    | true =>
      rw [List.dropWhile_cons_of_pos hc]
      exact (Matches.one hc s).more ih
    | false =>
      rw [List.dropWhile_cons_of_neg (ne_true_of_eq_false hc)]
      exact (Fails.one (by simpa using hc)).enough

theorem matches_star_one_append {ok : Char → Bool} {w : List Char} (hw : ∀ c ∈ w, ok c = true)
    (hrest : ∀ c ∈ rest.head?, ok c = false) : Matches body (.star (.one ok)) (w ++ rest) rest := by
  have hdrop : rest.dropWhile ok = rest := by
    cases rest with
    | nil => rfl
    | cons c rest => exact List.dropWhile_cons_of_neg (ne_true_of_eq_false (hrest c rfl))
  have hstar : Matches body (.star (.one ok)) (w ++ rest) ((w ++ rest).dropWhile ok) :=
    matches_star_one ok _
  rwa [List.dropWhile_append_of_pos hw, hdrop] at hstar

/-! ## Taking apart -/

theorem Matches.of_one {ok : Char → Bool} (h : Matches body (.one ok) s rest) :
    ∃ c, ok c = true ∧ s = c :: rest := by
  obtain ⟨_, _, _, h⟩ := h
  cases h with
  | one hc => exact ⟨_, hc, rfl⟩

theorem Matches.of_text {cs : List Char} (h : Matches body (.text cs) s rest) :
    s = cs ++ rest := by
  obtain ⟨_, _, _, h⟩ := h
  cases h with
  | text hd => exact eq_append_of_dropFront? hd

theorem Matches.of_atEnd (h : Matches body .atEnd s rest) : s = [] ∧ rest = [] := by
  obtain ⟨_, _, _, h⟩ := h
  cases h with
  | atEnd => exact ⟨rfl, rfl⟩

theorem Matches.of_notAhead (h : Matches body (.notAhead a) s rest) :
    Fails body a s ∧ rest = s := by
  obtain ⟨_, _, _, h⟩ := h
  cases h with
  | notAhead ha => exact ⟨⟨_, ha⟩, rfl⟩

theorem matches_both_iff :
    Matches body (.both a b) s rest ↔ ∃ t, Matches body a s t ∧ Matches body b t rest := by
  refine ⟨?_, fun ⟨t, ha, hb⟩ => ha.both hb⟩
  rintro ⟨ts, w, far, h⟩
  cases h with
  | both ha hb hy =>
    obtain ⟨us, v, e, rfl, -⟩ := Reply.after_eq_matched hy.symm
    exact ⟨_, ⟨_, _, _, ha⟩, ⟨_, _, _, hb⟩⟩

theorem matches_either_iff :
    Matches body (.either a b) s rest ↔
      Matches body a s rest ∨ Fails body a s ∧ Matches body b s rest := by
  refine ⟨?_, fun h => h.elim Matches.either fun h => h.1.either_matches h.2⟩
  rintro ⟨ts, w, far, h⟩
  cases h with
  | first ha => exact .inl ⟨_, _, _, ha⟩
  | second ha hb hy =>
    obtain ⟨e, rfl, -⟩ := Reply.noting_eq_matched hy.symm
    exact .inr ⟨⟨_, ha⟩, ⟨_, _, _, hb⟩⟩

theorem matches_star_iff :
    Matches body (.star a) s rest ↔
      (∃ t, Matches body a s t ∧ Matches body (.star a) t rest) ∨ Fails body a s ∧ rest = s := by
  refine ⟨?_, ?_⟩
  · rintro ⟨ts, w, far, h⟩
    cases h with
    | more ha hs hy =>
      obtain ⟨us, v, e, rfl, -⟩ := Reply.after_eq_matched hy.symm
      exact .inl ⟨_, ⟨_, _, _, ha⟩, ⟨_, _, _, hs⟩⟩
    | enough ha => exact .inr ⟨⟨_, ha⟩, rfl⟩
  · rintro (⟨t, ha, hs⟩ | ⟨ha, rfl⟩)
    · exact ha.more hs
    · exact ha.enough

theorem matches_rule_iff {r : ρ} :
    Matches body (.rule r) s rest ↔ Matches body (body r) s rest := by
  refine ⟨?_, Matches.rule⟩
  rintro ⟨ts, w, far, h⟩
  cases h with
  | rule h hy =>
    obtain ⟨us, rfl, -⟩ := Reply.named_eq_matched hy.symm
    exact ⟨_, _, _, h⟩

theorem matches_phrase_iff : Matches body (.phrase a) s rest ↔ Matches body a s rest := by
  refine ⟨?_, Matches.phrase⟩
  rintro ⟨ts, w, far, h⟩
  cases h with
  | phrase h hy => exact ⟨_, _, _, Reply.asPhrase_eq_matched hy.symm ▸ h⟩

theorem Matches.of_token (h : Matches body (.token a) s rest) : Matches body a s rest := by
  obtain ⟨_, _, _, h⟩ := h
  cases h with
  | token h hy =>
    obtain ⟨_, rfl, -⟩ := Reply.asToken_eq_matched hy.symm
    exact ⟨_, _, _, h⟩

theorem Matches.of_rule {r : ρ} (h : Matches body (.rule r) s rest) :
    Matches body (body r) s rest :=
  matches_rule_iff.1 h

theorem Matches.of_both (h : Matches body (.both a b) s rest) :
    ∃ t, Matches body a s t ∧ Matches body b t rest :=
  matches_both_iff.1 h

theorem Matches.of_either (h : Matches body (.either a b) s rest) :
    Matches body a s rest ∨ Matches body b s rest :=
  (matches_either_iff.1 h).imp_right And.right

theorem matches_optional_iff :
    Matches body (.optional a) s rest ↔
      Matches body a s rest ∨ Fails body a s ∧ rest = s := by
  refine matches_either_iff.trans (or_congr_right (and_congr_right fun _ => ?_))
  exact ⟨fun h => h.unique (Matches.nothing s), fun h => h ▸ Matches.nothing _⟩

theorem Matches.of_star_one {ok : Char → Bool} (h : Matches body (.star (.one ok)) s rest) :
    ∃ w, (∀ c ∈ w, ok c = true) ∧ s = w ++ rest := by
  obtain rfl := h.unique (matches_star_one ok s)
  exact ⟨s.takeWhile ok, List.all_eq_true.1 List.all_takeWhile,
    List.takeWhile_append_dropWhile.symm⟩

/-! ## Grammars whose steps suffice -/

namespace Grammar.Orderly

variable {g : Grammar ρ} (o : g.Orderly)

include o in
theorem matches_or_fails {p : Pattern ρ} (hp : p.isTame o.empty o.nest g.depth = true)
    (s : List Char) : (∃ rest, Matches g.body p s rest) ∨ Fails g.body p s :=
  matches_or_fails_of_runs (runs_of_attempt rfl (o.attempt_steps_ne_exhausted hp s))

include o in
/-- A grammar finds a match of a rule exactly if there is one. -/
theorem isMatch_run_iff {r : ρ} {s : List Char} :
    (g.run r s).isMatch = true ↔ ∃ rest, Matches g.body (.rule r) s rest := by
  have hruns := o.runs_run r s
  constructor
  · intro h
    cases hx : g.run r s with
    | matched ts w rest far => exact ⟨rest, ts, w, far, hx ▸ hruns⟩
    | failed far => rw [hx] at h; cases h
    | exhausted => rw [hx] at h; cases h
  · rintro ⟨rest, ts, w, far, h⟩
    rw [o.run_eq_iff.2 h]
    rfl

end Grammar.Orderly

end EventMarkup.Peg
