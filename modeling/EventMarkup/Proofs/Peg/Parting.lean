import EventMarkup.Proofs.Peg.Matches

/-!
# Matches and their parts

`Picks` keeps of a match what it leaves of the text and what its wanted rules took, in order. It is
taken apart along the pattern: a wanted rule gives all that it took as one part
(`picks_wanted_iff`), any other rule gives the parts of its pattern (`picks_unwanted_iff`), and a
pattern that names no rule gives none (`picks_isRuleFree_iff`).
-/

namespace EventMarkup.Peg

open Text

variable {ρ : Type}

/-- Whether no rule takes part in a match of the pattern. What is only looked ahead for takes no
part. -/
def Pattern.isRuleFree : Pattern ρ → Bool
  | .nothing | .one _ | .text _ | .atEnd | .ahead _ | .notAhead _ => true
  | .rule _ => false
  | .both a b => a.isRuleFree && b.isRuleFree
  | .either a b => a.isRuleFree && b.isRuleFree
  | .star a => a.isRuleFree
  | .token a => a.isRuleFree
  | .phrase a => a.isRuleFree

/-- The pattern matches the front of a text up to the rest, and its wanted rules take the parts. -/
def Picks (body : ρ → Pattern ρ) (wanted : ρ → Bool) (p : Pattern ρ) (s : List Char)
    (parts : List (List Char)) (rest : List Char) : Prop :=
  ∃ ts w far, Runs body p s (.matched ts w rest far) ∧ Tree.partsAll wanted ts = parts

namespace Tree

variable {wanted : ρ → Bool}

@[simp] theorem partsAll_append (ts us : List (Tree ρ)) :
    partsAll wanted (ts ++ us) = partsAll wanted ts ++ partsAll wanted us := by
  induction ts with
  | nil => simp [partsAll]
  | cons t ts ih => simp [partsAll, ih]

@[simp] theorem partsAll_map_leaf (cs : List Char) :
    partsAll wanted (cs.map Tree.leaf : List (Tree ρ)) = [] := by
  induction cs with
  | nil => rfl
  | cons c cs ih => simp [partsAll, parts, ih]

end Tree

variable {body : ρ → Pattern ρ} {wanted : ρ → Bool} {p a b : Pattern ρ} {r : ρ}
  {s rest : List Char} {parts : List (List Char)}

theorem Picks.matches (h : Picks body wanted p s parts rest) : Matches body p s rest := by
  obtain ⟨ts, w, far, h, -⟩ := h
  exact ⟨ts, w, far, h⟩

theorem Runs.partsAll_of_isRuleFree {x : Reply ρ} (h : Runs body p s x) {ts : List (Tree ρ)}
    {w : Nat} {far : Reach} (hx : x = .matched ts w rest far) (hp : p.isRuleFree = true) :
    Tree.partsAll wanted ts = [] := by
  induction h generalizing ts w rest far with
  | nothing | atEnd | enough | ahead | notAhead =>
    cases hx
    rfl
  | one =>
    cases hx
    rfl
  | text =>
    cases hx
    exact Tree.partsAll_map_leaf _
  | rule => cases hp
  | both _ _ hy iha ihb =>
    obtain ⟨us, v, e, hus, rfl, -, -⟩ := Reply.after_eq_matched (hy.symm.trans hx)
    obtain ⟨hpa, hpb⟩ := Bool.and_eq_true_iff.1 hp
    rw [Tree.partsAll_append, iha rfl hpa, ihb hus hpb, List.append_nil]
  | first _ ih => exact ih hx (Bool.and_eq_true_iff.1 hp).1
  | second _ _ hy _ ih =>
    obtain ⟨e, he, -⟩ := Reply.noting_eq_matched (hy.symm.trans hx)
    exact ih he (Bool.and_eq_true_iff.1 hp).2
  | more _ _ hy iha ihs =>
    obtain ⟨us, v, e, hus, rfl, -, -⟩ := Reply.after_eq_matched (hy.symm.trans hx)
    rw [Tree.partsAll_append, iha rfl hp, ihs hus hp, List.append_nil]
  | token _ hy ih =>
    obtain ⟨e, he, -⟩ := Reply.asToken_eq_matched (hy.symm.trans hx)
    exact ih he hp
  | phrase _ hy ih => exact ih (Reply.asPhrase_eq_matched (hy.symm.trans hx)) hp
  | _ => cases hx

/-! ## Along the pattern -/

theorem picks_isRuleFree_iff (hp : p.isRuleFree = true) :
    Picks body wanted p s parts rest ↔ Matches body p s rest ∧ parts = [] := by
  constructor
  · rintro ⟨ts, w, far, h, rfl⟩
    exact ⟨⟨ts, w, far, h⟩, h.partsAll_of_isRuleFree rfl hp⟩
  · rintro ⟨⟨ts, w, far, h⟩, rfl⟩
    exact ⟨ts, w, far, h, h.partsAll_of_isRuleFree rfl hp⟩

theorem picks_wanted_iff (hr : wanted r = true) :
    Picks body wanted (.rule r) s parts rest ↔
      ∃ part, parts = [part] ∧ s = part ++ rest ∧ Matches body (body r) s rest := by
  constructor
  · rintro ⟨ts, w, far, h, rfl⟩
    cases h with
    | rule h hy =>
      obtain ⟨us, rfl, rfl⟩ := Reply.named_eq_matched hy.symm
      exact ⟨Tree.yieldAll us, by simp [Tree.partsAll, Tree.parts, hr], (h.append rfl).1,
        ⟨us, w, far, h⟩⟩
  · rintro ⟨part, rfl, hs, ⟨us, w, far, h⟩⟩
    have hpart : part = Tree.yieldAll us := List.append_cancel_right (hs.symm.trans (h.append rfl).1)
    exact ⟨_, w, far, .rule h rfl, by simp [Tree.partsAll, Tree.parts, hr, hpart]⟩

theorem picks_unwanted_iff (hr : wanted r = false) :
    Picks body wanted (.rule r) s parts rest ↔ Picks body wanted (body r) s parts rest := by
  constructor
  · rintro ⟨ts, w, far, h, rfl⟩
    cases h with
    | rule h hy =>
      obtain ⟨us, rfl, rfl⟩ := Reply.named_eq_matched hy.symm
      exact ⟨us, w, far, h, by simp [Tree.partsAll, Tree.parts, hr]⟩
  · rintro ⟨us, w, far, h, rfl⟩
    exact ⟨_, w, far, .rule h rfl, by simp [Tree.partsAll, Tree.parts, hr]⟩

theorem picks_both_iff :
    Picks body wanted (.both a b) s parts rest ↔
      ∃ t front back, Picks body wanted a s front t ∧ Picks body wanted b t back rest ∧
        parts = front ++ back := by
  constructor
  · rintro ⟨ts, w, far, h, rfl⟩
    cases h with
    | both ha hb hy =>
      obtain ⟨us, v, e, rfl, rfl, -⟩ := Reply.after_eq_matched hy.symm
      exact ⟨_, _, _, ⟨_, _, _, ha, rfl⟩, ⟨_, _, _, hb, rfl⟩, Tree.partsAll_append ..⟩
  · rintro ⟨t, _, _, ⟨ts, v, far, ha, rfl⟩, ⟨us, w, e, hb, rfl⟩, rfl⟩
    exact ⟨_, _, _, .both ha hb rfl, Tree.partsAll_append ts us⟩

theorem picks_either_iff :
    Picks body wanted (.either a b) s parts rest ↔
      Picks body wanted a s parts rest ∨
        Fails body a s ∧ Picks body wanted b s parts rest := by
  constructor
  · rintro ⟨ts, w, far, h, rfl⟩
    cases h with
    | first ha => exact .inl ⟨_, _, _, ha, rfl⟩
    | second ha hb hy =>
      obtain ⟨e, rfl, -⟩ := Reply.noting_eq_matched hy.symm
      exact .inr ⟨⟨_, ha⟩, ⟨_, _, _, hb, rfl⟩⟩
  · rintro (⟨ts, w, far, ha, rfl⟩ | ⟨⟨_, ha⟩, ⟨ts, w, far, hb, rfl⟩⟩)
    · exact ⟨_, _, _, .first ha, rfl⟩
    · exact ⟨_, _, _, .second ha hb rfl, rfl⟩

theorem picks_text_iff {cs : List Char} :
    Picks body wanted (.text cs) s parts rest ↔ s = cs ++ rest ∧ parts = [] := by
  refine (picks_isRuleFree_iff rfl).trans (and_congr_left fun _ => ⟨Matches.of_text, ?_⟩)
  rintro rfl
  exact Matches.text cs rest

theorem picks_atEnd_iff :
    Picks body wanted .atEnd s parts rest ↔ s = [] ∧ rest = [] ∧ parts = [] := by
  refine (picks_isRuleFree_iff rfl).trans (.trans (and_congr_left fun _ => ⟨Matches.of_atEnd, ?_⟩)
    and_assoc)
  rintro ⟨rfl, rfl⟩
  exact ⟨_, _, _, .atEnd⟩

theorem picks_optional_iff :
    Picks body wanted (.optional a) s parts rest ↔
      Picks body wanted a s parts rest ∨ Fails body a s ∧ rest = s ∧ parts = [] := by
  refine picks_either_iff.trans (or_congr_right (and_congr_right fun _ => ?_))
  refine (picks_isRuleFree_iff rfl).trans (and_congr_left fun _ => ⟨fun h => ?_, ?_⟩)
  · exact h.unique (Matches.nothing s)
  · rintro rfl
    exact Matches.nothing _

/-! ## Grammars whose steps suffice -/

/-- A grammar finds the parts that a match of a rule picks. -/
theorem Grammar.Orderly.trees?_run_eq_some_iff {g : Grammar ρ} (o : g.Orderly) {r : ρ} :
    ((g.run r s).trees?).map (Tree.partsAll wanted) = some parts ↔
      ∃ rest, Picks g.body wanted (.rule r) s parts rest := by
  have hruns := o.runs_run r s
  constructor
  · intro h
    cases hx : g.run r s with
    | matched ts w rest far =>
      rw [hx] at h hruns
      exact ⟨rest, ts, w, far, hruns, Option.some.inj h⟩
    | failed far => rw [hx] at h; cases h
    | exhausted => rw [hx] at h; cases h
  · rintro ⟨rest, ts, w, far, h, rfl⟩
    rw [o.run_eq_iff.2 h]
    rfl

end EventMarkup.Peg
