import EventMarkup.Proofs.Script.Stops

/-!
# Two runs in lockstep

Two texts that differ in some respect are read side by side: every pattern stops at places of the
two texts that belong together, or fails on both. A `Lockstep` says which texts are compared, and
what it means that the replies to them agree. If the agreement is kept by the ways in which replies
are put together, then a pattern keeps it that is made of patterns which do
(`Lockstep.keeps_shape`); so two runs of the grammar need only be compared token by token.
-/

namespace EventMarkup.Script

open Peg

/-- Pairs of texts, and how replies to the two texts of a pair compare. -/
structure Lockstep (ι : Type) where
  /-- The text that the first run reads. -/
  left : ι → List Char
  /-- The text that the second run reads. -/
  right : ι → List Char
  /-- The two replies agree. -/
  Agrees : ι → Reply Rule → Reply Rule → Prop
  failed (i : ι) : Agrees i (.failed none) (.failed none)
  named {i : ι} {x x' : Reply Rule} (r : Rule) (h : Agrees i x x') :
    Agrees i (x.named r) (x'.named r)
  asPhrase {i : ι} {x x' : Reply Rule} (h : Agrees i x x') : Agrees i x.asPhrase x'.asPhrase
  noting {i : ι} {far far' : Reach} {x x' : Reply Rule} (h : Agrees i (.failed far) (.failed far'))
    (hx : Agrees i x x') : Agrees i (x.noting far) (x'.noting far')
  /-- Nothing is taken of the two texts. -/
  enough {i : ι} {far far' : Reach} (h : Agrees i (.failed far) (.failed far')) :
    Agrees i (.matched [] 0 (left i) far) (.matched [] 0 (right i) far')
  of_failed {i : ι} {far : Reach} {x' : Reply Rule} (h : Agrees i (.failed far) x') :
    ∃ far', x' = .failed far'
  /-- Behind two matches that agree the runs go on in lockstep, or there is no difference left. -/
  of_matched {i : ι} {ts : List (Peg.Tree Rule)} {w : Nat} {rest : List Char} {far : Reach}
    {x' : Reply Rule} (h : Agrees i (.matched ts w rest far) x') :
    ∃ ts' w' rest' far', x' = .matched ts' w' rest' far' ∧
      ((∃ j, rest = left j ∧ rest' = right j ∧ ∀ y y' : Reply Rule, Agrees j y y' →
          Agrees i (y.after ts w far) (y'.after ts' w' far')) ∨
        rest = rest' ∧ ∀ y : Reply Rule, y ≠ .exhausted →
          Agrees i (y.after ts w far) (y.after ts' w' far'))

/-- Whether the shape has only such tokens, and names only such rules. -/
def Shape.consistsOf (leaves : Leaf → Bool) (rules : Rule → Bool) : Shape → Bool
  | .nothing => true
  | .leaf l => leaves l
  | .rule r => rules r
  | .both a b | .either a b => a.consistsOf leaves rules && b.consistsOf leaves rules
  | .star a | .phrase a => a.consistsOf leaves rules

namespace Lockstep

variable {ι : Type} {L : Lockstep ι} {n : Nat} {p q : Pattern Rule}

/-- Where an attempt gives a reply to the first text, the second text has a reply that agrees. -/
def Keeps (L : Lockstep ι) (n : Nat) (p : Pattern Rule) : Prop :=
  ∀ i, attempt Rule.pattern n p (L.left i) ≠ .exhausted →
    ∃ x', Runs Rule.pattern p (L.right i) x' ∧
      L.Agrees i (attempt Rule.pattern n p (L.left i)) x'

theorem Keeps.zero : L.Keeps 0 p := fun _ hx => absurd rfl hx

theorem Keeps.nothing : L.Keeps (n + 1) .nothing :=
  fun i _ => ⟨_, .nothing _, L.enough (L.failed i)⟩

theorem Keeps.rule {r : Rule} (h : L.Keeps n r.pattern) : L.Keeps (n + 1) (.rule r) := by
  intro i hx
  obtain ⟨x', hx', hagree⟩ := h i (Reply.ne_exhausted_of_named hx)
  exact ⟨_, .rule hx' rfl, L.named r hagree⟩

theorem Keeps.phrase (h : L.Keeps n p) : L.Keeps (n + 1) (.phrase p) := by
  intro i hx
  obtain ⟨x', hx', hagree⟩ := h i (Reply.ne_exhausted_of_asPhrase hx)
  exact ⟨_, .phrase hx' rfl, L.asPhrase hagree⟩

theorem Keeps.after {i : ι} {ts : List (Peg.Tree Rule)} {w : Nat} {rest : List Char} {far : Reach}
    {x' : Reply Rule} (hq : L.Keeps n q) (h : L.Agrees i (.matched ts w rest far) x')
    (hx : attempt Rule.pattern n q rest ≠ .exhausted) :
    ∃ ts' w' rest' far' y', x' = .matched ts' w' rest' far' ∧ Runs Rule.pattern q rest' y' ∧
      L.Agrees i ((attempt Rule.pattern n q rest).after ts w far) (y'.after ts' w' far') := by
  obtain ⟨ts', w', rest', far', rfl, ⟨j, rfl, rfl, hafter⟩ | ⟨rfl, hafter⟩⟩ := L.of_matched h
  · obtain ⟨y', hy', hagree⟩ := hq j hx
    exact ⟨_, _, _, _, y', rfl, hy', hafter _ _ hagree⟩
  · exact ⟨_, _, _, _, _, rfl, runs_of_attempt rfl hx, hafter _ hx⟩

theorem Keeps.both (hp : L.Keeps n p) (hq : L.Keeps n q) : L.Keeps (n + 1) (.both p q) := by
  intro i hx
  have hfirst := hp i
  simp only [attempt] at hx ⊢
  cases hrun : attempt Rule.pattern n p (L.left i) with
  | exhausted => exact absurd (by rw [hrun]) hx
  | failed far =>
    rw [hrun] at hfirst
    obtain ⟨x', hx', hagree⟩ := hfirst (by simp)
    obtain ⟨far', rfl⟩ := L.of_failed hagree
    exact ⟨_, .bothFails hx', hagree⟩
  | matched ts w rest far =>
    rw [hrun] at hfirst hx
    obtain ⟨x', hx', hagree⟩ := hfirst (by simp)
    obtain ⟨ts', w', rest', far', y', rfl, hy', hafter⟩ :=
      hq.after hagree (Reply.ne_exhausted_of_after hx)
    exact ⟨_, .both hx' hy' rfl, hafter⟩

theorem Keeps.either (hp : L.Keeps n p) (hq : L.Keeps n q) : L.Keeps (n + 1) (.either p q) := by
  intro i hx
  have hfirst := hp i
  simp only [attempt] at hx ⊢
  cases hrun : attempt Rule.pattern n p (L.left i) with
  | exhausted => exact absurd (by rw [hrun]) hx
  | failed far =>
    rw [hrun] at hfirst hx
    obtain ⟨x', hx', hagree⟩ := hfirst (by simp)
    obtain ⟨far', rfl⟩ := L.of_failed hagree
    obtain ⟨y', hy', hsecond⟩ := hq i (Reply.ne_exhausted_of_noting hx)
    exact ⟨_, .second hx' hy' rfl, L.noting hagree hsecond⟩
  | matched ts w rest far =>
    rw [hrun] at hfirst
    obtain ⟨x', hx', hagree⟩ := hfirst (by simp)
    obtain ⟨ts', w', rest', far', rfl, -⟩ := L.of_matched hagree
    exact ⟨_, .first hx', hagree⟩

theorem Keeps.star (hp : L.Keeps n p) (hstar : L.Keeps n (.star p)) :
    L.Keeps (n + 1) (.star p) := by
  intro i hx
  have hfirst := hp i
  simp only [attempt] at hx ⊢
  cases hrun : attempt Rule.pattern n p (L.left i) with
  | exhausted => exact absurd (by rw [hrun]) hx
  | failed far =>
    rw [hrun] at hfirst
    obtain ⟨x', hx', hagree⟩ := hfirst (by simp)
    obtain ⟨far', rfl⟩ := L.of_failed hagree
    exact ⟨_, .enough hx', L.enough hagree⟩
  | matched ts w rest far =>
    rw [hrun] at hfirst hx
    obtain ⟨x', hx', hagree⟩ := hfirst (by simp)
    obtain ⟨ts', w', rest', far', y', rfl, hy', hafter⟩ :=
      hstar.after hagree (Reply.ne_exhausted_of_after hx)
    exact ⟨_, .more hx' hy' rfl, hafter⟩

theorem keeps_both (hp : ∀ m < n, L.Keeps m p) (hq : ∀ m < n, L.Keeps m q) :
    L.Keeps n (.both p q) := by
  cases n with
  | zero => exact .zero
  | succ n => exact (hp n (Nat.lt_succ_self n)).both (hq n (Nat.lt_succ_self n))

/-- A pattern of the grammar that keeps the agreement however many steps it is given. -/
def Maintains (L : Lockstep ι) (p : Pattern Rule) : Prop := ∀ n, L.Keeps n p

/-- The tokens and the rules that a shape may be made of if two runs are to agree. -/
structure Vocabulary (L : Lockstep ι) where
  leaves : Leaf → Bool
  rules : Rule → Bool
  leaf (l : Leaf) (hl : leaves l = true) : L.Maintains l.pattern
  endOfScript : L.Maintains endOfScript
  gap : leaves .gap = true
  /-- A rule is made of such tokens and rules, or is known to keep the agreement. -/
  rule (r : Rule) (hr : rules r = true) :
    L.Maintains (.rule r) ∨ (Shape.ofRule r).consistsOf leaves rules = true
  body : (bodyParts.1.consistsOf leaves rules && bodyParts.2.consistsOf leaves rules) = true

theorem keeps_shape (V : L.Vocabulary) (n : Nat) (sh : Shape)
    (hsh : sh.consistsOf V.leaves V.rules = true) : L.Keeps n sh.pattern := by
  induction n using Nat.strongRecOn generalizing sh with
  | ind n ih =>
    cases n with
    | zero => exact .zero
    | succ n =>
      have hlt : n < n + 1 := Nat.lt_succ_self n
      cases sh with
      | nothing => exact .nothing
      | leaf l => exact V.leaf l hsh (n + 1)
      | rule r =>
        rcases V.rule r hsh with hkeeps | hr
        · exact hkeeps (n + 1)
        · refine Keeps.rule ?_
          by_cases hbody : r = .body
          · subst hbody
            obtain ⟨hfirst, hsecond⟩ := Bool.and_eq_true_iff.1 V.body
            have hgap := V.leaf .gap V.gap
            -- a gap, a part, a gap, a part, a gap, and the end
            refine keeps_both (fun m _ => hgap m) fun i hi => ?_
            refine keeps_both (fun m hm => ih m (by omega) bodyParts.1 hfirst) fun j hj => ?_
            refine keeps_both (fun m _ => hgap m) fun k hk => ?_
            refine keeps_both (fun m hm => ih m (by omega) bodyParts.2 hsecond) fun l hl => ?_
            exact keeps_both (fun m _ => hgap m) fun m _ => V.endOfScript m
          · rw [← Shape.pattern_ofRule hbody]
            exact ih n hlt (.ofRule r) hr
      | both a b =>
        obtain ⟨ha, hb⟩ := Bool.and_eq_true_iff.1 hsh
        exact (ih n hlt a ha).both (ih n hlt b hb)
      | either a b =>
        obtain ⟨ha, hb⟩ := Bool.and_eq_true_iff.1 hsh
        exact (ih n hlt a ha).either (ih n hlt b hb)
      | star a => exact (ih n hlt a hsh).star (ih n hlt (.star a) hsh)
      | phrase a => exact (ih n hlt a hsh).phrase

theorem maintains_of_runs
    (h : ∀ i x, Runs Rule.pattern p (L.left i) x →
      ∃ x', Runs Rule.pattern p (L.right i) x' ∧ L.Agrees i x x') : L.Maintains p :=
  fun _ i hx => h i _ (runs_of_attempt rfl hx)

/-- A rule that maintains the agreement gives a reply to the second text whenever it gives one to
the first. -/
theorem Maintains.runs (h : L.Maintains p) {i : ι} {x : Reply Rule}
    (hx : Runs Rule.pattern p (L.left i) x) :
    ∃ x', Runs Rule.pattern p (L.right i) x' ∧ L.Agrees i x x' := by
  obtain ⟨n, hn⟩ := hx.exists_attempt
  obtain ⟨x', hx', hagree⟩ := h n i (by rw [hn n (Nat.le_refl n)]; exact hx.ne_exhausted)
  rw [hn n (Nat.le_refl n)] at hagree
  exact ⟨x', hx', hagree⟩

theorem maintains_body (V : L.Vocabulary) (hbody : V.rules .body = true) :
    L.Maintains (.rule .body) := fun n => keeps_shape V n (.rule .body) hbody

end Lockstep

end EventMarkup.Script
