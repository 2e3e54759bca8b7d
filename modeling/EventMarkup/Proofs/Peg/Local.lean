import EventMarkup.Proofs.Peg.Runs

/-!
# What a reply depends on

Four facts about patterns. A match starts with a character that some part of the pattern takes
(`Runs.mayStart`), and ends with one (`Runs.mayEnd`). Characters may come with others: what holds a
mark that every match of a part takes, holds the mark (`Runs.mem_of_ties`). And a pattern that
cannot take the first character behind a text, whichever of two characters it is, takes the same
part of the text before either of them (`Runs.swap`).
-/

namespace EventMarkup.Peg

open Text

variable {ρ : Type} {body : ρ → Pattern ρ}

/-! ## The first character of a match -/

/-- Whether the pattern takes a character whenever it matches. -/
def Pattern.isSolid : Pattern ρ → Bool
  | .nothing | .atEnd | .rule _ | .star _ | .ahead _ | .notAhead _ => false
  | .one _ => true
  | .text cs => !cs.isEmpty
  | .both a b => a.isSolid || b.isSolid
  | .either a b => a.isSolid && b.isSolid
  | .token a => a.isSolid
  | .phrase a => a.isSolid

theorem Runs.width_ne_zero_of_isSolid {p : Pattern ρ} {s : List Char} {x : Reply ρ}
    (h : Runs body p s x) {ts : List (Tree ρ)} {w : Nat} {rest : List Char} {far : Reach}
    (hx : x = .matched ts w rest far) (hp : p.isSolid = true) : w ≠ 0 := by
  induction h generalizing ts w rest far with
  | one _ s =>
    cases hx
    exact Nat.one_ne_zero
  | @text cs s rest hd =>
    cases hx
    simpa [Pattern.isSolid] using hp
  | @both _ _ _ _ _ v _ _ _ _ _ hy iha ihb =>
    obtain ⟨us, n, e, hus, -, rfl, -⟩ := Reply.after_eq_matched (hy.symm.trans hx)
    rcases Bool.or_eq_true_iff.1 hp with hp | hp
    · have := iha rfl hp
      omega
    · have := ihb hus hp
      omega
  | first _ ih => exact ih hx (Bool.and_eq_true_iff.1 hp).1
  | second _ _ hy _ ih =>
    obtain ⟨e, he, -⟩ := Reply.noting_eq_matched (hy.symm.trans hx)
    exact ih he (Bool.and_eq_true_iff.1 hp).2
  | token _ hy ih =>
    obtain ⟨e, he, -⟩ := Reply.asToken_eq_matched (hy.symm.trans hx)
    exact ih he hp
  | phrase _ hy ih => exact ih (Reply.asPhrase_eq_matched (hy.symm.trans hx)) hp
  | nothing _ | atEnd | rule _ _ _ | more _ _ _ _ _ | enough _ _ | ahead _ _ | notAhead _ _ =>
    cases hp
  | _ => cases hx

/-- Whether a match that takes a character may start with the given one. -/
def Pattern.mayStart (c : Char) : Pattern ρ → Bool
  | .nothing | .atEnd | .ahead _ | .notAhead _ => false
  | .one ok => ok c
  | .text cs => cs.head? == some c
  | .rule _ => true
  | .both a b => a.mayStart c || (!a.isSolid && b.mayStart c)
  | .either a b => a.mayStart c || b.mayStart c
  | .star a => a.mayStart c
  | .token a => a.mayStart c
  | .phrase a => a.mayStart c

theorem Runs.mayStart {p : Pattern ρ} {c : Char} {s t : List Char} {x : Reply ρ}
    (h : Runs body p s x) (hs : s = c :: t) {ts : List (Tree ρ)} {w : Nat} {rest : List Char}
    {far : Reach} (hx : x = .matched ts w rest far) (hw : w ≠ 0) : p.mayStart c = true := by
  induction h generalizing ts w rest far with
  | nothing s => cases hx; exact absurd rfl hw
  | one hc s =>
    cases hs
    exact hc
  | @text cs s rest hd =>
    cases hx
    subst hs
    cases cs with
    | nil => exact absurd rfl hw
    | cons d cs =>
      have happ := eq_append_of_dropFront? hd
      simp only [List.cons_append, List.cons.injEq] at happ
      simp [Pattern.mayStart, happ.1]
  | atEnd => cases hs
  | rule _ _ _ => rfl
  | @both a _ _ _ _ v _ _ _ ha _ hy iha ihb =>
    obtain ⟨us, n, e, hus, -, rfl, -⟩ := Reply.after_eq_matched (hy.symm.trans hx)
    by_cases hv : v = 0
    · subst hv
      have hlength := ha.length_eq
      have hsuffix := ha.suffix.eq_of_length (by omega)
      have hempty : a.isSolid = false :=
        Bool.eq_false_iff.2 fun h => ha.width_ne_zero_of_isSolid rfl h rfl
      rw [Pattern.mayStart, ihb (hsuffix.trans hs) hus (by omega), hempty, Bool.not_false,
        Bool.and_self, Bool.or_true]
    · rw [Pattern.mayStart, iha hs rfl hv, Bool.true_or]
  | first _ ih => rw [Pattern.mayStart, ih hs hx hw, Bool.true_or]
  | second _ _ hy _ ih =>
    obtain ⟨e, he, -⟩ := Reply.noting_eq_matched (hy.symm.trans hx)
    rw [Pattern.mayStart, ih hs he hw, Bool.or_true]
  | @more _ _ _ _ v _ _ _ ha _ hy iha ihs =>
    obtain ⟨us, n, e, hus, -, rfl, -⟩ := Reply.after_eq_matched (hy.symm.trans hx)
    by_cases hv : v = 0
    · subst hv
      have hlength := ha.length_eq
      have hsuffix := ha.suffix.eq_of_length (by omega)
      exact ihs (hsuffix.trans hs) hus (by omega)
    · exact iha hs rfl hv
  | enough _ _ => cases hx; exact absurd rfl hw
  | ahead _ _ => cases hx; exact absurd rfl hw
  | notAhead _ _ => cases hx; exact absurd rfl hw
  | token _ hy ih =>
    obtain ⟨e, he, -⟩ := Reply.asToken_eq_matched (hy.symm.trans hx)
    exact ih hs he hw
  | phrase _ hy ih => exact ih hs (Reply.asPhrase_eq_matched (hy.symm.trans hx)) hw
  | _ => cases hx

/-! ## The last character of a match -/

/-- Whether a match that takes a character may end with the given one. -/
def Pattern.mayEnd (c : Char) : Pattern ρ → Bool
  | .nothing | .atEnd | .ahead _ | .notAhead _ => false
  | .one ok => ok c
  | .text cs => cs.getLast? == some c
  | .rule _ => true
  | .both a b => b.mayEnd c || (!b.isSolid && a.mayEnd c)
  | .either a b => a.mayEnd c || b.mayEnd c
  | .star a => a.mayEnd c
  | .token a => a.mayEnd c
  | .phrase a => a.mayEnd c

theorem Runs.mayEnd {p : Pattern ρ} {c : Char} {s : List Char} {x : Reply ρ}
    (h : Runs body p s x) {ts : List (Tree ρ)} {w : Nat} {rest : List Char} {far : Reach}
    (hx : x = .matched ts w rest far) (hc : (Tree.yieldAll ts).getLast? = some c) :
    p.mayEnd c = true := by
  induction h generalizing ts w rest far with
  | nothing | atEnd | enough | ahead | notAhead =>
    cases hx
    cases hc
  | one hd s =>
    cases hx
    cases hc
    exact hd
  | text hd =>
    cases hx
    rw [Tree.yieldAll_map_leaf] at hc
    rw [Pattern.mayEnd, hc, beq_self_eq_true]
  | rule => rfl
  | @both a b _ _ _ _ _ _ _ _ hb hy iha ihb =>
    obtain ⟨us, n, e, rfl, rfl, -, -⟩ := Reply.after_eq_matched (hy.symm.trans hx)
    rw [Tree.yieldAll_append, List.getLast?_append] at hc
    rcases Option.or_eq_some_iff.1 hc with hc | ⟨hnone, hc⟩
    · rw [Pattern.mayEnd, ihb rfl hc, Bool.true_or]
    · have hwidth := (hb.append rfl).2
      rw [List.getLast?_eq_none_iff.1 hnone] at hwidth
      have hempty : b.isSolid = false :=
        Bool.eq_false_iff.2 fun h => hb.width_ne_zero_of_isSolid rfl h hwidth.symm
      rw [Pattern.mayEnd, iha rfl hc, hempty, Bool.not_false, Bool.and_self, Bool.or_true]
  | first _ ih => rw [Pattern.mayEnd, ih hx hc, Bool.true_or]
  | second _ _ hy _ ih =>
    obtain ⟨e, he, -⟩ := Reply.noting_eq_matched (hy.symm.trans hx)
    rw [Pattern.mayEnd, ih he hc, Bool.or_true]
  | more _ _ hy iha ihs =>
    obtain ⟨us, n, e, rfl, rfl, -, -⟩ := Reply.after_eq_matched (hy.symm.trans hx)
    rw [Tree.yieldAll_append, List.getLast?_append] at hc
    rcases Option.or_eq_some_iff.1 hc with hc | ⟨-, hc⟩
    · exact ihs rfl hc
    · exact iha rfl hc
  | token _ hy ih =>
    obtain ⟨e, he, -⟩ := Reply.asToken_eq_matched (hy.symm.trans hx)
    exact ih he hc
  | phrase _ hy ih => exact ih (Reply.asPhrase_eq_matched (hy.symm.trans hx)) hc
  | _ => cases hx

/-! ## Characters that come with others -/

namespace Pattern

/-- Whether every match of the pattern takes the mark. -/
def needs (mark : Char) : Pattern ρ → Bool
  | .text cs => cs.contains mark
  | .both a b => a.needs mark || b.needs mark
  | .either a b => a.needs mark && b.needs mark
  | .token a => a.needs mark
  | .phrase a => a.needs mark
  | _ => false

/-- Whether a match of the pattern that takes the character takes the mark as well. -/
def ties (mark c : Char) : Pattern ρ → Bool
  | .nothing | .atEnd | .ahead _ | .notAhead _ => true
  | .one ok => !ok c
  | .text cs => !cs.contains c || cs.contains mark
  | .rule _ => false
  | .both a b => a.needs mark || b.needs mark || (a.ties mark c && b.ties mark c)
  | .either a b => a.ties mark c && b.ties mark c
  | .star a => a.ties mark c
  | .token a => a.ties mark c
  | .phrase a => a.ties mark c

end Pattern

theorem Runs.mem_of_needs {p : Pattern ρ} {s : List Char} {mark : Char} {x : Reply ρ}
    (h : Runs body p s x) {ts : List (Tree ρ)} {w : Nat} {rest : List Char} {far : Reach}
    (hx : x = .matched ts w rest far) (hp : p.needs mark = true) : mark ∈ Tree.yieldAll ts := by
  induction h generalizing ts w rest far with
  | text hd =>
    cases hx
    rw [Tree.yieldAll_map_leaf]
    simpa [Pattern.needs] using hp
  | both _ _ hy iha ihb =>
    obtain ⟨us, n, e, hus, rfl, -, -⟩ := Reply.after_eq_matched (hy.symm.trans hx)
    rw [Tree.yieldAll_append, List.mem_append]
    exact (Bool.or_eq_true_iff.1 hp).imp (iha rfl) (ihb hus)
  | first _ ih => exact ih hx (Bool.and_eq_true_iff.1 hp).1
  | second _ _ hy _ ih =>
    obtain ⟨e, he, -⟩ := Reply.noting_eq_matched (hy.symm.trans hx)
    exact ih he (Bool.and_eq_true_iff.1 hp).2
  | token _ hy ih =>
    obtain ⟨e, he, -⟩ := Reply.asToken_eq_matched (hy.symm.trans hx)
    exact ih he hp
  | phrase _ hy ih => exact ih (Reply.asPhrase_eq_matched (hy.symm.trans hx)) hp
  | nothing _ | one _ _ | atEnd | rule _ _ _ | more _ _ _ _ _ | enough _ _ | ahead _ _
  | notAhead _ _ => cases hp
  | _ => cases hx

theorem Runs.mem_of_ties {p : Pattern ρ} {s : List Char} {mark c : Char} {x : Reply ρ}
    (h : Runs body p s x) {ts : List (Tree ρ)} {w : Nat} {rest : List Char} {far : Reach}
    (hx : x = .matched ts w rest far) (hp : p.ties mark c = true) (hc : c ∈ Tree.yieldAll ts) :
    mark ∈ Tree.yieldAll ts := by
  induction h generalizing ts w rest far with
  | @one ok d hd s =>
    cases hx
    simp only [Tree.yieldAll, Tree.yield, List.append_nil, List.mem_singleton] at hc
    subst hc
    simp [Pattern.ties, hd] at hp
  | text hd =>
    cases hx
    rw [Tree.yieldAll_map_leaf] at hc ⊢
    simpa [Pattern.ties, hc] using hp
  | both ha hb hy iha ihb =>
    obtain ⟨us, n, e, hus, rfl, -, -⟩ := Reply.after_eq_matched (hy.symm.trans hx)
    subst hus
    rw [Tree.yieldAll_append, List.mem_append] at hc ⊢
    simp only [Pattern.ties, Bool.or_eq_true, Bool.and_eq_true] at hp
    rcases hp with (hp | hp) | hp
    · exact .inl (ha.mem_of_needs rfl hp)
    · exact .inr (hb.mem_of_needs rfl hp)
    · exact hc.imp (iha rfl hp.1) (ihb rfl hp.2)
  | first _ ih => exact ih hx (Bool.and_eq_true_iff.1 hp).1 hc
  | second _ _ hy _ ih =>
    obtain ⟨e, he, -⟩ := Reply.noting_eq_matched (hy.symm.trans hx)
    exact ih he (Bool.and_eq_true_iff.1 hp).2 hc
  | more _ _ hy iha ihs =>
    obtain ⟨us, n, e, hus, rfl, -, -⟩ := Reply.after_eq_matched (hy.symm.trans hx)
    rw [Tree.yieldAll_append, List.mem_append] at hc ⊢
    exact hc.imp (iha rfl hp) (ihs hus hp)
  | token _ hy ih =>
    obtain ⟨e, he, -⟩ := Reply.asToken_eq_matched (hy.symm.trans hx)
    exact ih he hp hc
  | phrase _ hy ih => exact ih (Reply.asPhrase_eq_matched (hy.symm.trans hx)) hp hc
  | nothing _ | atEnd | enough _ _ | ahead _ _ | notAhead _ _ =>
    cases hx
    cases hc
  | rule _ _ _ => cases hp
  | _ => cases hx

/-! ## Characters that cannot be taken -/

namespace Pattern

/-- Whether the pattern names no rule and can take no character like the first one of the text. -/
def shuns (s : List Char) : Pattern ρ → Bool
  | .nothing => true
  | .one ok => s.head?.all fun c => !ok c
  | .text cs => s.head?.all fun c => !cs.contains c
  | .atEnd | .rule _ => false
  | .both a b => a.shuns s && b.shuns s
  | .either a b => a.shuns s && b.shuns s
  | .star a => a.shuns s
  | .ahead a => a.shuns s
  | .notAhead a => a.shuns s
  | .token a => a.shuns s
  | .phrase a => a.shuns s

end Pattern

theorem Pattern.shuns_cons {p : Pattern ρ} {c : Char} (t : List Char) :
    p.shuns (c :: t) = p.shuns [c] := by
  induction p with
  | both a b iha ihb => rw [shuns, shuns, iha, ihb]
  | either a b iha ihb => rw [shuns, shuns, iha, ihb]
  | star a ih => exact ih
  | ahead a ih => exact ih
  | notAhead a ih => exact ih
  | token a ih => exact ih
  | phrase a ih => exact ih
  | _ => rfl

theorem Runs.not_mem_of_shuns {p : Pattern ρ} {s : List Char} {c : Char} {x : Reply ρ}
    (h : Runs body p s x) {ts : List (Tree ρ)} {w : Nat} {rest : List Char} {far : Reach}
    (hx : x = .matched ts w rest far) (hp : p.shuns [c] = true) : c ∉ Tree.yieldAll ts := by
  induction h generalizing ts w rest far with
  | @one ok d hd s =>
    cases hx
    simp only [Tree.yieldAll, Tree.yield, List.append_nil, List.mem_singleton]
    rintro rfl
    simp [Pattern.shuns, hd] at hp
  | @text cs s rest hd =>
    cases hx
    rw [Tree.yieldAll_map_leaf]
    simpa [Pattern.shuns] using hp
  | both _ _ hy iha ihb =>
    obtain ⟨us, n, e, hus, rfl, -, -⟩ := Reply.after_eq_matched (hy.symm.trans hx)
    simp only [Pattern.shuns, Bool.and_eq_true] at hp
    simp [iha rfl hp.1, ihb hus hp.2]
  | first _ ih =>
    simp only [Pattern.shuns, Bool.and_eq_true] at hp
    exact ih hx hp.1
  | second _ _ hy _ ih =>
    obtain ⟨e, he, -⟩ := Reply.noting_eq_matched (hy.symm.trans hx)
    simp only [Pattern.shuns, Bool.and_eq_true] at hp
    exact ih he hp.2
  | more _ _ hy iha ihs =>
    obtain ⟨us, n, e, hus, rfl, -, -⟩ := Reply.after_eq_matched (hy.symm.trans hx)
    simp [iha rfl hp, ihs hus hp]
  | token _ hy ih =>
    obtain ⟨e, he, -⟩ := Reply.asToken_eq_matched (hy.symm.trans hx)
    exact ih he hp
  | phrase _ hy ih => exact ih (Reply.asPhrase_eq_matched (hy.symm.trans hx)) hp
  | nothing _ | enough _ _ | ahead _ _ | notAhead _ _ =>
    cases hx
    simp [Tree.yieldAll]
  | atEnd | rule _ _ _ => cases hp
  | _ => cases hx

/-- Two replies that differ in no more than how the rest of the text ends. -/
inductive Swapped (u v : List Char) : Reply ρ → Reply ρ → Prop where
  | matched (ts : List (Tree ρ)) (w : Nat) (z : List Char) (far : Reach) :
    Swapped u v (.matched ts w (z ++ u) far) (.matched ts w (z ++ v) far)
  | failed (far : Reach) : Swapped u v (.failed far) (.failed far)

section Swap

variable {u v : List Char}

theorem dropFront?_swap {cs z : List Char} (hu : (Pattern.text (ρ := ρ) cs).shuns u = true)
    (hv : (Pattern.text (ρ := ρ) cs).shuns v = true) :
    (∃ z', dropFront? cs (z ++ u) = some (z' ++ u) ∧ dropFront? cs (z ++ v) = some (z' ++ v)) ∨
      dropFront? cs (z ++ u) = none ∧ dropFront? cs (z ++ v) = none := by
  induction cs generalizing z with
  | nil => exact .inl ⟨z, rfl, rfl⟩
  | cons c cs ih =>
    have hstop : ∀ t : List Char, (Pattern.text (ρ := ρ) (c :: cs)).shuns t = true →
        dropFront? (c :: cs) t = none := by
      intro t ht
      cases t with
      | nil => rfl
      | cons d t =>
        simp [Pattern.shuns] at ht
        simp [dropFront?, Ne.symm ht.1]
    have hless : ∀ t : List Char, (Pattern.text (ρ := ρ) (c :: cs)).shuns t = true →
        (Pattern.text (ρ := ρ) cs).shuns t = true := by
      intro t ht
      cases t with
      | nil => rfl
      | cons d t =>
        simp [Pattern.shuns] at ht ⊢
        exact ht.2
    cases z with
    | nil => exact .inr ⟨hstop u hu, hstop v hv⟩
    | cons d z =>
      by_cases hd : c = d
      · simpa [dropFront?, hd] using ih (hless u hu) (hless v hv)
      · right
        simp [dropFront?, hd]

theorem Swapped.after {x y : Reply ρ} (h : Swapped u v x y) (ts : List (Tree ρ)) (w : Nat)
    (far : Reach) : Swapped u v (x.after ts w far) (y.after ts w far) := by
  cases h with
  | matched us n z e => exact .matched _ _ _ _
  | failed e => exact .failed _

theorem Swapped.noting {x y : Reply ρ} (h : Swapped u v x y) (far : Reach) :
    Swapped u v (x.noting far) (y.noting far) := by
  cases h with
  | matched us n z e => exact .matched _ _ _ _
  | failed e => exact .failed _

/-- A pattern that can take neither what follows in the one text nor what follows in the other has
the same reply to both. -/
theorem Runs.swap {p : Pattern ρ} {s z : List Char} {x : Reply ρ} (h : Runs body p s x)
    (hs : s = z ++ u) (hu : p.shuns u = true) (hv : p.shuns v = true) :
    ∃ y, Runs body p (z ++ v) y ∧ Swapped u v x y := by
  induction h generalizing z with
  | nothing s =>
    subst hs
    exact ⟨_, .nothing _, .matched _ _ _ _⟩
  | @one ok c hc s =>
    cases z with
    | nil =>
      subst hs
      simp [Pattern.shuns, hc] at hu
    | cons d z =>
      cases hs
      exact ⟨_, .one hc _, .matched _ _ _ _⟩
  | @oneFails ok c hc s =>
    cases z with
    | nil =>
      cases v with
      | nil => exact ⟨_, .oneEnds ok, .failed _⟩
      | cons d v => exact ⟨_, .oneFails (by simpa [Pattern.shuns] using hv) v, .failed _⟩
    | cons d z =>
      cases hs
      exact ⟨_, .oneFails hc _, .failed _⟩
  | oneEnds ok =>
    obtain ⟨rfl, rfl⟩ := List.append_eq_nil_iff.1 hs.symm
    cases v with
    | nil => exact ⟨_, .oneEnds ok, .failed _⟩
    | cons d v => exact ⟨_, .oneFails (by simpa [Pattern.shuns] using hv) v, .failed _⟩
  | text hd =>
    subst hs
    rcases dropFront?_swap (z := z) hu hv with ⟨z', hu', hv'⟩ | ⟨hu', -⟩
    · rw [hd] at hu'
      cases hu'
      exact ⟨_, .text hv', .matched _ _ _ _⟩
    · rw [hd] at hu'
      cases hu'
  | textFails hd =>
    subst hs
    rcases dropFront?_swap (z := z) hu hv with ⟨z', hu', -⟩ | ⟨-, hv'⟩
    · rw [hd] at hu'
      cases hu'
    · exact ⟨_, .textFails hv', .failed _⟩
  | atEnd => cases hu
  | atEndFails c s => cases hu
  | rule _ _ _ => cases hu
  | both _ _ hy iha ihb =>
    simp only [Pattern.shuns, Bool.and_eq_true] at hu hv
    obtain ⟨_, ha, hswap⟩ := iha hs hu.1 hv.1
    cases hswap with
    | matched _ _ z' _ =>
      obtain ⟨_, hb, hswap⟩ := ihb rfl hu.2 hv.2
      exact ⟨_, .both ha hb rfl, hy ▸ hswap.after _ _ _⟩
  | bothFails _ ih =>
    simp only [Pattern.shuns, Bool.and_eq_true] at hu hv
    obtain ⟨_, ha, hswap⟩ := ih hs hu.1 hv.1
    cases hswap
    exact ⟨_, .bothFails ha, .failed _⟩
  | first _ ih =>
    simp only [Pattern.shuns, Bool.and_eq_true] at hu hv
    obtain ⟨_, ha, hswap⟩ := ih hs hu.1 hv.1
    cases hswap
    exact ⟨_, .first ha, .matched _ _ _ _⟩
  | second _ _ hy iha ihb =>
    simp only [Pattern.shuns, Bool.and_eq_true] at hu hv
    obtain ⟨_, ha, hswap⟩ := iha hs hu.1 hv.1
    cases hswap
    obtain ⟨_, hb, hswap⟩ := ihb hs hu.2 hv.2
    exact ⟨_, .second ha hb rfl, hy ▸ hswap.noting _⟩
  | more _ _ hy iha ihs =>
    obtain ⟨_, ha, hswap⟩ := iha hs hu hv
    cases hswap with
    | matched _ _ z' _ =>
      obtain ⟨_, hs, hswap⟩ := ihs rfl hu hv
      exact ⟨_, .more ha hs rfl, hy ▸ hswap.after _ _ _⟩
  | enough _ ih =>
    obtain ⟨_, ha, hswap⟩ := ih hs hu hv
    cases hswap
    exact ⟨_, .enough ha, hs ▸ .matched _ _ _ _⟩
  | ahead _ ih =>
    obtain ⟨_, ha, hswap⟩ := ih hs hu hv
    cases hswap
    exact ⟨_, .ahead ha, hs ▸ .matched _ _ _ _⟩
  | aheadFails _ ih =>
    obtain ⟨_, ha, hswap⟩ := ih hs hu hv
    cases hswap
    exact ⟨_, .aheadFails ha, .failed _⟩
  | notAhead _ ih =>
    obtain ⟨_, ha, hswap⟩ := ih hs hu hv
    cases hswap
    exact ⟨_, .notAhead ha, hs ▸ .matched _ _ _ _⟩
  | notAheadFails _ ih =>
    obtain ⟨_, ha, hswap⟩ := ih hs hu hv
    cases hswap
    exact ⟨_, .notAheadFails ha, .failed _⟩
  | token _ hy ih =>
    obtain ⟨_, ha, hswap⟩ := ih hs hu hv
    refine ⟨_, .token ha rfl, ?_⟩
    subst hy
    cases hswap with
    | matched _ _ z' _ => exact .matched _ _ _ _
    | failed _ => exact .failed _
  | phrase _ hy ih =>
    obtain ⟨_, ha, hswap⟩ := ih hs hu hv
    refine ⟨_, .phrase ha rfl, ?_⟩
    subst hy
    cases hswap with
    | matched _ _ z' _ => exact .matched _ _ _ _
    | failed _ => exact .failed _

end Swap

end EventMarkup.Peg
