import EventMarkup.Proofs.Script.Lockstep
import EventMarkup.Proofs.Script.Rounds

/-!
# Two words in the place of a character

Two texts that differ only in which of two words they have wherever a third text has a certain
character are read in lockstep, if every token is. Then the rounds go on in lockstep as well: they
put their semicolons at places that belong together, so that the two texts come to the same answer
(`Exchange.isBody_eq`).
-/

namespace EventMarkup.Script

open Peg Text

variable {s t y z r u v : List Char} {c : Char} {p : Pattern Rule}

/-! ## Filled texts -/

/-- The text with a word in the place of each occurrence of a character. -/
def filled (mark : Char) (word s : List Char) : List Char :=
  s.flatMap fun c => if c = mark then word else [c]

section Filled

variable {mark : Char} {word : List Char}

@[simp] theorem filled_nil : filled mark word [] = [] := rfl

@[simp] theorem filled_append (s t : List Char) :
    filled mark word (s ++ t) = filled mark word s ++ filled mark word t :=
  List.flatMap_append

theorem filled_mark (s : List Char) : filled mark word (mark :: s) = word ++ filled mark word s := by
  simp [filled]

theorem filled_cons (hc : c ≠ mark) (s : List Char) :
    filled mark word (c :: s) = c :: filled mark word s := by
  simp [filled, hc]

theorem filled_eq_self (hs : mark ∉ s) : filled mark word s = s := by
  induction s with
  | nil => rfl
  | cons c s ih =>
    rw [List.mem_cons, not_or] at hs
    rw [filled_cons (Ne.symm hs.1), ih hs.2]

theorem filled_singleton (s : List Char) : filled mark [mark] s = s := by
  induction s with
  | nil => rfl
  | cons c s ih =>
    by_cases hc : c = mark
    · subst hc
      rw [filled_mark, ih]
      rfl
    · rw [filled_cons hc, ih]

theorem filled_eq_nil_iff (hword : word ≠ []) : filled mark word s = [] ↔ s = [] := by
  cases s with
  | nil => simp
  | cons c s =>
    by_cases hc : c = mark
    · subst hc
      simp [filled_mark, hword]
    · simp [filled_cons hc]

theorem farther_filled (h : y <+: z) :
    Reach.farther (some (filled mark word y).length) (some (filled mark word z).length) =
        some (filled mark word z).length ∧
      Reach.farther (some (filled mark word z).length) (some (filled mark word y).length) =
        some (filled mark word z).length := by
  obtain ⟨x, rfl⟩ := h
  simp [Reach.farther]

end Filled

theorem isChain_semicolon {R : Char → Char → Prop} (h : (y ++ s).IsChain R)
    (hleft : ∀ c, R c ';') (hright : ∀ c, R ';' c) : (y ++ ';' :: s).IsChain R := by
  rw [List.isChain_append] at h ⊢
  refine ⟨h.1, List.isChain_cons.2 ⟨fun c _ => hright c, h.2.1⟩, fun c _ d hd => ?_⟩
  cases hd
  exact hleft c

/-! ## Exchanges -/

/-- A character, two words that may stand in its place, and the texts in which one may stand for the
other. -/
structure Exchange where
  mark : Char
  first : List Char
  second : List Char
  first_ne_nil : first ≠ []
  second_ne_nil : second ≠ []
  /-- Between the tokens the words count for the same: both are blank and break the line or both do
  not, or neither has a blank in it. -/
  blank : (∀ c ∈ first ++ second, isBlank c = true) ∧
      first.any isLineEnd = second.any isLineEnd ∨
    ∀ c ∈ first ++ second, isBlank c = false
  semicolon : ';' ∉ mark :: (first ++ second)
  Admits : List Char → Prop
  admits_of_append {y s : List Char} (h : Admits (y ++ s)) : Admits s
  admits_semicolon {y s : List Char} (h : Admits (y ++ s)) : Admits (y ++ ';' :: s)

theorem Reads.exists_run {f : List Char → Option (List Char)} (hp : Reads p f) (s : List Char) :
    ∃ x, Runs Rule.pattern p s x := by
  cases hf : f s with
  | none =>
    obtain ⟨far, h⟩ := hp.refuses hf
    exact ⟨_, h⟩
  | some rest =>
    obtain ⟨ts, w, far, h⟩ := hp.takes hf
    exact ⟨_, h⟩

namespace Exchange

variable {E : Exchange}

abbrev left (E : Exchange) (s : List Char) : List Char := filled E.mark E.first s

abbrev right (E : Exchange) (s : List Char) : List Char := filled E.mark E.second s

/-! ## Replies -/

/-- Nothing is told of either text, or of both that a pattern failed behind the same front. -/
def SameReach (E : Exchange) (s : List Char) (a a' : Reach) : Prop :=
  a = none ∧ a' = none ∨ ∃ y, y <+: s ∧ a = some (E.left y).length ∧ a' = some (E.right y).length

section Reaches

variable {a a' b b' : Reach}

theorem SameReach.none : E.SameReach s none none := .inl ⟨rfl, rfl⟩

theorem SameReach.zero : E.SameReach s (some 0) (some 0) := .inr ⟨[], List.nil_prefix, rfl, rfl⟩

theorem SameReach.farther (ha : E.SameReach s a a') (hb : E.SameReach s b b') :
    E.SameReach s (a.farther b) (a'.farther b') := by
  rcases ha with ⟨rfl, rfl⟩ | ⟨y, hy, rfl, rfl⟩
  · exact hb
  · rcases hb with ⟨rfl, rfl⟩ | ⟨z, hz, rfl, rfl⟩
    · exact .inr ⟨y, hy, rfl, rfl⟩
    · rcases List.prefix_or_prefix_of_prefix hy hz with h | h
      · exact .inr ⟨z, hz, (farther_filled h).1, (farther_filled h).1⟩
      · exact .inr ⟨y, hy, (farther_filled h).2, (farther_filled h).2⟩

theorem SameReach.shift (h : E.SameReach s a a') (y : List Char) :
    E.SameReach (y ++ s) (a.shift (E.left y).length) (a'.shift (E.right y).length) := by
  rcases h with ⟨rfl, rfl⟩ | ⟨z, ⟨r, rfl⟩, rfl, rfl⟩
  · exact .none
  · exact .inr ⟨y ++ z, ⟨r, by simp⟩, by simp [Reach.shift], by simp [Reach.shift]⟩

end Reaches

/-- The replies to the two texts: both match up to places that belong together, or both fail. -/
inductive Twin (E : Exchange) (s : List Char) : Reply Rule → Reply Rule → Prop where
  | matched {y r : List Char} {ts ts' : List (Peg.Tree Rule)} {far far' : Reach} (hs : s = y ++ r)
    (h : E.SameReach s far far') :
    Twin E s (.matched ts (E.left y).length (E.left r) far)
      (.matched ts' (E.right y).length (E.right r) far')
  | failed {far far' : Reach} (h : E.SameReach s far far') : Twin E s (.failed far) (.failed far')

variable {x x' : Reply Rule} {far far' : Reach}

theorem Twin.noting (hfar : E.SameReach s far far') (h : E.Twin s x x') :
    E.Twin s (x.noting far) (x'.noting far') := by
  cases h with
  | matched hs h => exact .matched hs (hfar.farther h)
  | failed h => exact .failed (hfar.farther h)

theorem Twin.after {ts ts' : List (Peg.Tree Rule)} (hfar : E.SameReach (y ++ s) far far')
    (h : E.Twin s x x') :
    E.Twin (y ++ s) (x.after ts (E.left y).length far) (x'.after ts' (E.right y).length far') := by
  cases h with
  | @matched z r us us' e e' hs h =>
    subst hs
    have hmatch : E.Twin (y ++ (z ++ r))
        (.matched (ts ++ us) (E.left (y ++ z)).length (E.left r) (far.farther (e.shift _)))
        (.matched (ts' ++ us') (E.right (y ++ z)).length (E.right r) (far'.farther (e'.shift _))) :=
      .matched (by simp) (hfar.farther (h.shift y))
    simpa only [filled_append, List.length_append, Reply.after] using hmatch
  | failed h => exact .failed (hfar.farther (h.shift y))

/-- The texts with the first word, side by side with those that have the second. -/
def lockstep (E : Exchange) : Lockstep { s : List Char // E.Admits s } where
  left s := E.left s.1
  right s := E.right s.1
  Agrees s := E.Twin s.1
  failed _ := .failed .none
  named r h := by
    cases h with
    | matched hs h => exact .matched hs h
    | failed h => exact .failed h
  asPhrase h := by
    cases h with
    | matched hs h => exact .matched hs h
    | failed h => exact .failed (SameReach.zero.farther h)
  noting h hx := by
    cases h with
    | failed h => exact hx.noting h
  enough {s _ _} h := by
    cases h with
    | failed h => exact .matched (y := []) (r := s.1) rfl h
  of_failed h := by
    cases h
    exact ⟨_, rfl⟩
  of_matched {s ts w rest far x'} h := by
    obtain ⟨s, hadmits⟩ := s
    cases h with
    | @matched y r _ _ _ _ hs h =>
      obtain rfl : s = y ++ r := hs
      exact ⟨_, _, _, _, rfl, .inl ⟨⟨r, E.admits_of_append hadmits⟩, rfl, rfl,
        fun _ _ htwin => htwin.after h⟩⟩

/-! ## Tokens -/

/-- The pattern stops at places of the two texts that belong together, or refuses both texts. -/
def Together (E : Exchange) (p : Pattern Rule) (s : List Char) : Prop :=
  Refuses p (E.left s) ∧ Refuses p (E.right s) ∨
    ∃ y r, s = y ++ r ∧ Takes p (E.left s) (E.left r) ∧ Takes p (E.right s) (E.right r)

theorem together_of_reads {f : List Char → Option (List Char)} (hp : Reads p f)
    (h : f (E.left s) = none ∧ f (E.right s) = none ∨
      ∃ y r, s = y ++ r ∧ f (E.left s) = some (E.left r) ∧ f (E.right s) = some (E.right r)) :
    E.Together p s := by
  rcases h with ⟨hl, hr⟩ | ⟨y, r, hs, hl, hr⟩
  · exact .inl ⟨hp.refuses hl, hp.refuses hr⟩
  · exact .inr ⟨y, r, hs, hp.takes hl, hp.takes hr⟩

theorem shuns_nil (h : p.shuns (c :: t) = true) : p.shuns [] = true := by
  induction p with
  | both a b iha ihb | either a b iha ihb =>
    obtain ⟨ha, hb⟩ := Bool.and_eq_true_iff.1 h
    exact Bool.and_eq_true_iff.2 ⟨iha ha, ihb hb⟩
  | star a ih | ahead a ih | notAhead a ih | token a ih | phrase a ih => exact ih h
  | rule | atEnd => cases h
  | _ => rfl

theorem shuns_append {word : List Char} (hword : word ≠ []) (h : p.shuns word = true) :
    p.shuns (word ++ t) = true := by
  cases word with
  | nil => exact absurd rfl hword
  | cons c word => rwa [List.cons_append, Pattern.shuns_cons, ← Pattern.shuns_cons]

theorem together_of_split (hz : E.mark ∉ z) (hleft : p.shuns (E.left u) = true)
    (hright : p.shuns (E.right u) = true) (h : Runs Rule.pattern p (E.left (z ++ u)) x) :
    E.Together p (z ++ u) := by
  have hfront : ∀ {word y : List Char}, E.mark ∉ y →
      filled E.mark word (y ++ u) = y ++ filled E.mark word u :=
    fun hy => by rw [filled_append, filled_eq_self hy]
  rw [left, hfront hz] at h
  obtain ⟨x', hx', hswap⟩ := h.swap rfl hleft hright
  cases hswap with
  | failed far =>
    refine .inl ⟨⟨far, ?_⟩, far, ?_⟩
    · rwa [left, hfront hz]
    · rwa [right, hfront hz]
  | matched ts w r far =>
    have hsplit := (h.append rfl).1
    rw [← List.append_assoc] at hsplit
    obtain rfl : z = Tree.yieldAll ts ++ r := List.append_cancel_right hsplit
    have hr : E.mark ∉ r := fun hmem => hz (List.mem_append_right _ hmem)
    refine .inr ⟨Tree.yieldAll ts, r ++ u, by simp, ⟨ts, w, far, ?_⟩, ts, w, far, ?_⟩
    · rwa [left, left, hfront hz, hfront hr]
    · rwa [right, right, hfront hz, hfront hr]

theorem together_of_shuns (hfirst : p.shuns E.first = true) (hsecond : p.shuns E.second = true)
    (h : Runs Rule.pattern p (E.left s) x) : E.Together p s := by
  by_cases hmark : E.mark ∈ s
  · obtain ⟨z, t, rfl, hz⟩ := List.eq_append_cons_of_mem hmark
    refine together_of_split hz ?_ ?_ h
    · rw [left, filled_mark]
      exact shuns_append E.first_ne_nil hfirst
    · rw [right, filled_mark]
      exact shuns_append E.second_ne_nil hsecond
  · have hnil : p.shuns [] = true := by
      obtain ⟨c, t, hc⟩ := List.exists_cons_of_ne_nil E.first_ne_nil
      exact shuns_nil (hc ▸ hfirst)
    rw [← List.append_nil s] at h ⊢
    exact together_of_split hmark hnil hnil h

/-- Wherever the pattern is tried, it stops at places that belong together or refuses both texts. -/
def Parallels (E : Exchange) (p : Pattern Rule) : Prop := ∀ s, E.Admits s → E.Together p s

theorem parallels_of_shuns {f : List Char → Option (List Char)} (hp : Reads p f)
    (hfirst : p.shuns E.first = true) (hsecond : p.shuns E.second = true) : E.Parallels p := by
  intro s _
  obtain ⟨x, hx⟩ := hp.exists_run (E.left s)
  exact together_of_shuns hfirst hsecond hx

section Combinators

variable {a b : Pattern Rule}

theorem Together.both (ha : E.Together a s) (hb : E.Parallels b) (hs : E.Admits s) :
    E.Together (.both a b) s := by
  rcases ha with ⟨hl, hr⟩ | ⟨y, t, rfl, hl, hr⟩
  · exact .inl ⟨hl.both, hr.both⟩
  · rcases hb t (E.admits_of_append hs) with ⟨hl', hr'⟩ | ⟨z, r, rfl, hl', hr'⟩
    · exact .inl ⟨hl.both_refuses hl', hr.both_refuses hr'⟩
    · exact .inr ⟨y ++ z, r, by simp, hl.both hl', hr.both hr'⟩

theorem Parallels.both (ha : E.Parallels a) (hb : E.Parallels b) : E.Parallels (.both a b) :=
  fun s hs => (ha s hs).both hb hs

theorem Together.either (ha : E.Together a s) (hb : E.Together b s) :
    E.Together (.either a b) s := by
  rcases ha with ⟨hl, hr⟩ | ⟨y, r, hs, hl, hr⟩
  · rcases hb with ⟨hl', hr'⟩ | ⟨y, r, hs, hl', hr'⟩
    · exact .inl ⟨hl.either hl', hr.either hr'⟩
    · exact .inr ⟨y, r, hs, hl.either_takes hl', hr.either_takes hr'⟩
  · exact .inr ⟨y, r, hs, hl.either, hr.either⟩

theorem Parallels.either (ha : E.Parallels a) (hb : E.Parallels b) : E.Parallels (.either a b) :=
  fun s hs => (ha s hs).either (hb s hs)

theorem Parallels.notAhead (ha : E.Parallels a) : E.Parallels (.notAhead a) := by
  intro s hs
  rcases ha s hs with ⟨hl, hr⟩ | ⟨y, r, -, hl, hr⟩
  · exact .inr ⟨[], s, rfl, hl.notAhead, hr.notAhead⟩
  · exact .inl ⟨hl.notAhead, hr.notAhead⟩

theorem Parallels.token (ha : E.Parallels a) : E.Parallels (.token a) := by
  intro s hs
  rcases ha s hs with ⟨hl, hr⟩ | ⟨y, r, hsplit, hl, hr⟩
  · exact .inl ⟨hl.token, hr.token⟩
  · exact .inr ⟨y, r, hsplit, hl.token, hr.token⟩

/-- Rounds of the pattern lead from the one place to the other. -/
def Leads (a : Pattern Rule) (s r : List Char) : Prop :=
  ∀ rest, Takes (.star a) r rest → Takes (.star a) s rest

theorem leads_of_takes (h : Takes a s r) : Leads a s r := fun _ hr => h.more hr

/-- The rounds of a repetition need not be the same on both texts, if they only meet again. -/
theorem parallels_star_of_leads
    (h : ∀ s, E.Admits s → Refuses a (E.left s) ∧ Refuses a (E.right s) ∨
      ∃ y r, y ≠ [] ∧ s = y ++ r ∧ Leads a (E.left s) (E.left r) ∧
        Leads a (E.right s) (E.right r)) : E.Parallels (.star a) := by
  suffices htakes : ∀ n s, s.length ≤ n → E.Admits s → ∃ y r, s = y ++ r ∧
      Takes (.star a) (E.left s) (E.left r) ∧ Takes (.star a) (E.right s) (E.right r) from
    fun s hs => .inr (htakes s.length s (Nat.le_refl _) hs)
  intro n
  induction n with
  | zero =>
    intro s hn hs
    rcases h s hs with ⟨hl, hr⟩ | ⟨y, r, hy, rfl, -⟩
    · exact ⟨[], s, rfl, hl.enough, hr.enough⟩
    · have hpos := List.length_pos_of_ne_nil hy
      rw [List.length_append] at hn
      omega
  | succ n ih =>
    intro s hn hs
    rcases h s hs with ⟨hl, hr⟩ | ⟨y, t, hy, rfl, hl, hr⟩
    · exact ⟨[], s, rfl, hl.enough, hr.enough⟩
    · have hpos := List.length_pos_of_ne_nil hy
      rw [List.length_append] at hn
      obtain ⟨z, r, rfl, hl', hr'⟩ := ih t (by omega) (E.admits_of_append hs)
      exact ⟨y ++ z, r, by simp, hl _ hl', hr _ hr'⟩

theorem not_takes_self (ha : a.isSolid = true) : ¬ Takes a s s := by
  rintro ⟨ts, w, far, h⟩
  have hw := h.width_ne_zero_of_isSolid rfl ha
  have hlength := h.length_eq
  omega

theorem Together.leads (ha : a.isSolid = true) (h : E.Together a s) :
    Refuses a (E.left s) ∧ Refuses a (E.right s) ∨
      ∃ y r, y ≠ [] ∧ s = y ++ r ∧ Leads a (E.left s) (E.left r) ∧
        Leads a (E.right s) (E.right r) := by
  rcases h with h | ⟨y, r, rfl, hl, hr⟩
  · exact .inl h
  · refine .inr ⟨y, r, ?_, rfl, leads_of_takes hl, leads_of_takes hr⟩
    rintro rfl
    exact not_takes_self ha hl

theorem Parallels.star (ha : a.isSolid = true) (h : E.Parallels a) : E.Parallels (.star a) :=
  parallels_star_of_leads fun s hs => (h s hs).leads ha

theorem Parallels.plus (ha : a.isSolid = true) (h : E.Parallels a) : E.Parallels (.plus a) :=
  h.both (h.star ha)

end Combinators

theorem together_one (ok : Char → Bool) (hs : s.head? ≠ some E.mark) :
    E.Together (.one ok) s := by
  refine together_of_reads (reads_one ok) ?_
  cases s with
  | nil => exact .inl ⟨rfl, rfl⟩
  | cons c s =>
    have hc : c ≠ E.mark := fun h => hs (congrArg some h)
    rw [left, right, filled_cons hc, filled_cons hc]
    cases hok : ok c with
    | true => exact .inr ⟨[c], s, rfl, if_pos hok, if_pos hok⟩
    | false => exact .inl ⟨if_neg (ne_true_of_eq_false hok), if_neg (ne_true_of_eq_false hok)⟩

theorem parallels_pause (h : '\x7d' ∉ E.first ++ E.second) : E.Parallels Leaf.pause.pattern := by
  intro s _
  refine together_of_reads reads_pause ?_
  have hword : ∀ {word t : List Char}, word ≠ [] → '\x7d' ∉ word → isIdle (word ++ t) = false := by
    intro word t hne hmem
    cases word with
    | nil => exact absurd rfl hne
    | cons c word => exact beq_eq_false_iff_ne.2 fun h => hmem (h ▸ List.mem_cons_self)
  rw [List.mem_append, not_or] at h
  cases s with
  | nil => exact .inr ⟨[], [], rfl, rfl, rfl⟩
  | cons c s =>
    by_cases hc : c = E.mark
    · subst hc
      rw [left, right, filled_mark, filled_mark, hword E.first_ne_nil h.1,
        hword E.second_ne_nil h.2]
      exact .inl ⟨rfl, rfl⟩
    · cases hidle : c == '\x7d' with
      | true =>
        refine .inr ⟨[], c :: s, rfl, ?_, ?_⟩
        · rw [left, filled_cons hc]
          exact if_pos hidle
        · rw [right, filled_cons hc]
          exact if_pos hidle
      | false =>
        rw [left, right, filled_cons hc, filled_cons hc]
        exact .inl ⟨if_neg (ne_true_of_eq_false hidle), if_neg (ne_true_of_eq_false hidle)⟩

theorem twin_leaf {l : Leaf} (hl : E.Together l.pattern s)
    (h : Runs Rule.pattern l.pattern (E.left s) x) :
    ∃ x', Runs Rule.pattern l.pattern (E.right s) x' ∧ E.Twin s x x' := by
  have hreach : ∀ {m : Bool} {a a' : Reach}, a = l.report m → a' = l.report m →
      E.SameReach s a a' := by
    rintro m a a' rfl rfl
    cases l <;> cases m <;> first | exact .none | exact .zero
  rcases hl with ⟨⟨far, hx⟩, ⟨far', hx'⟩⟩ | ⟨y, r, rfl, ⟨ts, w, far, hx⟩, ts', w', far', hx'⟩
  · obtain rfl := h.unique hx
    exact ⟨_, hx', .failed (hreach (m := false) (reach_leaf hx) (reach_leaf hx'))⟩
  · obtain rfl := h.unique hx
    have hw := hx.length_eq
    have hw' := hx'.length_eq
    simp only [filled_append, List.length_append, Nat.add_right_cancel_iff] at hw hw'
    subst hw hw'
    exact ⟨_, hx', .matched rfl (hreach (m := true) (reach_leaf hx) (reach_leaf hx'))⟩

theorem maintains_endOfScript : E.lockstep.Maintains endOfScript := by
  refine Lockstep.maintains_of_runs fun s x hx => ?_
  obtain ⟨s, hs⟩ := s
  have hend : ∀ {t : List Char}, t ≠ [] → Runs Rule.pattern endOfScript t (.failed (some 0)) := by
    intro t ht
    cases t with
    | nil => exact absurd rfl ht
    | cons c t => exact .token (.atEndFails c t) rfl
  cases s with
  | nil =>
    have hempty : Runs Rule.pattern endOfScript [] (.matched [] 0 [] none) := .token .atEnd rfl
    rw [hx.unique hempty]
    exact ⟨_, hempty, .matched (y := []) (r := []) rfl .none⟩
  | cons c s =>
    rw [hx.unique (hend (mt (filled_eq_nil_iff E.first_ne_nil).1 nofun))]
    exact ⟨_, hend (mt (filled_eq_nil_iff E.second_ne_nil).1 nofun), .failed .zero⟩

/-- The tokens that stop together, and the rules that are made of such tokens or known to go on in
lockstep. -/
def vocabulary (E : Exchange) (leaves : Leaf → Bool) (rules : Rule → Bool)
    (hleaf : ∀ l, leaves l = true → ∀ s x, E.Admits s →
      Runs Rule.pattern l.pattern (E.left s) x → E.Together l.pattern s)
    (hgap : leaves .gap = true)
    (hrule : ∀ r, rules r = true →
      E.lockstep.Maintains (.rule r) ∨ (Shape.ofRule r).consistsOf leaves rules = true)
    (hbody : (bodyParts.1.consistsOf leaves rules && bodyParts.2.consistsOf leaves rules) = true) :
    E.lockstep.Vocabulary where
  leaves := leaves
  rules := rules
  leaf l hl := Lockstep.maintains_of_runs fun s x hx => twin_leaf (hleaf l hl s.1 x s.2 hx) hx
  endOfScript := maintains_endOfScript
  gap := hgap
  rule := hrule
  body := hbody

/-! ## Rounds -/

/-- The blanks at the end of a text, and what is in front of them. -/
def ending (s : List Char) : Bool × Bool :=
  ((s.reverse.takeWhile isBlank).any isLineEnd, (s.reverse.dropWhile isBlank).isEmpty)

theorem ending_append_blank (hs : ∀ c ∈ s, isBlank c = true) (u : List Char) :
    ending (u ++ s) = (s.any isLineEnd || (ending u).1, (ending u).2) := by
  have hrev : ∀ c ∈ s.reverse, isBlank c = true := fun c hc => hs c (List.mem_reverse.1 hc)
  simp only [ending, List.reverse_append]
  rw [List.takeWhile_append_of_pos hrev, List.dropWhile_append_of_pos hrev, List.any_append,
    List.any_reverse]

theorem ending_append_solid (hne : s ≠ []) (hs : ∀ c ∈ s, isBlank c = false) (u : List Char) :
    ending (u ++ s) = (false, false) := by
  obtain ⟨z, c, rfl⟩ := List.eq_nil_or_concat' s |>.resolve_left hne
  have hc : isBlank c = false := hs c (by simp)
  simp [ending, hc]

theorem ending_eq (s : List Char) : ending (E.left s) = ending (E.right s) := by
  induction s using List.reverseRecOn with
  | nil => rfl
  | append_singleton s c ih =>
    rw [left, right, filled_append, filled_append]
    by_cases hc : c = E.mark
    · subst hc
      rw [filled_mark, filled_mark, filled_nil, filled_nil, List.append_nil, List.append_nil]
      rcases E.blank with ⟨hblank, hbreak⟩ | hsolid
      · obtain ⟨hfirst, hsecond⟩ := List.forall_mem_append.1 hblank
        rw [ending_append_blank hfirst, ending_append_blank hsecond, hbreak, ih]
      · obtain ⟨hfirst, hsecond⟩ := List.forall_mem_append.1 hsolid
        rw [ending_append_solid E.first_ne_nil hfirst, ending_append_solid E.second_ne_nil hsecond]
    · rw [filled_cons hc, filled_cons hc, filled_nil, filled_nil]
      cases hblank : isBlank c with
      | true =>
        have hall : ∀ d ∈ [c], isBlank d = true := by simpa using hblank
        rw [ending_append_blank hall, ending_append_blank hall, ih]
      | false =>
        have hall : ∀ d ∈ [c], isBlank d = false := by simpa using hblank
        rw [ending_append_solid (List.cons_ne_nil c []) hall,
          ending_append_solid (List.cons_ne_nil c []) hall]

/-- Whether something follows that is no semicolon. -/
def follows : List Char → Bool
  | [] => false
  | c :: _ => c != ';'

theorem follows_eq (s : List Char) : follows (E.left s) = follows (E.right s) := by
  have hword : ∀ {word t : List Char}, word ≠ [] → ';' ∉ word → follows (word ++ t) = true := by
    intro word t hne hmem
    cases word with
    | nil => exact absurd rfl hne
    | cons c word => exact bne_iff_ne.2 fun h => hmem (h ▸ List.mem_cons_self)
  have hsemicolon := E.semicolon
  simp only [List.mem_cons, List.mem_append, not_or] at hsemicolon
  obtain ⟨-, hfirst, hsecond⟩ := hsemicolon
  cases s with
  | nil => rfl
  | cons c s =>
    by_cases hc : c = E.mark
    · subst hc
      rw [left, right, filled_mark, filled_mark, hword E.first_ne_nil hfirst,
        hword E.second_ne_nil hsecond]
    · rw [left, right, filled_cons hc, filled_cons hc]
      rfl

theorem startsLine_append (s t : List Char) :
    startsLine (s ++ t) s.length = (follows t && (ending s).1 && !(ending s).2) := by
  rw [startsLine, List.take_left, List.drop_left]
  cases t <;> rfl

theorem startsLine_eq (y r : List Char) :
    startsLine (E.left (y ++ r)) (E.left y).length =
      startsLine (E.right (y ++ r)) (E.right y).length := by
  rw [left, right, filled_append, filled_append, startsLine_append, startsLine_append,
    ending_eq y, follows_eq r]

theorem withSemicolon_filled {mark : Char} {word : List Char} (hmark : ';' ≠ mark)
    (y r : List Char) :
    withSemicolon (filled mark word (y ++ r)) (filled mark word y).length =
      filled mark word (y ++ ';' :: r) := by
  rw [withSemicolon, filled_append, filled_append, List.take_left, List.drop_left,
    filled_cons hmark]

/-- The grammar accepts both texts, or stops at places that belong together. -/
theorem verdict_filled (V : E.lockstep.Vocabulary) (hbody : V.rules .body = true)
    (hs : E.Admits s) :
    verdict (E.left s) = .accepted ∧ verdict (E.right s) = .accepted ∨
      ∃ y r, s = y ++ r ∧ verdict (E.left s) = .stopped (E.left y).length ∧
        verdict (E.right s) = .stopped (E.right y).length := by
  have hrun := orderly.runs_run .body (E.left s)
  obtain ⟨x', hx', htwin⟩ := (Lockstep.maintains_body V hbody).runs (i := ⟨s, hs⟩) hrun
  have htwin : E.Twin s (grammar.run .body (E.left s)) x' := htwin
  have hright := (orderly.runs_run .body (E.right s)).unique hx'
  rw [verdict, verdict, hright]
  cases hx : grammar.run .body (E.left s) with
  | exhausted =>
    rw [hx] at hrun
    exact absurd rfl hrun.ne_exhausted
  | matched ts w rest far =>
    rw [hx] at htwin
    cases htwin
    exact .inl ⟨rfl, rfl⟩
  | failed far =>
    rw [hx] at htwin
    cases htwin with
    | failed h =>
      rcases h with ⟨rfl, rfl⟩ | ⟨y, ⟨r, rfl⟩, rfl, rfl⟩
      · exact .inr ⟨[], s, rfl, rfl, rfl⟩
      · exact .inr ⟨y, r, rfl, rfl, rfl⟩

theorem judged_right (V : E.lockstep.Vocabulary) (hbody : V.rules .body = true) (hs : E.Admits s)
    {answer : Bool} (h : Judged (E.left s) answer) : Judged (E.right s) answer := by
  generalize hleft : E.left s = u at h
  have hmark : ';' ≠ E.mark := fun h => E.semicolon (h ▸ List.mem_cons_self)
  induction h generalizing s with
  | accepted h =>
    subst hleft
    rcases verdict_filled V hbody hs with ⟨-, hr⟩ | ⟨y, r, -, hl, -⟩
    · exact .accepted hr
    · cases h.symm.trans hl
  | refused h hline =>
    subst hleft
    rcases verdict_filled V hbody hs with ⟨hl, -⟩ | ⟨y, r, rfl, hl, hr⟩
    · cases h.symm.trans hl
    · cases h.symm.trans hl
      exact .refused hr (startsLine_eq y r ▸ hline)
  | again h hline _ ih =>
    subst hleft
    rcases verdict_filled V hbody hs with ⟨hl, -⟩ | ⟨y, r, rfl, hl, hr⟩
    · cases h.symm.trans hl
    · cases h.symm.trans hl
      refine .again hr (startsLine_eq y r ▸ hline) ?_
      rw [withSemicolon_filled hmark]
      exact ih (E.admits_semicolon hs) (withSemicolon_filled hmark y r).symm

/-- If no token tells the words apart, no text is a function body with one and none with the
other. -/
theorem isBody_eq (V : E.lockstep.Vocabulary) (hbody : V.rules .body = true) (hs : E.Admits s) :
    isBody (String.ofList (E.left s)) = isBody (String.ofList (E.right s)) := by
  refine judged_iff.1 ?_
  rw [String.toList_ofList]
  refine judged_right V hbody hs ?_
  have hjudged := judged_isBody (String.ofList (E.left s))
  rwa [String.toList_ofList] at hjudged

end Exchange

end EventMarkup.Script
