import EventMarkup.Proofs.Peg.Local
import EventMarkup.Proofs.Peg.Reaches
import EventMarkup.Proofs.Script.Lexeme
import EventMarkup.Proofs.Script.Shape
import EventMarkup.Script.Body

/-!
# Where the grammar stops

The grammar reports its tokens, and it tries each of them right behind a gap. So where it stops
there is no blank of the gap, and if only blanks stand between there and the start of the line,
these are blanks of the gap (`Tidy`). Template text is the exception: it takes blanks of all kinds,
and it may come to its end at a backslash with nothing behind it. Everywhere else in a template the
grammar goes on, so that it stops farther off.
-/

namespace EventMarkup.Script

open Peg Text

variable {s t u v w rest g : List Char}

/-! ## Tidy texts -/

/-- If the last line of the text has nothing but blanks, these are blanks of the gap. -/
def Tidy (u : List Char) : Prop :=
  ∀ v e w, u = v ++ e :: w → isLineEnd e = true → (∀ c ∈ w, isBlank c = true) →
    ∀ c ∈ w, isGapBlank c = true

theorem tidy_nil : Tidy [] := by
  intro v e w h
  cases v <;> cases h

theorem tidy_of_nonblank {c : Char} (hc : isBlank c = false) (hw : ∀ d ∈ w, isLineEnd d = false) :
    Tidy (v ++ c :: w) := by
  intro v' e w' h he hw'
  rcases List.append_eq_append_iff.1 h with ⟨z, rfl, hz⟩ | ⟨z, rfl, hz⟩
  · cases z with
    | nil =>
      cases hz
      exact absurd (isBlank_of_isLineEnd he) (ne_true_of_eq_false hc)
    | cons d z =>
      cases hz
      exact absurd he (ne_true_of_eq_false (hw e (by simp)))
  · cases z with
    | nil =>
      cases hz
      exact absurd (isBlank_of_isLineEnd he) (ne_true_of_eq_false hc)
    | cons d z =>
      cases hz
      exact absurd (hw' c (by simp)) (ne_true_of_eq_false hc)

theorem Tidy.append_blanks (h : Tidy u) (hv : ∀ c ∈ v, isGapBlank c = true) : Tidy (u ++ v) := by
  intro v' e w heq he hw
  rcases List.append_eq_append_iff.1 heq with ⟨z, rfl, rfl⟩ | ⟨z, rfl, hz⟩
  · exact fun c hc => hv c (by simp [hc])
  · cases z with
    | nil =>
      rw [List.nil_append] at hz
      exact fun c hc => hv c (hz ▸ List.mem_cons_of_mem e hc)
    | cons d z =>
      cases hz
      have hz := h v' e z rfl he fun c hc => hw c (List.mem_append_left v hc)
      exact List.forall_mem_append.2 ⟨hz, hv⟩

theorem tidy_comment? (h : comment? s = some rest) (hg : s = g ++ rest) : Tidy (u ++ g) := by
  unfold comment? at h
  split at h
  · rename_i t
    obtain ⟨⟨before, rest⟩, hcut, rfl⟩ := Option.map_eq_some_iff.1 h
    rw [eq_append_of_cutAt? hcut] at hg
    have hg : '/' :: '*' :: (before ++ ['*']) ++ ['/'] = g :=
      List.append_cancel_right (by simpa using hg)
    rw [← hg, ← List.append_assoc]
    exact tidy_of_nonblank rfl (by simp)
  · rename_i t
    cases h
    have hg : '/' :: ('/' :: t.takeWhile fun c => !isLineEnd c) = g := by
      refine List.append_cancel_right (Eq.trans ?_ hg)
      simp
    rw [← hg]
    refine tidy_of_nonblank rfl (List.forall_mem_cons.2 ⟨rfl, fun d hd => ?_⟩)
    simpa using List.all_eq_true.1 List.all_takeWhile d hd
  · cases h

theorem Tidy.append_gap (h : Tidy u) (hg : s = g ++ skipGap s) : Tidy (u ++ g) := by
  fun_induction skipGap s generalizing u g with
  | case1 s rest hc ih =>
    obtain ⟨cm, hcm⟩ := (reads_comment.takes hc).suffix
    obtain ⟨g', hg'⟩ := (reads_gap.takes (rfl : some (skipGap rest) = _)).suffix
    have hblanks : ∀ c ∈ s.takeWhile isGapBlank, isGapBlank c = true :=
      List.all_eq_true.1 List.all_takeWhile
    have htidy := tidy_comment? (u := u ++ s.takeWhile isGapBlank) hc hcm.symm
    have hs : s.takeWhile isGapBlank ++ (cm ++ g') = g := by
      refine List.append_cancel_right (Eq.trans ?_ hg)
      rw [List.append_assoc, List.append_assoc, hg', hcm]
      exact List.takeWhile_append_dropWhile
    rw [← hs, ← List.append_assoc, ← List.append_assoc]
    exact ih htidy hg'.symm
  | case2 s hc =>
    have hs : s.takeWhile isGapBlank = g := by
      refine List.append_cancel_right (Eq.trans ?_ hg)
      exact List.takeWhile_append_dropWhile
    rw [← hs]
    exact h.append_blanks (List.all_eq_true.1 List.all_takeWhile)

/-! ## Places -/

/-- No blank of the gap is in front. -/
def Settled (t : List Char) : Prop := ∀ c ∈ t.head?, isGapBlank c = false

theorem settled_skipGap (s : List Char) : Settled (skipGap s) := by
  fun_induction skipGap s with
  | case1 s rest hc ih => exact ih
  | case2 s hc =>
    intro c hmem
    have hdrop := List.head?_dropWhile_not isGapBlank s
    rw [Option.mem_def, skipGapBlanks] at hmem
    rw [hmem] at hdrop
    exact hdrop

/-- Nothing is left of the text but perhaps a backslash. -/
def Spent (t : List Char) : Prop := t = [] ∨ t = ['\\']

/-- The place may be where the grammar stops in a text, `u` being what it has read before. -/
def IsStop (u s : List Char) (k : Nat) : Prop :=
  Tidy (u ++ s.take k) ∧ Settled (s.drop k) ∨ Spent (s.drop k)

theorem isStop_zero (hu : Tidy u) (hs : Settled s) : IsStop u s 0 :=
  .inl ⟨by simpa using hu, hs⟩

theorem IsStop.shift {j : Nat} (h : IsStop (u ++ v) s j) : IsStop u (v ++ s) (v.length + j) := by
  unfold IsStop at h ⊢
  rwa [List.take_length_add_append, List.drop_length_add_append, ← List.append_assoc]

/-- What a reply tells of a text that `u` was read before. The failures are at places where the
grammar may stop, except that a match may tell of one that is inside of it, unless it is `plain`. -/
def Sited (plain : Bool) (u s : List Char) : Reply Rule → Prop
  | .matched _ w _ far =>
    Tidy (u ++ s.take w) ∧ ∀ k ∈ far, IsStop u s k ∨ plain = false ∧ k < w
  | .failed far => ∀ k ∈ far, IsStop u s k
  | .exhausted => True

section Combinators

variable {a b c : Bool} {n : Nat} {ts : List (Peg.Tree Rule)} {far : Reach} {x : Reply Rule}

theorem Sited.named (h : Sited a u s x) (r : Rule) : Sited a u s (x.named r) := by
  cases x <;> exact h

theorem Sited.asPhrase (h : Sited a u s x) (hu : Tidy u) (hs : Settled s) :
    Sited a u s x.asPhrase := by
  cases x with
  | matched | exhausted => exact h
  | failed far =>
    intro k hk
    rcases Reach.mem_or_mem_of_mem_farther hk with hk | hk
    · cases hk
      exact isStop_zero hu hs
    · exact h k hk

theorem Sited.noting (h : Sited true u s (.failed far)) (hx : Sited a u s x) :
    Sited a u s (x.noting far) := by
  cases x with
  | exhausted => trivial
  | matched us n rest e =>
    refine ⟨hx.1, fun k hk => ?_⟩
    rcases Reach.mem_or_mem_of_mem_farther hk with hk | hk
    · exact .inl (h k hk)
    · exact hx.2 k hk
  | failed e =>
    intro k hk
    rcases Reach.mem_or_mem_of_mem_farther hk with hk | hk
    · exact h k hk
    · exact hx k hk

/-- One pattern behind another. A failure inside of the first match must not be the farthest if the
second fails, nor if both together are to be plain. -/
theorem Sited.after (ha : Sited a u (v ++ s) (.matched ts v.length s far)) (hb : Sited b (u ++ v) s x)
    (hfail : a = true ∨ (∃ k ∈ far, v.length ≤ k) ∨ ∀ e, x = .failed e → e ≠ none)
    (hplain : c = true → a = true ∧ b = true ∨
      ∀ us n rest e, x = .matched us n rest e → ∃ k ∈ e, n ≤ k) :
    Sited c u (v ++ s) (x.after ts v.length far) := by
  cases x with
  | exhausted => trivial
  | matched us n rest e =>
    refine ⟨?_, fun k hk => ?_⟩
    · rw [List.take_length_add_append, ← List.append_assoc]
      exact hb.1
    cases c with
    | false =>
      rcases Reach.mem_or_mem_of_mem_farther hk with hmem | hmem
      · exact (ha.2 k hmem).imp id fun h => ⟨rfl, by omega⟩
      · obtain ⟨j, hj, rfl⟩ := Reach.mem_shift_iff.1 hmem
        exact (hb.2 j hj).imp IsStop.shift fun h => ⟨rfl, by omega⟩
    | true =>
      refine .inl ?_
      rcases Reach.mem_or_mem_of_mem_farther hk with hmem | hmem
      · refine (ha.2 k hmem).resolve_right fun ⟨hinner, hlt⟩ => ?_
        rcases hplain rfl with ⟨rfl, -⟩ | hend
        · cases hinner
        · obtain ⟨j, hj, -⟩ := hend us n rest e rfl
          have hle := Reach.le_of_mem_farther_right hk (Reach.mem_shift_iff.2 ⟨j, hj, rfl⟩)
          omega
      · obtain ⟨j, hj, rfl⟩ := Reach.mem_shift_iff.1 hmem
        refine ((hb.2 j hj).resolve_right fun ⟨hinner, hlt⟩ => ?_).shift
        rcases hplain rfl with ⟨-, rfl⟩ | hend
        · cases hinner
        · obtain ⟨i, hi, hle⟩ := hend us n rest e rfl
          cases hi.symm.trans hj
          omega
  | failed e =>
    intro k hk
    rcases Reach.mem_or_mem_of_mem_farther hk with hmem | hmem
    · rcases ha.2 k hmem with hstop | ⟨hinner, hlt⟩
      · exact hstop
      · exfalso
        rcases hfail with rfl | ⟨i, hi, hle⟩ | htold
        · cases hinner
        · cases hi.symm.trans hmem
          omega
        · obtain ⟨j, hj⟩ := Option.ne_none_iff_exists'.1 (htold e rfl)
          have hle := Reach.le_of_mem_farther_right hk (Reach.mem_shift_iff.2 ⟨j, hj, rfl⟩)
          omega
    · obtain ⟨j, hj, rfl⟩ := Reach.mem_shift_iff.1 hmem
      exact (hb j hj).shift

end Combinators

/-! ## Tokens -/

def blankChars : List Char :=
  [0x09, 0x0A, 0x0B, 0x0C, 0x0D, 0x20, 0x85, 0xA0, 0x1680, 0x2000, 0x2001, 0x2002, 0x2003, 0x2004,
    0x2005, 0x2006, 0x2007, 0x2008, 0x2009, 0x200A, 0x2028, 0x2029, 0x202F, 0x205F, 0x3000].map
    Char.ofNat

theorem mem_blankChars {c : Char} (h : isBlank c = true) : c ∈ blankChars := by
  refine List.mem_map.2 ⟨c.toNat, ?_, Char.ofNat_toNat c⟩
  simp only [isBlank, Bool.or_eq_true, Bool.and_eq_true, decide_eq_true_eq, beq_iff_eq] at h
  simp only [List.mem_cons, List.not_mem_nil, or_false]
  omega

def Leaf.endsSolid : Leaf → Bool
  | .operator s | .word s => s.toList.getLast?.all (!isBlank ·)
  | .gap | .templateText => false
  | _ => true

theorem mayEnd_fixed : ∀ l ∈ [Leaf.assigned, .identifier, .name, .string, .number, .regex, .pause],
    (blankChars.all fun c => !l.pattern.mayEnd c) = true := by
  decide +kernel

theorem mayEnd_mark (m : Mark) :
    (blankChars.all fun c => !(Leaf.mark m).pattern.mayEnd c) = true := by
  cases m <;> decide +kernel

theorem mayEnd_eq_false {l : Leaf} {c : Char} (hl : l.endsSolid = true) (hc : isBlank c = true) :
    l.pattern.mayEnd c = false := by
  have hspelled : ∀ {s : String}, s.toList.getLast?.all (!isBlank ·) = true →
      (s.toList.getLast? == some c) = false := by
    intro s hs
    cases hlast : s.toList.getLast? with
    | none => rfl
    | some d =>
      rw [hlast] at hs
      refine beq_eq_false_iff_ne.2 fun h => ?_
      cases h
      simp [hc] at hs
  have hchecked : (blankChars.all fun c => !l.pattern.mayEnd c) = true →
      l.pattern.mayEnd c = false := by
    intro hall
    simpa using List.all_eq_true.1 hall c (mem_blankChars hc)
  cases l with
  | mark m => exact hchecked (mayEnd_mark m)
  | operator s => exact hspelled hl
  | word s =>
    simpa [Leaf.pattern, word, wordEnd, Pattern.mayEnd, Pattern.isSolid, Pattern.lit]
      using hspelled hl
  | gap | templateText => cases hl
  | _ => exact hchecked (mayEnd_fixed _ (by simp))

theorem Tidy.append_last (hu : Tidy u) (hv : ∀ c ∈ v.getLast?, isBlank c = false) :
    Tidy (u ++ v) := by
  cases hlast : v.getLast? with
  | none =>
    rw [List.getLast?_eq_none_iff.1 hlast, List.append_nil]
    exact hu
  | some c =>
    obtain ⟨z, rfl⟩ := List.getLast?_eq_some_iff.1 hlast
    rw [← List.append_assoc]
    exact tidy_of_nonblank (hv c hlast) (by simp)

variable {l : Leaf} {x : Reply Rule}

theorem tidy_leaf {ts : List (Peg.Tree Rule)} {n : Nat} {far : Reach} (hl : l.endsSolid = true)
    (hu : Tidy u) (h : Runs Rule.pattern l.pattern s (.matched ts n rest far)) :
    Tidy (u ++ s.take n) := by
  obtain ⟨hs, rfl⟩ := h.append rfl
  rw [hs, List.take_left]
  refine hu.append_last fun c hc => ?_
  rw [Bool.eq_false_iff]
  intro hblank
  exact ne_true_of_eq_false (mayEnd_eq_false hl hblank) (h.mayEnd rfl hc)

/-- What a token tells: if it is reported at all, that it failed. -/
def Leaf.report : Leaf → Bool → Reach
  | .mark _, _ | .operator _, _ | .assigned, _ | .gap, _ => none
  | _, true => none
  | _, false => some 0

theorem reach_leaf (h : Runs Rule.pattern l.pattern s x) : x.reach = l.report x.isMatch := by
  have htoken : ∀ {p : Pattern Rule} {y : Reply Rule}, Runs Rule.pattern (.token p) s y →
      y.reach = if y.isMatch then none else some 0 := by
    intro p y hy
    cases hy with
    | @token _ _ y _ hrun hy =>
      subst hy
      cases y with
      | matched | failed => rfl
      | exhausted => exact absurd rfl hrun.ne_exhausted
  have hloud : x.reach = (if x.isMatch then none else some 0) →
      (∀ m, l.report m = if m then none else some 0) → x.reach = l.report x.isMatch :=
    fun hx hl => hx.trans (hl _).symm
  have hmute : l.pattern.isMute = true → (∀ m, l.report m = none) →
      x.reach = l.report x.isMatch := fun hp hl => (h.reach_of_isMute hp).trans (hl _).symm
  cases l with
  | mark | operator | assigned | gap => exact hmute rfl fun _ => rfl
  | word | identifier | name | string | number | regex | templateText =>
    exact hloud (htoken h) fun m => by cases m <;> rfl
  | pause =>
    refine hloud ?_ fun m => by cases m <;> rfl
    cases h with
    | first ha => exact ha.reach_of_isMute rfl
    | @second _ _ _ far y _ ha hb hy =>
      obtain rfl : far = none := ha.reach_of_isMute rfl
      subst hy
      cases hb with
      | ahead hend => exact (htoken hend :)
      | aheadFails hend => exact (htoken hend :)

/-- A token tells of no failure but at its start. -/
theorem eq_zero_of_mem_reach (h : Runs Rule.pattern l.pattern s x) : ∀ k ∈ x.reach, k = 0 := by
  rw [reach_leaf h]
  have hreport : ∀ m, ∀ k ∈ l.report m, k = 0 := by
    intro m
    cases l <;> cases m <;> simp [Leaf.report]
  exact hreport _

theorem sited_leaf (hl : l.endsSolid = true) (hstart : l.pattern.isMute = true ∨ Settled s)
    (hu : Tidy u) (h : Runs Rule.pattern l.pattern s x) : Sited true u s x := by
  have hstop : ∀ k ∈ x.reach, IsStop u s k := by
    intro k hk
    rcases hstart with hmute | hs
    · rw [h.reach_of_isMute hmute] at hk
      cases hk
    · rw [eq_zero_of_mem_reach h k hk]
      exact isStop_zero hu hs
  cases x with
  | matched ts n rest far => exact ⟨tidy_leaf hl hu h, fun k hk => .inl (hstop k hk)⟩
  | failed far => exact hstop
  | exhausted => trivial

theorem sited_gap (hu : Tidy u) (h : Runs Rule.pattern gap s x) : Sited true u s x := by
  have hreach := h.reach_of_isMute rfl
  cases x with
  | matched ts n rest far =>
    obtain ⟨hs, rfl⟩ := h.append rfl
    have hrest : skipGap s = rest := Option.some.inj (reads_gap.takes_iff.1 ⟨_, _, _, h⟩)
    refine ⟨?_, fun k hk => ?_⟩
    · refine hu.append_gap (s := s) ?_
      rw [hrest, hs, List.take_left]
    · rw [show far = none from hreach] at hk
      cases hk
  | failed far => exact absurd ⟨far, h⟩ (reads_gap.takes rfl).not_refuses
  | exhausted => trivial

/-! ## Shapes -/

/-- The rules that tell of a failure whenever they fail, and those that do whenever they match. -/
def told : Telling Rule where
  failing r := r matches
    .statement | .simpleStatement | .expression | .suffix | .templateLiteral | .templateHole
  matching r := r matches
    .expression | .assignment | .arrowFunction | .conditional | .binary | .unary | .callMember

theorem told_sound : told.Sound Rule.pattern where
  failing_body r := by cases r <;> decide +kernel
  matching_body r := by cases r <;> decide +kernel

/-- The rules that may end with a template, which tells of a failure inside of the match. -/
def Rule.endsTemplate (r : Rule) : Bool := r matches .templateLiteral | .primary | .suffix

namespace Shape

/-- Whether a match tells only of failures at places where the grammar may stop. -/
def isPlain : Shape → Bool
  | .nothing | .leaf _ => true
  | .rule r => !r.endsTemplate
  | .both a b => b.pattern.tellsEnding told || (a.isPlain && b.isPlain)
  | .either a b => a.isPlain && b.isPlain
  | .star a => a.pattern.tellsFailing told || a.isPlain
  | .phrase a => a.isPlain

/-- Whether all that is reported is tried behind a gap, as the shape is itself if `settled`, and no
failure inside of a match is the farthest behind the match. -/
def isPlaced (settled : Bool) : Shape → Bool
  | .nothing => true
  | .leaf l => l == .gap || (l.endsSolid && (settled || l.pattern.isMute))
  | .rule r => settled && r != .body && r != .templateHole
  | .both a b => a.isPlaced settled && b.isPlaced (a == .leaf .gap) &&
    (a.isPlain || a.pattern.tellsEnding told || b.pattern.tellsFailing told)
  | .either a b => a.isPlaced settled && b.isPlaced settled
  | .star a => a.isPlaced false
  | .phrase a => settled && a.isPlaced true

theorem isPlaced_ofRule {r : Rule} (hbody : r ≠ .body) (hliteral : r ≠ .templateLiteral)
    (hhole : r ≠ .templateHole) : (ofRule r).isPlaced true = true ∧
      ((Shape.rule r).isPlain = true → (ofRule r).isPlain = true) := by
  cases r <;> first | contradiction | decide +kernel

end Shape

theorem Sited.mono {a b : Bool} {x : Reply Rule} (h : Sited a u s x) (hab : b = true → a = true) :
    Sited b u s x := by
  cases x with
  | matched ts n rest far =>
    refine ⟨h.1, fun k hk => (h.2 k hk).imp_right fun ⟨ha, hlt⟩ => ⟨?_, hlt⟩⟩
    cases b with
    | false => rfl
    | true => exact (hab rfl).symm.trans ha
  | failed | exhausted => exact h

def holeRest : Shape := .both (.leaf .gap) (.row [.rule .expression, .mark .closeCurly])

theorem tells_attempt {n : Nat} {p : Pattern Rule} {x : Reply Rule}
    (h : attempt Rule.pattern n p s = x) (hx : x ≠ .exhausted) : p.Tells told x :=
  (runs_of_attempt h hx).tells told_sound

/-! ### Templates -/

def templatePiece : Pattern Rule := .either templateChars (.rule .templateHole)

/-- What a reply tells of a piece of a template. Besides the places where the grammar may stop there
is the start of the piece, if it is the end of the template. -/
def Quoted (u s : List Char) : Reply Rule → Prop
  | .matched _ w _ far => ∀ k ∈ far, IsStop u s k ∨ k < w
  | .failed far => far ≠ none ∧ ∀ k ∈ far, IsStop u s k ∨ k = 0 ∧ s.head? = some '\x60'
  | .exhausted => True

/-- What a reply tells of all the pieces of a template. -/
def QuotedAll (u s : List Char) : Reply Rule → Prop
  | .matched _ w rest far => (∃ k ∈ far, w ≤ k) ∧
    ∀ k ∈ far, IsStop u s k ∨ k < w ∨ k = w ∧ rest.head? = some '\x60'
  | .failed _ => False
  | .exhausted => True

theorem templateText?_eq_none (h : templateText? s = none) :
    Spent s ∨ s.head? = some '\x60' ∨ ∃ t, s = '$' :: '\x7b' :: t := by
  have hpiece : templatePiece? s = none := by
    cases hp : templatePiece? s with
    | none => rfl
    | some t => simp [templateText?, hp] at h
  rw [templatePiece?, Option.or_eq_none_iff, Option.or_eq_none_iff] at hpiece
  obtain ⟨hescape, hdollar, hone⟩ := hpiece
  cases s with
  | nil => exact .inl (.inl rfl)
  | cons c t =>
    by_cases hbackslash : c = '\\'
    · subst hbackslash
      cases t with
      | nil => exact .inl (.inr rfl)
      | cons d t => cases hescape
    by_cases hc : c = '$'
    · subst hc
      simp only [dropFront?, if_true, Option.bind_some] at hdollar
      split at hdollar
      · rename_i hcurly
        obtain ⟨r, hr⟩ := Option.isSome_iff_exists.1 hcurly
        exact .inr (.inr ⟨r, by rw [eq_append_of_dropFront? hr]; rfl⟩)
      · cases hdollar
    · refine .inr (.inl (congrArg some ?_))
      simpa [one?, hbackslash, hc] using hone

section Templates

variable {n : Nat}

theorem quoted_hole
    (ih : ∀ m < n, ∀ u s, Tidy u → Sited true u s (attempt Rule.pattern m holeRest.pattern s))
    (hs : templateText? s = none) :
    Quoted u s ((attempt Rule.pattern n (.rule .templateHole) s).noting (some 0)) := by
  match n with
  | 0 | 1 | 2 | 3 => trivial
  | n + 4 =>
    have hhole : attempt Rule.pattern (n + 4) (.rule .templateHole) s =
        ((attempt Rule.pattern (n + 2) (.both (.lit "$\x7b") holeRest.pattern) s).asPhrase).named
          .templateHole := rfl
    have hstop : ∀ t, dropFront? ['$', '\x7b'] t = none →
        attempt Rule.pattern (n + 2) (.both (.lit "$\x7b") holeRest.pattern) t = .failed none := by
      intro t ht
      simp only [attempt, Pattern.lit]
      rw [show "$\x7b".toList = ['$', '\x7b'] from rfl, ht]
    rw [hhole]
    rcases templateText?_eq_none hs with hspent | hend | ⟨t, rfl⟩
    · rw [hstop s (by rcases hspent with rfl | rfl <;> rfl)]
      refine ⟨Option.some_ne_none _, fun k hk => .inl ?_⟩
      cases hk
      exact .inr hspent
    · obtain ⟨t, rfl⟩ := List.head?_eq_some_iff.1 hend
      rw [hstop _ rfl]
      refine ⟨Option.some_ne_none _, fun k hk => .inr ?_⟩
      cases hk
      exact ⟨rfl, rfl⟩
    · have hfront : attempt Rule.pattern (n + 2) (.both (.lit "$\x7b") holeRest.pattern)
          ('$' :: '\x7b' :: t) = (attempt Rule.pattern (n + 1) holeRest.pattern t).after
            [.leaf '$', .leaf '\x7b'] 2 none := rfl
      have hu : Tidy (u ++ ['$', '\x7b']) := by
        have htidy : Tidy ((u ++ ['$']) ++ '\x7b' :: []) := tidy_of_nonblank rfl (by simp)
        simpa using htidy
      have hrest := ih (n + 1) (by omega) _ t hu
      rw [hfront]
      cases hx : attempt Rule.pattern (n + 1) holeRest.pattern t with
      | exhausted => trivial
      | matched ts w rest far =>
        rw [hx] at hrest
        intro k hk
        rcases Reach.mem_or_mem_of_mem_farther hk with hk | hk
        · cases hk
          exact .inr (by omega)
        · obtain ⟨j, hj, rfl⟩ := Reach.mem_shift_iff.1 hk
          exact .inl (((hrest.2 j hj).resolve_right (by simp)).shift)
      | failed far =>
        rw [hx] at hrest
        have htold : far ≠ none := tells_attempt hx (by simp) (by decide +kernel)
        obtain ⟨j, rfl⟩ := Option.ne_none_iff_exists'.1 htold
        refine ⟨Option.some_ne_none _, fun k hk => .inl ?_⟩
        -- what is told of the rest of the hole is farther off than its start
        obtain rfl : 2 + j = k := by
          simpa [Reach.farther, Reach.shift] using hk
        exact (hrest j rfl).shift

theorem quoted_piece
    (ih : ∀ m < n, ∀ u s, Tidy u → Sited true u s (attempt Rule.pattern m holeRest.pattern s)) :
    Quoted u s (attempt Rule.pattern n templatePiece s) := by
  unfold templatePiece
  cases n with
  | zero => trivial
  | succ n =>
    simp only [attempt]
    cases hx : attempt Rule.pattern n templateChars s with
    | exhausted => trivial
    | matched ts w rest far =>
      intro k hk
      have hruns := runs_of_attempt hx (by simp)
      cases hruns with
      | token _ hy =>
        obtain ⟨_, -, rfl⟩ := Reply.asToken_eq_matched hy.symm
        cases hk
    | failed far =>
      have hruns := runs_of_attempt hx (by simp)
      have hnone : templateText? s = none := reads_templateText.refuses_iff.1 ⟨_, hruns⟩
      cases hruns with
      | @token _ _ x _ _ hy =>
        cases x with
        | matched | exhausted => cases hy
        | failed e =>
          cases hy
          exact quoted_hole (fun m hm => ih m (by omega)) hnone

theorem quotedAll_star
    (ih : ∀ m < n, ∀ u s, Tidy u → Sited true u s (attempt Rule.pattern m holeRest.pattern s)) :
    QuotedAll u s (attempt Rule.pattern n (.star templatePiece) s) := by
  induction n generalizing u s with
  | zero => trivial
  | succ n ihn =>
    have ih' := fun m (hm : m < n) => ih m (by omega)
    simp only [attempt]
    have hpiece : Quoted u s (attempt Rule.pattern n templatePiece s) := quoted_piece ih'
    cases hx : attempt Rule.pattern n templatePiece s with
    | exhausted => trivial
    | failed far =>
      rw [hx] at hpiece
      obtain ⟨k, hk⟩ := Option.ne_none_iff_exists'.1 hpiece.1
      exact ⟨⟨k, hk, Nat.zero_le k⟩, fun k hk => (hpiece.2 k hk).imp_right .inr⟩
    | matched ts w rest far =>
      rw [hx] at hpiece
      obtain ⟨rfl, rfl⟩ := (runs_of_attempt hx (by simp)).append rfl
      have hmore : QuotedAll (u ++ Tree.yieldAll ts) rest
        (attempt Rule.pattern n (.star templatePiece) rest) := ihn ih'
      dsimp only
      cases hy : attempt Rule.pattern n (.star templatePiece) rest with
      | exhausted => trivial
      | failed e =>
        rw [hy] at hmore
        exact hmore.elim
      | matched us m rest' e =>
        rw [hy] at hmore
        obtain ⟨⟨j, hj, hle⟩, hmore⟩ := hmore
        refine ⟨?_, fun k hk => ?_⟩
        · obtain ⟨k, hk, hjk⟩ := Reach.exists_le_shift (w := (Tree.yieldAll ts).length) hj far
          exact ⟨k, hk, by omega⟩
        · rcases Reach.mem_or_mem_of_mem_farther hk with hk | hk
          · exact (hpiece k hk).imp_right fun h => .inl (by omega)
          · obtain ⟨i, hi, rfl⟩ := Reach.mem_shift_iff.1 hk
            refine (hmore i hi).imp IsStop.shift fun h => h.imp (fun h => ?_) fun h => ?_
            · omega
            · exact ⟨by omega, h.2⟩

theorem sited_closing {ts : List (Peg.Tree Rule)} {far : Reach} (n : Nat)
    (h : QuotedAll (u ++ ['\x60']) (Tree.yieldAll ts ++ rest)
      (.matched ts (Tree.yieldAll ts).length rest far)) :
    Sited false u ('\x60' :: (Tree.yieldAll ts ++ rest))
      (((attempt Rule.pattern n (.text ['\x60']) rest).after ts (Tree.yieldAll ts).length far).after
        [.leaf '\x60'] 1 none) := by
  obtain ⟨⟨i, rfl, hle⟩, hall⟩ := h
  cases n with
  | zero => trivial
  | succ n =>
    simp only [attempt]
    cases hclose : dropFront? ['\x60'] rest with
    | none =>
      intro k hk
      obtain rfl : 1 + i = k := by simpa [Reach.farther, Reach.shift] using hk
      rcases hall i rfl with hstop | hlt | ⟨-, hend⟩
      · exact hstop.shift
      · omega
      · obtain ⟨r, rfl⟩ := List.head?_eq_some_iff.1 hend
        cases hclose
    | some r =>
      obtain rfl : rest = '\x60' :: r := eq_append_of_dropFront? hclose
      refine ⟨?_, fun k hk => ?_⟩
      · have htidy : Tidy ((u ++ '\x60' :: Tree.yieldAll ts) ++ '\x60' :: []) :=
          tidy_of_nonblank rfl (by simp)
        have hs : '\x60' :: (Tree.yieldAll ts ++ '\x60' :: r) =
            ('\x60' :: Tree.yieldAll ts ++ ['\x60']) ++ r := by simp
        rw [hs, List.take_left' (by simp; omega), ← List.append_assoc]
        exact htidy
      · obtain rfl : 1 + i = k := by simpa [Reach.farther, Reach.shift] using hk
        rcases hall i rfl with hstop | hlt | ⟨rfl, -⟩
        · exact .inl hstop.shift
        · exact .inr ⟨rfl, by simp; omega⟩
        · exact .inr ⟨rfl, by simp⟩

theorem sited_template
    (ih : ∀ m < n, ∀ u s, Tidy u → Sited true u s (attempt Rule.pattern m holeRest.pattern s))
    (hu : Tidy u) (hs : Settled s) :
    Sited false u s (attempt Rule.pattern n (.rule .templateLiteral) s) := by
  match n with
  | 0 | 1 | 2 | 3 => trivial
  | n + 4 =>
    have hliteral : attempt Rule.pattern (n + 4) (.rule .templateLiteral) s =
        ((attempt Rule.pattern (n + 2) (.both (.text ['\x60']) (.both (.star templatePiece)
          (.text ['\x60']))) s).asPhrase).named .templateLiteral := rfl
    rw [hliteral]
    refine Sited.named (Sited.asPhrase ?_ hu hs) _
    simp only [attempt]
    cases hopen : dropFront? ['\x60'] s with
    | none =>
      intro k hk
      cases hk
    | some t =>
      obtain rfl : s = '\x60' :: t := eq_append_of_dropFront? hopen
      have hall : QuotedAll (u ++ ['\x60']) t (attempt Rule.pattern n (.star templatePiece) t) :=
        quotedAll_star fun m hm => ih m (by omega)
      dsimp only
      cases hx : attempt Rule.pattern n (.star templatePiece) t with
      | exhausted => trivial
      | failed far =>
        rw [hx] at hall
        exact hall.elim
      | matched ts w rest far =>
        rw [hx] at hall
        obtain ⟨rfl, rfl⟩ := (runs_of_attempt hx (by simp)).append rfl
        exact sited_closing n hall

end Templates

/-! ### Combinators -/

/-- Wherever the shape is tried behind a tidy text, at the start of a token if `settled`, what it
tells are places where the grammar may stop. -/
def SitedAt (n : Nat) (sh : Shape) (settled : Bool) : Prop :=
  ∀ u s, Tidy u → (settled = true → Settled s) →
    Sited sh.isPlain u s (attempt Rule.pattern n sh.pattern s)

section Shapes

variable {n : Nat} {a b : Shape} {settled : Bool}

theorem sitedAt_leaf (hl : (Shape.leaf l).isPlaced settled = true) (n : Nat) :
    SitedAt n (.leaf l) settled := by
  intro u s hu hs
  cases hx : attempt Rule.pattern n (Shape.leaf l).pattern s with
  | exhausted => trivial
  | _ =>
    have hruns := runs_of_attempt hx (by simp)
    rcases Bool.or_eq_true_iff.1 hl with hgap | hleaf
    · obtain rfl : l = .gap := eq_of_beq hgap
      exact sited_gap hu hruns
    · obtain ⟨hend, hstart⟩ := Bool.and_eq_true_iff.1 hleaf
      exact sited_leaf hend ((Bool.or_eq_true_iff.1 hstart).symm.imp_right hs) hu hruns

theorem sitedAt_both (ha : SitedAt n a settled) (hb : SitedAt n b (a == .leaf .gap))
    (hinner : (a.isPlain || a.pattern.tellsEnding told || b.pattern.tellsFailing told) = true) :
    SitedAt (n + 1) (.both a b) settled := by
  intro u s hu hs
  have hfirst := ha u s hu hs
  simp only [Shape.pattern, attempt]
  cases hx : attempt Rule.pattern n a.pattern s with
  | exhausted => trivial
  | failed far =>
    rw [hx] at hfirst
    exact hfirst
  | matched ts w rest far =>
    rw [hx] at hfirst
    have hruns := runs_of_attempt hx (by simp)
    obtain ⟨rfl, rfl⟩ := hruns.append rfl
    have hmid : Tidy (u ++ Tree.yieldAll ts) := by simpa using hfirst.1
    have hsettled : (a == .leaf .gap) = true → Settled rest := by
      intro hgap
      rw [eq_of_beq hgap] at hruns
      rw [← Option.some.inj (reads_gap.takes_iff.1 ⟨_, _, _, hruns⟩)]
      exact settled_skipGap _
    refine hfirst.after (hb _ _ hmid hsettled) ?_ fun hplain => ?_
    · rcases Bool.or_eq_true_iff.1 hinner with hinner | hb
      · exact (Bool.or_eq_true_iff.1 hinner).imp_right fun ha =>
          .inl ((tells_attempt hx (by simp)).2 ha)
      · exact .inr (.inr fun e he => tells_attempt he (by simp) hb)
    · rcases Bool.or_eq_true_iff.1 hplain with hb | hplain
      · exact .inr fun us n rest e he => (tells_attempt he (by simp)).2 hb
      · exact .inl (Bool.and_eq_true_iff.1 hplain)

theorem sitedAt_either (ha : SitedAt n a settled) (hb : SitedAt n b settled) :
    SitedAt (n + 1) (.either a b) settled := by
  intro u s hu hs
  have hfirst := ha u s hu hs
  simp only [Shape.pattern, attempt]
  cases hx : attempt Rule.pattern n a.pattern s with
  | exhausted => trivial
  | matched ts w rest far =>
    rw [hx] at hfirst
    exact hfirst.mono fun h => (Bool.and_eq_true_iff.1 h).1
  | failed far =>
    rw [hx] at hfirst
    have hfirst : Sited true u s (.failed far) := hfirst
    exact hfirst.noting ((hb u s hu hs).mono fun h => (Bool.and_eq_true_iff.1 h).2)

theorem sitedAt_star (ha : SitedAt n a false) (hstar : SitedAt n (.star a) false) :
    SitedAt (n + 1) (.star a) settled := by
  intro u s hu _
  have hfirst := ha u s hu nofun
  simp only [Shape.pattern, attempt]
  cases hx : attempt Rule.pattern n a.pattern s with
  | exhausted => trivial
  | failed far =>
    rw [hx] at hfirst
    exact ⟨by simpa using hu, fun k hk => .inl (hfirst k hk)⟩
  | matched ts w rest far =>
    rw [hx] at hfirst
    obtain ⟨rfl, rfl⟩ := (runs_of_attempt hx (by simp)).append rfl
    have hmid : Tidy (u ++ Tree.yieldAll ts) := by simpa using hfirst.1
    refine hfirst.after (hstar _ rest hmid nofun) (.inr (.inr fun e he => ?_)) fun hplain => ?_
    · exact tells_attempt he (by simp) rfl
    · rcases Bool.or_eq_true_iff.1 hplain with ha | ha
      · exact .inr fun us n rest e he => (tells_attempt he (by simp)).2 ha
      · exact .inl ⟨ha, hplain⟩

theorem sitedAt_rule {r : Rule} (hbody : r ≠ .body) (hplain : (Shape.rule r).isPlain = true →
    (Shape.ofRule r).isPlain = true) (h : SitedAt n (.ofRule r) true) :
    SitedAt (n + 1) (.rule r) true := by
  intro u s hu hs
  have hsited := h u s hu hs
  rw [Shape.pattern_ofRule hbody] at hsited
  exact (hsited.mono hplain).named r

end Shapes

theorem sitedAt_of_isPlaced (n : Nat) {sh : Shape} {settled : Bool}
    (hsh : sh.isPlaced settled = true) : SitedAt n sh settled := by
  induction n using Nat.strongRecOn generalizing sh settled with
  | ind n ih =>
    cases n with
    | zero => exact fun _ _ _ _ => trivial
    | succ n =>
      have hlt : n < n + 1 := Nat.lt_succ_self n
      cases sh with
      | nothing => exact fun u s hu _ => ⟨by simpa using hu, nofun⟩
      | leaf l => exact sitedAt_leaf hsh (n + 1)
      | rule r =>
        simp only [Shape.isPlaced, Bool.and_eq_true, bne_iff_ne, ne_eq] at hsh
        obtain ⟨⟨rfl, hbody⟩, hhole⟩ := hsh
        by_cases hliteral : r = .templateLiteral
        · subst hliteral
          have hplaced : holeRest.isPlaced false = true := by decide +kernel
          exact fun u s hu hs =>
            sited_template (fun m hm u s hu => ih m hm hplaced u s hu nofun) hu (hs rfl)
        · obtain ⟨hplaced, hplain⟩ := Shape.isPlaced_ofRule hbody hliteral hhole
          exact sitedAt_rule hbody hplain (ih n hlt hplaced)
      | both a b =>
        simp only [Shape.isPlaced, Bool.and_eq_true] at hsh
        exact sitedAt_both (ih n hlt hsh.1.1) (ih n hlt hsh.1.2) hsh.2
      | either a b =>
        simp only [Shape.isPlaced, Bool.and_eq_true] at hsh
        exact sitedAt_either (ih n hlt hsh.1) (ih n hlt hsh.2)
      | star a =>
        have ha : a.isPlaced false = true := hsh
        have hstar : (Shape.star a).isPlaced false = true := hsh
        exact sitedAt_star (ih n hlt ha) (ih n hlt hstar)
      | phrase a =>
        obtain ⟨rfl, ha⟩ := Bool.and_eq_true_iff.1 hsh
        exact fun u s hu hs => (ih n hlt ha u s hu hs).asPhrase hu (hs rfl)

/-! ## Bodies -/

theorem sited_runs {a : Shape} {x : Reply Rule} (h : Runs Rule.pattern a.pattern s x)
    (ha : a.isPlaced true = true) (hu : Tidy u) (hs : Settled s) : Sited a.isPlain u s x := by
  obtain ⟨n, hn⟩ := h.exists_attempt
  rw [← hn n (Nat.le_refl n)]
  exact sitedAt_of_isPlaced n ha u s hu fun _ => hs

theorem sited_both {p q : Pattern Rule} {x : Reply Rule} (h : Runs Rule.pattern (.both p q) s x)
    (hp : ∀ y, Runs Rule.pattern p s y → Sited true u s y)
    (hq : ∀ v rest y, s = v ++ rest → Takes p s rest → Tidy (u ++ v) → Runs Rule.pattern q rest y →
      Sited true (u ++ v) rest y) : Sited true u s x := by
  cases h with
  | bothFails ha => exact hp _ ha
  | @both _ _ _ _ ts _ _ _ _ ha hb hy =>
    have hfirst := hp _ ha
    obtain ⟨rfl, rfl⟩ := ha.append rfl
    have hmid : Tidy (u ++ Tree.yieldAll ts) := by simpa using hfirst.1
    subst hy
    exact hfirst.after (hq _ _ _ rfl ⟨_, _, _, ha⟩ hmid hb) (.inl rfl) fun _ => .inl ⟨rfl, rfl⟩

def bodyParts : Shape × Shape :=
  (.optional (.rule .expression), .optional (.row [.mark .semicolon, .many (.rule .statement)]))

theorem sited_endOfScript {x : Reply Rule} (hu : Tidy u) (hs : Settled s)
    (h : Runs Rule.pattern endOfScript s x) : Sited true u s x := by
  cases h with
  | @token _ _ x _ h hy =>
    subst hy
    cases x with
    | exhausted => trivial
    | failed => exact fun k hk => Option.some.inj hk ▸ isStop_zero hu hs
    | matched ts n rest far =>
      refine ⟨?_, fun k hk => nomatch hk⟩
      cases h
      simpa using hu

theorem sited_body {x : Reply Rule} (h : Runs Rule.pattern Rule.body.pattern s x) :
    Sited true [] s x := by
  have hgap : ∀ {t t' : List Char}, Takes gap t t' → Settled t' := by
    intro t t' h
    rw [← Option.some.inj (reads_gap.takes_iff.1 h)]
    exact settled_skipGap t
  refine sited_both h (fun y => sited_gap tidy_nil) fun v₁ s₁ y _ h₁ hu₁ h => ?_
  refine sited_both h (fun y h => ?_) fun v₂ s₂ y _ _ hu₂ h => ?_
  · exact sited_runs (a := bodyParts.1) h (by decide +kernel) hu₁ (hgap h₁)
  refine sited_both h (fun y => sited_gap hu₂) fun v₃ s₃ y _ h₃ hu₃ h => ?_
  refine sited_both h (fun y h => ?_) fun v₄ s₄ y _ _ hu₄ h => ?_
  · exact sited_runs (a := bodyParts.2) h (by decide +kernel) hu₃ (hgap h₃)
  refine sited_both h (fun y => sited_gap hu₄) fun v₅ s₅ y _ h₅ hu₅ h => ?_
  exact sited_endOfScript hu₅ (hgap h₅) h

theorem runs_of_verdict {n : Nat} (h : verdict s = .stopped n) (hn : n ≠ 0) :
    Runs Rule.pattern (.rule .body) s (.failed (some n)) := by
  have hruns := orderly.runs_run .body s
  unfold verdict at h
  cases hx : grammar.run .body s with
  | matched ts w rest far =>
    rw [hx] at h
    cases h
  | exhausted =>
    rw [hx] at h
    cases h
    exact absurd rfl hn
  | failed far =>
    rw [hx] at h hruns
    cases far with
    | none =>
      cases h
      exact absurd rfl hn
    | some k =>
      cases h
      exact hruns

/-- A text that is no body is refused at a place where the grammar may stop. -/
theorem isStop_of_verdict {n : Nat} (h : verdict s = .stopped n) (hn : n ≠ 0) : IsStop [] s n := by
  have hruns := runs_of_verdict h hn
  cases hruns with
  | @rule _ _ x _ h hy =>
    obtain rfl : x = .failed (some n) := Reply.named_eq_failed hy.symm
    exact sited_body h n rfl

end EventMarkup.Script
