import EventMarkup.Proofs.Script.Alike
import Mathlib.Data.Finset.Card
import Mathlib.Order.Interval.Finset.Nat

/-!
# Rounds

`isBody` puts semicolons in front of lines until the grammar is content, and gives up after as many
rounds as the text has line breaks. The bound never decides: every round puts its semicolon behind a
line break that no other round has used (`Rounds.nodup_lines`), so there are no more rounds than
line breaks, and the rounds without a bound come to the same answer (`rounds_use_up_line_breaks`).
They need not go from left to right (`exists_semicolon_further_left`).

A line is `Sealed` when its first token is a semicolon and only blanks of the gap are in front of
it. The grammar does not stop in front of that semicolon on the line. A round seals its line, except
where template text comes to the end of the text with blanks that no gap takes; such a round is the
last one.
-/

namespace EventMarkup.Script

open Peg Text

variable {s t u v w z : List Char} {k n : Nat}

/-- A round that puts a semicolon in: the text that it judges, and the place. -/
structure Insertion where
  text : List Char
  place : Nat
  deriving DecidableEq, Repr

namespace Insertion

/-- The number of the last line break in front of the place, counted from one. No round adds a line
break or takes one away, so this is its number in the first text as well. -/
def line (i : Insertion) : Nat := (i.text.take i.place).countP isLineEnd

/-- Only blanks are between that line break and the place. -/
def IsBehindBreak (i : Insertion) : Prop :=
  ∃ v e w, i.text.take i.place = v ++ e :: w ∧ isLineEnd e = true ∧
    i.line = v.countP isLineEnd + 1 ∧ ∀ c ∈ w, isBlank c = true ∧ isLineEnd c = false

end Insertion

/-- Rounds one after the other, from the first text to the last. -/
inductive Rounds : List Char → List Insertion → List Char → Prop where
  | none (s : List Char) : Rounds s [] s
  | more {s t : List Char} {place : Nat} {more : List Insertion}
    (h : verdict s = .stopped place) (hline : startsLine s place = true)
    (hmore : Rounds (withSemicolon s place) more t) : Rounds s (⟨s, place⟩ :: more) t

/-- Whether a text becomes a function body, with as many rounds as it takes. -/
inductive Judged : List Char → Bool → Prop where
  | accepted {s : List Char} (h : verdict s = .accepted) : Judged s true
  | refused {s : List Char} {place : Nat} (h : verdict s = .stopped place)
    (hline : startsLine s place = false) : Judged s false
  | again {s : List Char} {place : Nat} {answer : Bool} (h : verdict s = .stopped place)
    (hline : startsLine s place = true) (hs : Judged (withSemicolon s place) answer) :
    Judged s answer

theorem Judged.unique {a b : Bool} (h : Judged s a) (h' : Judged s b) : a = b := by
  induction h with
  | accepted h => cases h' <;> simp_all
  | refused h hline => cases h' <;> simp_all
  | again h hline _ ih =>
    cases h' with
    | accepted h' => simp_all
    | refused h' hline' => simp_all
    | again h' hline' hs =>
      cases h.symm.trans h'
      exact ih hs

/-! ## Lines -/

theorem exists_of_startsLine (h : startsLine s k = true) :
    ∃ v e w c t, s.take k = v ++ e :: w ∧ s.drop k = c :: t ∧ isLineEnd e = true ∧
      (Insertion.mk s k).line = v.countP isLineEnd + 1 ∧
      (∀ d ∈ w, isBlank d = true ∧ isLineEnd d = false) ∧ c ≠ ';' := by
  unfold startsLine at h
  cases hdrop : s.drop k with
  | nil => simp [hdrop] at h
  | cons c t =>
    simp only [hdrop, Bool.and_eq_true, bne_iff_ne, ne_eq, List.any_eq_true] at h
    obtain ⟨⟨hc, e₀, hmem, he₀⟩, -⟩ := h
    obtain ⟨e, hfind⟩ := Option.isSome_iff_exists.1 (List.find?_isSome.2 ⟨e₀, hmem, he₀⟩)
    obtain ⟨he, w, v, hblanks, hw⟩ := List.find?_eq_some_iff_append.1 hfind
    have hall : ∀ d ∈ w, isBlank d = true := fun d hd =>
      List.all_eq_true.1 List.all_takeWhile d (hblanks ▸ List.mem_append_left _ hd)
    have hbefore := (s.take k).reverse.takeWhile_append_dropWhile (p := isBlank)
    rw [hblanks] at hbefore
    obtain ⟨front, htake⟩ : ∃ front, s.take k = front ++ e :: w.reverse := by
      refine ⟨((s.take k).reverse.dropWhile isBlank).reverse ++ v.reverse, ?_⟩
      simpa using (congrArg List.reverse hbefore).symm
    have hnone : w.reverse.countP isLineEnd = 0 :=
      List.countP_eq_zero.2 fun d hd => by simpa using hw d (List.mem_reverse.1 hd)
    refine ⟨front, e, w.reverse, c, t, htake, rfl, he, ?_, fun d hd => ?_, hc⟩
    · rw [Insertion.line, htake, List.countP_append, List.countP_cons, if_pos he, hnone]
    · have hd := List.mem_reverse.1 hd
      exact ⟨hall d hd, by simpa using hw d hd⟩

theorem Insertion.isBehindBreak (h : startsLine s k = true) : (Insertion.mk s k).IsBehindBreak := by
  obtain ⟨v, e, w, c, t, htake, -, he, hline, hw, -⟩ := exists_of_startsLine h
  exact ⟨v, e, w, htake, he, hline, hw⟩

theorem filter_withSemicolon (s : List Char) (k : Nat) :
    (withSemicolon s k).filter isLineEnd = s.filter isLineEnd := by
  rw [withSemicolon, List.filter_append, List.filter_cons_of_neg (by decide), ← List.filter_append,
    List.take_append_drop]

/-- The `n`-th line starts with blanks of the gap and a semicolon. -/
def Sealed (s : List Char) (n : Nat) : Prop :=
  ∃ v e w t, s = v ++ e :: (w ++ ';' :: t) ∧ isLineEnd e = true ∧
    (∀ c ∈ w, isGapBlank c = true ∧ isLineEnd c = false) ∧ n = v.countP isLineEnd + 1

theorem sealed_withSemicolon (h : startsLine s k = true) (ht : Tidy (s.take k)) :
    Sealed (withSemicolon s k) (Insertion.mk s k).line := by
  obtain ⟨v, e, w, htake, he, hline, hw⟩ := Insertion.isBehindBreak h
  refine ⟨v, e, w, s.drop k, ?_, he, fun c hc => ⟨?_, (hw c hc).2⟩, hline⟩
  · simp [withSemicolon, show s.take k = _ from htake]
  · exact ht v e w htake he (fun d hd => (hw d hd).1) c hc

theorem eq_of_countP_eq {v' w' : List Char} {e e' : Char} (h : v ++ e :: w = v' ++ e' :: w')
    (he : isLineEnd e = true) (he' : isLineEnd e' = true)
    (hcount : v.countP isLineEnd = v'.countP isLineEnd) : v = v' ∧ w = w' := by
  have hlt : ∀ {x y z z' : List Char} {a b : Char}, isLineEnd a = true →
      x ++ a :: z = x ++ (y ++ b :: z') → x.countP isLineEnd = (x ++ y).countP isLineEnd → y = [] := by
    intro x y z z' a b ha heq hcount
    cases y with
    | nil => rfl
    | cons d y =>
      cases List.append_cancel_left heq
      rw [List.countP_append, List.countP_cons, if_pos ha] at hcount
      omega
  rcases List.append_eq_append_iff.1 h with ⟨y, rfl, -⟩ | ⟨y, rfl, -⟩
  · obtain rfl := hlt he (by simpa using h) hcount
    simp only [List.append_nil, List.append_cancel_left_eq, List.cons.injEq] at h
    exact ⟨by simp, h.2⟩
  · obtain rfl := hlt he' (by simpa using h.symm) hcount.symm
    simp only [List.append_nil, List.append_cancel_left_eq, List.cons.injEq] at h
    exact ⟨by simp, h.2⟩

/-- The grammar does not stop on a sealed line in front of the semicolon, and a line does not start
behind it. -/
theorem Sealed.line_ne (h : Sealed s n) (hline : startsLine s k = true)
    (hs : Settled (s.drop k)) : (Insertion.mk s k).line ≠ n := by
  rintro rfl
  obtain ⟨v, e, w, t, hsealed, he, hw, hn⟩ := h
  obtain ⟨v', e', w', c, t', htake, hdrop, he', hline', hblank, hc⟩ := exists_of_startsLine hline
  have hs' : s = v' ++ e' :: (w' ++ c :: t') := by
    rw [← List.take_append_drop k s, htake, hdrop, List.append_assoc, List.cons_append]
  obtain ⟨rfl, heq⟩ := eq_of_countP_eq (hsealed.symm.trans hs') he he' (by omega)
  rcases List.append_eq_append_iff.1 heq with ⟨y, rfl, hy⟩ | ⟨y, rfl, hy⟩
  · cases y with
    | nil => exact hc (List.cons.inj hy).1.symm
    | cons d y =>
      cases hy
      cases (hblank ';' (by simp)).1
  · cases y with
    | nil => exact hc (List.cons.inj hy).1
    | cons d y =>
      cases hy
      rw [hdrop] at hs
      exact ne_true_of_eq_false (hs c rfl) (hw c (by simp)).1

theorem Sealed.withSemicolon (h : Sealed s n) (hne : (Insertion.mk s k).line ≠ n) :
    Sealed (withSemicolon s k) n := by
  obtain ⟨v, e, w, t, hs, he, hw, rfl⟩ := h
  have hsplit : s.take k ++ s.drop k = v ++ e :: (w ++ ';' :: t) :=
    (List.take_append_drop k s).trans hs
  have hcount : ∀ z ⊆ w, (v ++ e :: z).countP isLineEnd = v.countP isLineEnd + 1 := by
    intro z hz
    have hnone : z.countP isLineEnd = 0 :=
      List.countP_eq_zero.2 fun c hc => by simp [(hw c (hz hc)).2]
    rw [List.countP_append, List.countP_cons, if_pos he, hnone]
  unfold Script.withSemicolon
  unfold Insertion.line at hne
  dsimp only at hne
  generalize s.take k = x at hsplit hne
  generalize s.drop k = y at hsplit
  rcases List.append_eq_append_iff.1 hsplit with ⟨z, rfl, rfl⟩ | ⟨z, rfl, hz⟩
  · -- in front of the line
    refine ⟨x ++ ';' :: z, e, w, t, by simp, he, hw, ?_⟩
    simp [show isLineEnd ';' = false from rfl]
  · cases z with
    | nil =>
      obtain rfl : e :: (w ++ ';' :: t) = y := hz
      refine ⟨v ++ [';'], e, w, t, by simp, he, hw, ?_⟩
      simp [show isLineEnd ';' = false from rfl]
    | cons d z =>
      rw [List.cons_append, List.cons.injEq] at hz
      obtain ⟨rfl, hz⟩ := hz
      rcases List.append_eq_append_iff.1 hz with ⟨z', rfl, hy⟩ | ⟨z', rfl, hy⟩
      · cases z' with
        | nil => exact absurd (hcount _ (by simp)) hne
        | cons d z' =>
          -- behind the semicolon
          cases hy
          exact ⟨v, e, w, z' ++ ';' :: y, by simp, he, hw, rfl⟩
      · -- between the line break and the semicolon
        exact absurd (hcount z (by simp)) hne

/-! ## Stops -/

theorem ne_zero_of_startsLine (h : startsLine s k = true) : k ≠ 0 := by
  rintro rfl
  obtain ⟨v, e, w, -, -, htake, -⟩ := exists_of_startsLine h
  simp at htake

theorem settled_of_startsLine (h : verdict s = .stopped k) (hline : startsLine s k = true) :
    Settled (s.drop k) ∧ (Tidy (s.take k) ∨ s.drop k = ['\\']) := by
  rcases isStop_of_verdict h (ne_zero_of_startsLine hline) with ⟨htidy, hs⟩ | hspent
  · exact ⟨hs, .inl htidy⟩
  · obtain ⟨-, -, -, c, t, -, hdrop, -⟩ := exists_of_startsLine hline
    rcases hspent with hnil | hend
    · rw [hnil] at hdrop
      cases hdrop
    · refine ⟨?_, .inr hend⟩
      rw [hend]
      intro d hd
      cases hd
      rfl

/-- A text that is not tidy ends with blanks, the first of which no gap takes. -/
theorem exists_stray_of_not_tidy (h : ¬ Tidy u) :
    ∃ z b, u = z ++ b ∧ Edge z ∧ Stray b := by
  simp only [Tidy, not_forall] at h
  obtain ⟨v, e, w, rfl, he, hw, c, hc, hgap⟩ := h
  refine ⟨v ++ e :: w.takeWhile isGapBlank, w.dropWhile isGapBlank, by simp, ?_, ?_, ?_⟩
  · intro v' d w' heq hw'
    rcases exists_of_append_eq_append heq with ⟨x, rfl⟩ | ⟨x, rfl, hx⟩
    · rw [List.append_assoc] at heq
      obtain rfl : x ++ e :: w.takeWhile isGapBlank = w' := by simpa using heq
      exact absurd he (ne_true_of_eq_false (hw' e (by simp)))
    · have hd : d ∈ e :: w.takeWhile isGapBlank := hx ▸ by simp
      rcases List.mem_cons.1 hd with rfl | hd
      · exact isGapBlank_of_isLineEnd he
      · exact List.all_eq_true.1 List.all_takeWhile d hd
  · exact fun d hd => hw d ((List.dropWhile_suffix _).subset hd)
  · have hhead := List.head?_dropWhile_not isGapBlank w
    cases hdrop : w.dropWhile isGapBlank with
    | nil => exact absurd (List.dropWhile_eq_nil_iff.1 hdrop c hc) hgap
    | cons d x =>
      rw [hdrop] at hhead
      exact ⟨d, rfl, hhead⟩

/-- A round at a backslash that ends the text behind untidy blanks is the last one. -/
theorem not_startsLine_of_not_tidy {j : Nat} (h : verdict s = .stopped k) (ht : ¬ Tidy (s.take k))
    (hend : s.drop k = ['\\']) (hj : verdict (withSemicolon s k) = .stopped j) :
    startsLine (withSemicolon s k) j = false := by
  obtain ⟨z, b, hsplit, hz, hb⟩ := exists_stray_of_not_tidy ht
  have hk : k = z.length + b.length := by
    have hlength := congrArg List.length hend
    have hshort := congrArg List.length hsplit
    simp only [List.length_drop, List.length_take, List.length_append, List.length_cons,
      List.length_nil] at hlength hshort
    omega
  have hs : s = z ++ (b ++ ['\\']) := by
    rw [← List.take_append_drop k s, hend, hsplit, List.append_assoc]
  have hnext : withSemicolon s k = z ++ b ++ [';', '\\'] := by
    rw [withSemicolon, hend, hsplit]
  have hle : z.length + b.length ≤ j := by
    rw [hs, hk] at h
    rw [hnext, List.append_assoc] at hj
    exact le_of_verdict hb hz h hj
  rw [Bool.eq_false_iff]
  intro hline
  obtain ⟨v, e, w, c, t, htake, hdrop, he, -, hw, hc⟩ := exists_of_startsLine hline
  obtain ⟨i, rfl⟩ : ∃ i, j = (z ++ b).length + i := ⟨j - (z ++ b).length, by simp; omega⟩
  rw [hnext] at htake hdrop
  rw [List.take_length_add_append] at htake
  rw [List.drop_length_add_append] at hdrop
  match i with
  | 0 => exact hc (List.cons.inj hdrop).1.symm
  | 1 =>
    -- the semicolon is between the line break and the place
    have htake : z ++ b ++ [';'] = v ++ e :: w := htake
    rcases List.eq_nil_or_concat' w with rfl | ⟨x, d, rfl⟩
    · cases (List.append_inj' htake rfl).2
      cases he
    · have htake : z ++ b ++ [';'] = v ++ e :: x ++ [d] := by simpa using htake
      cases (List.append_inj' htake rfl).2
      cases (hw ';' (by simp)).1
  | i + 2 => simp at hdrop

/-! ## Chains of rounds -/

theorem Rounds.filter_eq {is : List Insertion} (h : Rounds s is t) :
    ∀ i ∈ is, i.text.filter isLineEnd = s.filter isLineEnd := by
  induction h with
  | none s => exact nofun
  | more h hline hmore ih =>
    intro i hi
    rcases List.mem_cons.1 hi with rfl | hi
    · rfl
    · exact (ih i hi).trans (filter_withSemicolon _ _)

theorem Rounds.isBehindBreak {is : List Insertion} (h : Rounds s is t) :
    ∀ i ∈ is, i.IsBehindBreak := by
  induction h with
  | none s => exact nofun
  | more h hline hmore ih => exact List.forall_mem_cons.2 ⟨Insertion.isBehindBreak hline, ih⟩

/-- No round puts its semicolon on a line that is sealed, and none on the line of another. -/
theorem Rounds.nodup_lines {is : List Insertion} (h : Rounds s is t) {lines : List Nat}
    (hlines : ∀ n ∈ lines, Sealed s n) :
    (is.map Insertion.line).Nodup ∧ ∀ i ∈ is, i.line ∉ lines := by
  induction h generalizing lines with
  | none s => exact ⟨List.nodup_nil, nofun⟩
  | @more s t k more h hline hmore ih =>
    obtain ⟨hs, htidy⟩ := settled_of_startsLine h hline
    have hnew : (Insertion.mk s k).line ∉ lines := fun hmem =>
      (hlines _ hmem).line_ne hline hs rfl
    have hkept : ∀ n ∈ lines, Sealed (withSemicolon s k) n := fun n hn =>
      (hlines n hn).withSemicolon fun heq => hnew (heq ▸ hn)
    by_cases ht : Tidy (s.take k)
    · obtain ⟨hnodup, hfresh⟩ := ih (List.forall_mem_cons.2 ⟨sealed_withSemicolon hline ht, hkept⟩)
      refine ⟨?_, List.forall_mem_cons.2 ⟨hnew, fun i hi hmem => ?_⟩⟩
      · rw [List.map_cons, List.nodup_cons]
        refine ⟨fun hmem => ?_, hnodup⟩
        obtain ⟨i, hi, hsame⟩ := List.mem_map.1 hmem
        exact hfresh i hi (hsame ▸ List.mem_cons_self)
      · exact hfresh i hi (List.mem_cons_of_mem _ hmem)
    · cases hmore with
      | none => exact ⟨by simp, by simpa using hnew⟩
      | more h' hline' =>
        have hlast := not_startsLine_of_not_tidy h ht (htidy.resolve_left ht) h'
        exact absurd hline' (ne_true_of_eq_false hlast)

theorem Rounds.nodup_lines_of_first {is : List Insertion} (h : Rounds s is t) :
    (is.map Insertion.line).Nodup :=
  (@Rounds.nodup_lines s t is h [] nofun).1

theorem Rounds.length_le {is : List Insertion} (h : Rounds s is t) :
    is.length ≤ s.countP isLineEnd := by
  have hrange : ∀ i ∈ is, i.line ∈ Finset.Icc 1 (s.countP isLineEnd) := by
    intro i hi
    obtain ⟨v, e, w, -, -, hline, -⟩ := h.isBehindBreak i hi
    have hle : i.line ≤ i.text.countP isLineEnd := (List.take_sublist _ _).countP_le
    rw [List.countP_eq_length_filter, h.filter_eq i hi, ← List.countP_eq_length_filter] at hle
    exact Finset.mem_Icc.2 ⟨by omega, hle⟩
  have hsubset : (is.map Insertion.line).toFinset ⊆ Finset.Icc 1 (s.countP isLineEnd) := by
    intro n hn
    obtain ⟨i, hi, rfl⟩ := List.mem_map.1 (List.mem_toFinset.1 hn)
    exact hrange i hi
  have hcard := Finset.card_le_card hsubset
  rw [List.toFinset_card_of_nodup h.nodup_lines_of_first] at hcard
  simpa using hcard

theorem judged_isBodyWithin (h : ∀ is t, Rounds s is t → is.length ≤ n) :
    Judged s (isBodyWithin n s) := by
  induction n generalizing s with
  | zero =>
    unfold isBodyWithin
    cases hverdict : verdict s with
    | accepted => exact .accepted hverdict
    | stopped k =>
      refine .refused hverdict (Bool.eq_false_iff.2 fun hline => ?_)
      exact absurd (h _ _ (.more hverdict hline (.none _))) (by simp)
  | succ n ih =>
    unfold isBodyWithin
    cases hverdict : verdict s with
    | accepted => exact .accepted hverdict
    | stopped k =>
      show Judged s (startsLine s k && isBodyWithin n (withSemicolon s k))
      cases hline : startsLine s k with
      | false => exact .refused hverdict hline
      | true =>
        rw [Bool.true_and]
        refine .again hverdict hline (ih fun is t hrounds => ?_)
        exact Nat.le_of_succ_le_succ (h _ _ (.more hverdict hline hrounds))

theorem judged_isBody (text : String) : Judged text.toList (isBody text) :=
  judged_isBodyWithin fun _ _ h => h.length_le

theorem judged_iff {text : String} {answer : Bool} :
    Judged text.toList answer ↔ answer = isBody text :=
  ⟨fun h => h.unique (judged_isBody text), fun h => h ▸ judged_isBody text⟩

/-- Each round puts its semicolon behind a line break of the text that no other round has used. So
the bound on the rounds is never exceeded, and without it the answer is the same. -/
theorem rounds_use_up_line_breaks (text : String) :
    (∀ is t, Rounds text.toList is t →
      (∀ i ∈ is, i.text.filter isLineEnd = text.toList.filter isLineEnd ∧ i.IsBehindBreak) ∧
        (is.map Insertion.line).Nodup ∧ is.length ≤ text.toList.countP isLineEnd) ∧
      ∀ answer, Judged text.toList answer ↔ answer = isBody text := by
  refine ⟨fun is t h => ⟨fun i hi => ?_, ?_, h.length_le⟩, fun answer => judged_iff⟩
  · exact ⟨h.filter_eq i hi, h.isBehindBreak i hi⟩
  · exact h.nodup_lines_of_first

/-- A round may put its semicolon in front of the one of the round before: what follows `do` is a
statement now, and then the grammar misses a parenthesis, which it does not report. -/
theorem exists_semicolon_further_left :
    ∃ is t, Rounds "a;\ndo\nwhile".toList is t ∧
      ¬ (is.map Insertion.place).Pairwise (· < ·) := by
  refine ⟨[⟨"a;\ndo\nwhile".toList, 6⟩, ⟨"a;\ndo\n;while".toList, 3⟩], "a;\n;do\n;while".toList,
    .more ?_ ?_ (.more ?_ ?_ (.none _)), ?_⟩ <;> decide +kernel

end EventMarkup.Script
