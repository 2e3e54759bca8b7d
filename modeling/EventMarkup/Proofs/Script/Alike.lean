import EventMarkup.Proofs.Script.Lockstep
import EventMarkup.Proofs.Script.Tail

/-!
# Texts that end alike

Where a blank that no gap takes stands on the last line of a text, with nothing else on the line but
a backslash at its end, the grammar reads what is in front of the blank in the same way if a
semicolon is put in front of the backslash (`alike_body`): token by token it stops at the same
place, or it gets to the backslash both times. So if it stopped at the backslash before, it does not
stop any earlier now (`le_of_verdict`).
-/

namespace EventMarkup.Script

open Peg Text

variable {s t t' u v y z z' rest b : List Char} {x x' : Reply Rule}

/-! ## Replies -/

/-- The reaches are the same, or both are beyond. -/
def Near (n : Nat) (a c : Reach) : Prop := a = c ∨ (∃ k ∈ a, n ≤ k) ∧ ∃ k ∈ c, n ≤ k

section Near

variable {n w w' : Nat} {a a' c c' : Reach}

theorem Near.farther (h : Near n a a') (hc : Near n c c') :
    Near n (a.farther c) (a'.farther c') := by
  have hleft : ∀ {a : Reach} (c : Reach), (∃ k ∈ a, n ≤ k) → ∃ k ∈ a.farther c, n ≤ k := by
    rintro a c ⟨k, hk, hle⟩
    obtain ⟨j, hj, hjk⟩ := Reach.exists_le_farther_left (b := c) hk
    exact ⟨j, hj, by omega⟩
  have hright : ∀ (a : Reach) {c : Reach}, (∃ k ∈ c, n ≤ k) → ∃ k ∈ a.farther c, n ≤ k := by
    rintro a c ⟨k, hk, hle⟩
    obtain ⟨j, hj, hjk⟩ := Reach.exists_le_farther_right (a := a) hk
    exact ⟨j, hj, by omega⟩
  rcases h with rfl | ⟨ha, ha'⟩
  · rcases hc with rfl | ⟨hc, hc'⟩
    · exact .inl rfl
    · exact .inr ⟨hright a hc, hright a hc'⟩
  · exact .inr ⟨hleft c ha, hleft c' ha'⟩

theorem Near.shift (h : Near n a a') (w : Nat) : Near (w + n) (a.shift w) (a'.shift w) := by
  have hshift : ∀ {a : Reach}, (∃ k ∈ a, n ≤ k) → ∃ k ∈ a.shift w, w + n ≤ k := by
    rintro a ⟨k, hk, hle⟩
    exact ⟨w + k, Reach.mem_shift_iff.2 ⟨k, hk, rfl⟩, by omega⟩
  rcases h with rfl | ⟨ha, ha'⟩
  · exact .inl rfl
  · exact .inr ⟨hshift ha, hshift ha'⟩

theorem near_shift (hw : n ≤ w) (hw' : n ≤ w') (a : Reach) : Near n (a.shift w) (a.shift w') := by
  cases a with
  | none => exact .inl rfl
  | some k => exact .inr ⟨⟨w + k, rfl, by omega⟩, w' + k, rfl, by omega⟩

end Near

/-- The replies to a text that goes on with `u` and to one that goes on with `v` instead. They do
not differ in front of the given place. -/
inductive Alike (n : Nat) (z u v : List Char) : Reply Rule → Reply Rule → Prop where
  /-- Both match, and leave the same of the common front. -/
  | inside {y z' : List Char} {w : Nat} {ts ts' : List (Peg.Tree Rule)} {far far' : Reach}
    (hz : z = y ++ z') (hw : w = y.length) (h : Near n far far') :
    Alike n z u v (.matched ts w (z' ++ u) far) (.matched ts' w (z' ++ v) far')
  /-- Both match beyond the place, and leave the same. -/
  | beyond {w w' : Nat} {ts ts' : List (Peg.Tree Rule)} {rest : List Char} {far far' : Reach}
    (hw : n ≤ w) (hw' : n ≤ w') (h : Near n far far') :
    Alike n z u v (.matched ts w rest far) (.matched ts' w' rest far')
  | failed {far far' : Reach} (h : Near n far far') : Alike n z u v (.failed far) (.failed far')

section Combinators

variable {n w w' : Nat} {ts ts' : List (Peg.Tree Rule)} {far far' : Reach}

theorem Alike.named (h : Alike n z u v x x') (r : Rule) :
    Alike n z u v (x.named r) (x'.named r) := by
  cases h with
  | inside hz hw h => exact .inside hz hw h
  | beyond hw hw' h => exact .beyond hw hw' h
  | failed h => exact .failed h

theorem Alike.asPhrase (h : Alike n z u v x x') : Alike n z u v x.asPhrase x'.asPhrase := by
  cases h with
  | inside hz hw h => exact .inside hz hw h
  | beyond hw hw' h => exact .beyond hw hw' h
  | failed h => exact .failed (Near.farther (.inl rfl) h)

theorem Alike.noting (hfar : Near n far far') (h : Alike n z u v x x') :
    Alike n z u v (x.noting far) (x'.noting far') := by
  cases h with
  | inside hz hw h => exact .inside hz hw (hfar.farther h)
  | beyond hw hw' h => exact .beyond hw hw' (hfar.farther h)
  | failed h => exact .failed (hfar.farther h)

theorem Alike.after (hfar : Near (y.length + n) far far') (h : Alike n z u v x x') :
    Alike (y.length + n) (y ++ z) u v (x.after ts y.length far) (x'.after ts' y.length far') := by
  cases h with
  | @inside y' z' _ _ _ _ _ hz hw h =>
    subst hz hw
    exact .inside (y := y ++ y') (by simp) (by simp) (hfar.farther (h.shift _))
  | beyond hw hw' h => exact .beyond (by omega) (by omega) (hfar.farther (h.shift _))
  | failed h => exact .failed (hfar.farther (h.shift _))

theorem Alike.after_beyond (hw : n ≤ w) (hw' : n ≤ w') (hfar : Near n far far')
    (hx : x ≠ .exhausted) : Alike n z u v (x.after ts w far) (x.after ts' w' far') := by
  cases x with
  | exhausted => exact absurd rfl hx
  | matched us m rest e =>
    exact .beyond (by omega) (by omega) (hfar.farther (near_shift hw hw' e))
  | failed e => exact .failed (hfar.farther (near_shift hw hw' e))

end Combinators

/-! ## Tokens -/

/-- The token has no blank in it that is spelled out. -/
def Leaf.isSpelledSolid : Leaf → Bool
  | .operator s | .word s => s.toList.all (!isBlank ·)
  | _ => true

theorem shuns_fixed : ∀ l ∈ [Leaf.assigned, .identifier, .name, .number],
    (blankChars.all fun c => l.pattern.shuns [c]) = true := by
  decide +kernel

theorem shuns_mark (m : Mark) : (blankChars.all fun c => (Leaf.mark m).pattern.shuns [c]) = true := by
  cases m <;> decide +kernel

/-- The tokens that are neither gaps nor literals. -/
def Leaf.isPlainToken : Leaf → Bool
  | .string | .regex | .templateText | .gap | .pause => false
  | _ => true

theorem shuns_blank {l : Leaf} (hl : l.isPlainToken = true) (hs : l.isSpelledSolid = true) {c : Char}
    (hc : isBlank c = true) : l.pattern.shuns (c :: t) = true := by
  have hspelled : ∀ {s : String}, s.toList.all (!isBlank ·) = true → c ∉ s.toList := by
    intro s hs hmem
    have hsolid := List.all_eq_true.1 hs c hmem
    simp [hc] at hsolid
  rw [Pattern.shuns_cons]
  cases l with
  | mark m => exact List.all_eq_true.1 (shuns_mark m) c (mem_blankChars hc)
  | operator s => simp [Leaf.pattern, Pattern.lit, Pattern.shuns, hspelled hs]
  | word s =>
    simp [Leaf.pattern, word, wordEnd, Pattern.lit, Pattern.shuns, hspelled hs,
      isNameRest_of_isBlank hc]
  | assigned | identifier | name | number =>
    exact List.all_eq_true.1 (shuns_fixed _ (by simp)) c (mem_blankChars hc)
  | _ => cases hl

section Leaves

variable {n : Nat} {l : Leaf}

theorem alike_of_parallel {f : List Char → Option (List Char)} (hl : Reads l.pattern f)
    (hf : Parallel f z u v) (h : Runs Rule.pattern l.pattern (z ++ u) x) :
    ∃ x', Runs Rule.pattern l.pattern (z ++ v) x' ∧ Alike n z u v x x' := by
  rcases hf with ⟨hu, hv⟩ | ⟨y, z', rfl, hu, hv⟩
  · obtain ⟨far, hx⟩ := hl.refuses hu
    obtain ⟨far', hx'⟩ := hl.refuses hv
    obtain rfl := h.unique hx
    exact ⟨_, hx', .failed (.inl ((reach_leaf hx).trans (reach_leaf hx').symm))⟩
  · obtain ⟨ts, w, far, hx⟩ := hl.takes hu
    obtain ⟨ts', w', far', hx'⟩ := hl.takes hv
    obtain rfl := h.unique hx
    have hw := hx.length_eq
    have hw' := hx'.length_eq
    simp only [List.length_append] at hw hw'
    obtain rfl : w = w' := by omega
    refine ⟨_, hx', .inside rfl (by omega) (.inl ?_)⟩
    exact (reach_leaf hx).trans (reach_leaf hx').symm

theorem alike_of_shuns (hu : l.pattern.shuns u = true) (hv : l.pattern.shuns v = true)
    (h : Runs Rule.pattern l.pattern (z ++ u) x) :
    ∃ x', Runs Rule.pattern l.pattern (z ++ v) x' ∧ Alike n z u v x x' := by
  obtain ⟨x', hx', hswap⟩ := h.swap rfl hu hv
  refine ⟨x', hx', ?_⟩
  cases hswap with
  | matched ts w z' far =>
    obtain ⟨hz, rfl⟩ := h.append rfl
    rw [← List.append_assoc] at hz
    exact .inside (List.append_cancel_right hz) rfl (.inl rfl)
  | failed far => exact .failed (.inl rfl)

theorem isIdle_tail (hu : Tail u) (hv : Tail v) (z : List Char) :
    Parallel (fun s => if isIdle s then some s else none) z u v := by
  cases z with
  | nil =>
    have hnone : ∀ {t}, Tail t → (if isIdle ([] ++ t) then some ([] ++ t) else none) = none := by
      intro t ht
      obtain ⟨c, t, rfl, hc, -⟩ := ht.head
      refine if_neg fun hidle => ?_
      rw [eq_of_beq (hidle : (c == '\x7d') = true)] at hc
      cases hc
    exact .inl ⟨hnone hu, hnone hv⟩
  | cons c z =>
    cases hc : c == '\x7d' with
    | true => exact .inr ⟨[], c :: z, rfl, if_pos hc, if_pos hc⟩
    | false => exact .inl ⟨if_neg (ne_true_of_eq_false hc), if_neg (ne_true_of_eq_false hc)⟩

theorem alike_leaf (hb : Stray b) (ht : t ∈ endings) (ht' : t' ∈ endings)
    (hl : l.isSpelledSolid = true) (hz : Edge z)
    (h : Runs Rule.pattern l.pattern (z ++ (b ++ t)) x) :
    ∃ x', Runs Rule.pattern l.pattern (z ++ (b ++ t')) x' ∧
      Alike (z.length + b.length) z (b ++ t) (b ++ t') x x' := by
  have hu := hb.tail ht
  have hv := hb.tail ht'
  cases hplain : l.isPlainToken with
  | true =>
    obtain ⟨c, hc, -⟩ := hb.first
    obtain ⟨b, rfl⟩ := List.head?_eq_some_iff.1 hc
    have hshuns : ∀ t, l.pattern.shuns (c :: b ++ t) = true := fun t =>
      shuns_blank hplain hl (hb.blank c List.mem_cons_self)
    exact alike_of_shuns (hshuns t) (hshuns t') h
  | false =>
    cases l with
    | string => exact alike_of_parallel reads_string (string?_tail hu hv z) h
    | regex => exact alike_of_parallel reads_regex (regex?_tail hu hv z) h
    | gap =>
      obtain ⟨y, z', hsplit, hs, hs'⟩ := skipGap_tail hu hv z hz
      exact alike_of_parallel reads_gap
        (.inr ⟨y, z', hsplit, congrArg some hs, congrArg some hs'⟩) h
    | pause => exact alike_of_parallel reads_pause (isIdle_tail hu hv z) h
    | templateText =>
      rcases templateText?_tail hb z ht ht' with hpar | ⟨htext, htext'⟩
      · exact alike_of_parallel reads_templateText hpar h
      · obtain ⟨ts, w, far, hx⟩ := reads_templateText.takes htext
        obtain ⟨ts', w', far', hx'⟩ := reads_templateText.takes htext'
        obtain rfl := h.unique hx
        have hlong : ∀ t ∈ endings, 0 < t.length := by decide
        have hpos := hlong t ht
        have hpos' := hlong t' ht'
        have hw := hx.length_eq
        have hw' := hx'.length_eq
        simp only [List.length_append, List.length_cons, List.length_nil] at hw hw'
        refine ⟨_, hx', .beyond (by omega) (by omega) (.inl ?_)⟩
        exact (reach_leaf (l := .templateText) hx).trans (reach_leaf (l := .templateText) hx').symm
    | _ => cases hplain

end Leaves

/-! ## Patterns -/

/-- Texts that end with a backslash behind stray blanks, side by side with those that have a
semicolon in between. -/
def endingLockstep (b t t' : List Char) : Lockstep { z : List Char // Edge z } where
  left z := z.1 ++ (b ++ t)
  right z := z.1 ++ (b ++ t')
  Agrees z := Alike (z.1.length + b.length) z.1 (b ++ t) (b ++ t')
  failed _ := .failed (.inl rfl)
  named r h := h.named r
  asPhrase h := h.asPhrase
  noting h hx := by
    cases h with
    | failed hnear => exact hx.noting hnear
  enough h := by
    cases h with
    | failed hnear => exact .inside (y := []) rfl rfl hnear
  of_failed h := by
    cases h
    exact ⟨_, rfl⟩
  of_matched {z ts w rest far x'} h := by
    obtain ⟨z, hz⟩ := z
    cases h with
    | @inside y z' _ _ _ _ _ hsplit hw hnear =>
      obtain rfl : z = y ++ z' := hsplit
      subst hw
      refine ⟨_, _, _, _, rfl, .inl ⟨⟨z', hz.suffix⟩, rfl, rfl, fun x x' halike => ?_⟩⟩
      rw [List.length_append, Nat.add_assoc] at hnear ⊢
      exact halike.after hnear
    | beyond hw hw' hnear =>
      exact ⟨_, _, _, _, rfl, .inr ⟨rfl, fun x hx => .after_beyond hw hw' hnear hx⟩⟩

theorem maintains_endOfScript (hb : Stray b) : (endingLockstep b t t').Maintains endOfScript := by
  refine Lockstep.maintains_of_runs fun z x hx => ?_
  obtain ⟨c, hc, -⟩ := hb.first
  obtain ⟨b, rfl⟩ := List.head?_eq_some_iff.1 hc
  have hend : ∀ t, Runs Rule.pattern endOfScript (z.1 ++ (c :: b ++ t)) (.failed (some 0)) := by
    intro t
    cases z.1 with
    | nil => exact .token (.atEndFails c _) rfl
    | cons d z => exact .token (.atEndFails d _) rfl
  rw [hx.unique (hend t)]
  exact ⟨_, hend t', .failed (.inl rfl)⟩

theorem isSpelledSolid_gap : Leaf.gap.isSpelledSolid = true := rfl

theorem consistsOf_ofRule_solid (r : Rule) :
    (Shape.ofRule r).consistsOf Leaf.isSpelledSolid (fun _ => true) = true := by
  cases r <;> decide +kernel

theorem consistsOf_bodyParts_solid :
    (bodyParts.1.consistsOf Leaf.isSpelledSolid (fun _ => true) &&
      bodyParts.2.consistsOf Leaf.isSpelledSolid fun _ => true) = true := by
  decide +kernel

def solidVocabulary (hb : Stray b) (ht : t ∈ endings) (ht' : t' ∈ endings) :
    (endingLockstep b t t').Vocabulary where
  leaves := Leaf.isSpelledSolid
  rules _ := true
  leaf _ hl := Lockstep.maintains_of_runs fun z _ hx => alike_leaf hb ht ht' hl z.2 hx
  endOfScript := maintains_endOfScript hb
  gap := isSpelledSolid_gap
  rule r _ := .inr (consistsOf_ofRule_solid r)
  body := consistsOf_bodyParts_solid

/-- The whole grammar replies alike, whichever ending is behind the blanks. -/
theorem alike_body (hb : Stray b) (ht : t ∈ endings) (ht' : t' ∈ endings) (hz : Edge z)
    (h : Runs Rule.pattern (.rule .body) (z ++ (b ++ t)) x) :
    ∃ x', Runs Rule.pattern (.rule .body) (z ++ (b ++ t')) x' ∧
      Alike (z.length + b.length) z (b ++ t) (b ++ t') x x' :=
  (Lockstep.maintains_body (solidVocabulary hb ht ht') rfl).runs (i := ⟨z, hz⟩) h

/-! ## Verdicts -/

theorem verdict_of_runs {k : Nat} (h : Runs Rule.pattern (.rule .body) s (.failed (some k))) :
    verdict s = .stopped k := by
  rw [verdict, (orderly.runs_run .body s).unique h]
  rfl

/-- If the grammar stops at the backslash behind the blanks, it does not stop in front of the blanks
when a semicolon is put in between. -/
theorem le_of_verdict {k : Nat} (hb : Stray b) (hz : Edge z)
    (h : verdict (z ++ (b ++ ['\\'])) = .stopped (z.length + b.length))
    (h' : verdict (z ++ (b ++ [';', '\\'])) = .stopped k) : z.length + b.length ≤ k := by
  have hne : z.length + b.length ≠ 0 := by
    obtain ⟨c, hc, -⟩ := hb.first
    have hpos := List.length_pos_of_mem (List.mem_of_mem_head? hc)
    omega
  have hfirst : ['\\'] ∈ endings := by decide
  have hsecond : [';', '\\'] ∈ endings := by decide
  obtain ⟨x', hx', halike⟩ := alike_body hb hfirst hsecond hz (runs_of_verdict h hne)
  cases halike with
  | @failed _ far' hnear =>
    obtain ⟨j, rfl, hle⟩ : ∃ j ∈ far', z.length + b.length ≤ j := by
      rcases hnear with rfl | ⟨-, hnear⟩
      · exact ⟨_, rfl, Nat.le_refl _⟩
      · exact hnear
    cases (verdict_of_runs hx').symm.trans h'
    exact hle

end EventMarkup.Script
