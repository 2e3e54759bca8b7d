import EventMarkup.Proofs.Script.Lexeme

/-!
# Tokens inside of a text

A string that ends inside of a text does not depend on what follows the text, nor does template text
that something follows.
-/

namespace EventMarkup.Script

open Peg Text

variable {s t z z' u v rest : List Char}

/-- The rest of a text behind a part that is not empty. -/
def Behind (s rest : List Char) : Prop := rest <:+ s ∧ rest.length < s.length

theorem not_length_append_lt : ¬ (z ++ u).length < u.length := by
  rw [List.length_append]
  omega

theorem behind_templatePiece? (h : templatePiece? s = some rest) : Behind s rest := by
  refine ⟨?_, length_lt_of_templatePiece? h⟩
  rcases Option.or_eq_some_iff.1 h with h | ⟨-, h⟩
  · exact (reads_escape.takes h).suffix
  · rcases Option.or_eq_some_iff.1 h with h | ⟨-, h⟩
    · obtain ⟨t, ht, hrest⟩ := Option.bind_eq_some_iff.1 h
      split at hrest
      · cases hrest
      · cases hrest
        exact ((reads_text ['$']).takes ht).suffix
    · exact ((reads_one _).takes h).suffix

theorem exists_append_of_suffix (h : rest <:+ z ++ u) (hle : u.length ≤ rest.length) :
    ∃ z', rest = z' ++ u := by
  rcases List.suffix_or_suffix_of_suffix h (List.suffix_append z u) with h | ⟨z', h⟩
  · exact ⟨[], h.eq_of_length (Nat.le_antisymm h.length_le hle)⟩
  · exact ⟨z', h.symm⟩

/-! ## Strings and template text -/

theorem stretch_cons {stop : Char → Bool} {c : Char} (hc : c ≠ '\\') (s : List Char) :
    stretch stop (c :: s) = if stop c then c :: s else stretch stop s := by
  rw [stretch]
  rintro d t rfl
  exact absurd rfl hc

theorem stretch_inside {stop : Char → Bool} {q : Char} {z z' : List Char} (hq : q ≠ '\\')
    (h : stretch stop (z ++ u) = q :: (z' ++ u)) : stretch stop (z ++ v) = q :: (z' ++ v) := by
  have hshort : ∀ t : List Char, t.length ≤ u.length → stretch stop t ≠ q :: (z' ++ u) := by
    intro t ht heq
    have hle := (stretch_suffix stop t).length_le
    rw [heq] at hle
    simp only [List.length_cons, List.length_append] at hle
    omega
  match z, h with
  | [], h => exact absurd h (hshort u (Nat.le_refl _))
  | [c], h =>
    by_cases hc : c = '\\'
    · subst hc
      cases u with
      | nil =>
        simp only [List.append_nil, stretch] at h
        split at h
        · cases h
          exact absurd rfl hq
        · cases h
      | cons d u => exact absurd h (hshort u (by simp))
    · rw [List.cons_append, stretch_cons hc] at h ⊢
      split at h
      · rename_i hstop
        rw [if_pos hstop]
        rw [List.cons.injEq] at h
        rw [h.1, ← List.append_cancel_right (h.2 : [] ++ u = z' ++ u)]
      · exact absurd h (hshort u (Nat.le_refl _))
  | c :: d :: z, h =>
    by_cases hc : c = '\\'
    · subst hc
      have h : stretch stop (z ++ u) = q :: (z' ++ u) := h
      show stretch stop (z ++ v) = q :: (z' ++ v)
      exact stretch_inside hq h
    · rw [List.cons_append, stretch_cons hc] at h ⊢
      split at h
      · rename_i hstop
        rw [if_pos hstop]
        rw [List.cons.injEq] at h
        rw [h.1, ← List.append_cancel_right h.2]
      · rename_i hstop
        rw [if_neg hstop]
        exact stretch_inside hq h

theorem enclosed?_inside {opening closing : Char} {stop : Char → Bool} (hq : closing ≠ '\\')
    (h : enclosed? opening stop closing (z ++ u) = some (z' ++ u)) :
    enclosed? opening stop closing (z ++ v) = some (z' ++ v) := by
  cases z with
  | nil => exact absurd (length_lt_of_enclosed? h) not_length_append_lt
  | cons c z =>
    obtain ⟨t, ht, hrest⟩ := Option.bind_eq_some_iff.1 h
    have hc := eq_append_of_dropFront? ht
    simp only [List.cons_append, List.nil_append, List.cons.injEq] at hc
    obtain ⟨rfl, rfl⟩ := hc
    have hstretch := stretch_inside (v := v) hq (eq_append_of_dropFront? hrest)
    rw [enclosed?, List.cons_append]
    simp [dropFront?, hstretch]

theorem string?_inside (h : string? (z ++ u) = some (z' ++ u)) :
    string? (z ++ v) = some (z' ++ v) := by
  rcases Option.or_eq_some_iff.1 h with h | ⟨-, h⟩
  · rw [string?, enclosed?_inside (by decide) h, Option.some_or]
  · have hv := enclosed?_inside (v := v) (by decide) h
    have hnone : enclosed? '\'' (stopsString '\'') '\'' (z ++ v) = none := by
      obtain ⟨t, ht, -⟩ := Option.bind_eq_some_iff.1 hv
      rw [eq_append_of_dropFront? ht]
      rfl
    rw [string?, hnone, Option.none_or, hv]

theorem escape?_inside (h : escape? (z ++ u) = some (z' ++ u)) :
    escape? (z ++ v) = some (z' ++ v) := by
  obtain ⟨t, ht, hrest⟩ := Option.bind_eq_some_iff.1 h
  have happ := eq_append_of_dropFront? ht
  match z, h, happ with
  | [], h, _ =>
    exact absurd (length_lt_of_escape? h) not_length_append_lt
  | [c], h, happ =>
    cases happ
    exact absurd (length_lt_of_one? hrest) not_length_append_lt
  | c :: d :: z, h, happ =>
    cases happ
    simp only [one?, if_true, Option.some.injEq] at hrest
    rw [List.append_cancel_right hrest]
    rfl

theorem one?_inside {ok : Char → Bool} (h : one? ok (z ++ u) = some (z' ++ u)) :
    one? ok (z ++ v) = some (z' ++ v) := by
  cases z with
  | nil => exact absurd (length_lt_of_one? h) not_length_append_lt
  | cons c z =>
    simp only [List.cons_append, one?] at h ⊢
    split at h
    · rename_i hc
      rw [if_pos hc, List.append_cancel_right (Option.some.inj h)]
    · cases h

def opensCurly (v : List Char) : Bool := v.head?.any (· == '\x7b')

theorem dropFront?_curly (h : opensCurly v = false) : dropFront? ['\x7b'] v = none := by
  cases v with
  | nil => rfl
  | cons c v =>
    have hc : ¬ '\x7b' = c := by
      rintro rfl
      cases h
    simp [dropFront?, hc]

theorem templatePiece?_inside (hv : opensCurly v = false)
    (h : templatePiece? (z ++ u) = some (z' ++ u)) (hz : z ≠ ['\\']) :
    templatePiece? (z ++ v) = some (z' ++ v) := by
  rcases Option.or_eq_some_iff.1 h with h | ⟨hescape, h⟩
  · rw [templatePiece?, escape?_inside h, Option.some_or]
  · cases z with
    | nil =>
      have hpiece : templatePiece? u = some (z' ++ u) := by
        rw [templatePiece?, show escape? u = none from hescape, Option.none_or]
        exact h
      exact absurd (length_lt_of_templatePiece? hpiece) not_length_append_lt
    | cons c z =>
      have hescape' : escape? (c :: z ++ v) = none := by
        rw [List.cons_append] at hescape ⊢
        refine escape?_eq_none ?_
        rintro d t rfl hzv
        cases z with
        | nil => exact hz rfl
        | cons e z => simp [escape?, dropFront?, one?] at hescape
      rw [templatePiece?, hescape', Option.none_or]
      rcases Option.or_eq_some_iff.1 h with h | ⟨hdollar, h⟩
      · obtain ⟨t, ht, hrest⟩ := Option.bind_eq_some_iff.1 h
        have happ := eq_append_of_dropFront? ht
        cases happ
        split at hrest
        · cases hrest
        · rename_i hcurly
          have hz' : z = z' := List.append_cancel_right (Option.some.inj hrest)
          subst hz'
          have hcurly' : dropFront? ['\x7b'] (z ++ v) = none := by
            cases z with
            | nil => exact dropFront?_curly hv
            | cons d z =>
              by_cases hd : '\x7b' = d
              · subst hd
                exact absurd rfl hcurly
              · simp [dropFront?, hd]
          simp [dropFront?, hcurly']
      · rw [one?_inside h]
        cases hd : (dropFront? ['$'] (c :: z ++ v)).bind fun t =>
            if (dropFront? ['\x7b'] t).isSome then none else some t with
        | none => rfl
        | some r =>
          obtain ⟨t, ht, -⟩ := Option.bind_eq_some_iff.1 hd
          cases eq_append_of_dropFront? ht
          simp [one?] at h

theorem templatePiece?_stop (h : (∃ t, z = '\x60' :: t) ∨ ∃ t, z = '$' :: '\x7b' :: t) :
    templatePiece? (z ++ v) = none := by
  rcases h with ⟨t, rfl⟩ | ⟨t, rfl⟩
  · simp [templatePiece?, escape?, dropFront?, one?]
  · simp [templatePiece?, escape?, dropFront?, one?]

theorem repeated_eq_of_some {f : List Char → Option (List Char)} (h : f s = some rest)
    (hlt : rest.length < s.length) : repeated f s = repeated f rest := by
  conv => lhs; unfold repeated
  split
  · rename_i r hr
    rw [h, Option.some.injEq] at hr
    subst hr
    exact if_pos hlt
  · rename_i hr
    rw [h] at hr
    cases hr

theorem repeated_eq_of_none {f : List Char → Option (List Char)} (h : f s = none) :
    repeated f s = s := by
  unfold repeated
  split
  · rename_i r hr
    rw [h] at hr
    cases hr
  · rfl

theorem repeated_suffix {f : List Char → Option (List Char)}
    (hf : ∀ s rest, f s = some rest → rest <:+ s) (s : List Char) : repeated f s <:+ s := by
  fun_induction repeated f s with
  | case1 s rest hs hlt ih => exact ih.trans (hf s rest hs)
  | case2 s rest hs hlt => exact List.suffix_refl _
  | case3 s hs => exact List.suffix_refl _

theorem repeated_inside {f : List Char → Option (List Char)} (hz : z' ≠ [])
    (hf : ∀ s rest, f s = some rest → Behind s rest)
    (hinside : ∀ x y, y ≠ [] → f (x ++ u) = some (y ++ u) → f (x ++ v) = some (y ++ v))
    (hstop : f (z' ++ v) = none) (h : repeated f (z ++ u) = z' ++ u) :
    repeated f (z ++ v) = z' ++ v := by
  generalize hs : z ++ u = s at h
  fun_induction repeated f s generalizing z with
  | case1 s rest hrest hlt ih =>
    subst hs
    have hsuffix := repeated_suffix (fun s rest h => (hf s rest h).1) rest
    rw [h] at hsuffix
    have hbehind := hf _ _ hrest
    have hlong := hsuffix.length_le
    have hpos := List.length_pos_iff.2 hz
    rw [List.length_append] at hlong
    obtain ⟨y, rfl⟩ := exists_append_of_suffix hbehind.1 (by omega)
    have hy : y ≠ [] := by
      rintro rfl
      rw [List.nil_append] at hlong
      omega
    have hpiece := hinside z y hy hrest
    rw [repeated_eq_of_some hpiece (hf _ _ hpiece).2]
    exact ih rfl h
  | case2 s rest hrest hlt => exact absurd (hf _ _ hrest).2 hlt
  | case3 s hnone =>
    subst hs
    rw [List.append_cancel_right h]
    exact repeated_eq_of_none hstop

theorem pieces_inside {f : List Char → Option (List Char)} (hz : z' ≠ [])
    (hf : ∀ s rest, f s = some rest → Behind s rest)
    (hinside : ∀ x y, y ≠ [] → f (x ++ u) = some (y ++ u) → f (x ++ v) = some (y ++ v))
    (hstop : f (z' ++ v) = none)
    (h : ((f (z ++ u)).bind fun t => some (repeated f t)) = some (z' ++ u)) :
    ((f (z ++ v)).bind fun t => some (repeated f t)) = some (z' ++ v) := by
  obtain ⟨t, ht, hrest⟩ := Option.bind_eq_some_iff.1 h
  have hsuffix := repeated_suffix (fun s rest h => (hf s rest h).1) t
  rw [Option.some.inj hrest] at hsuffix
  have hlong := hsuffix.length_le
  have hpos := List.length_pos_iff.2 hz
  rw [List.length_append] at hlong
  obtain ⟨y, rfl⟩ := exists_append_of_suffix (hf _ _ ht).1 (by omega)
  have hy : y ≠ [] := by
    rintro rfl
    rw [List.nil_append] at hlong
    omega
  rw [hinside z y hy ht, Option.bind_some]
  exact congrArg some (repeated_inside hz hf hinside hstop (Option.some.inj hrest))

theorem templateText?_inside (hv : opensCurly v = false)
    (h : templateText? (z ++ u) = some (z' ++ u))
    (hz : (∃ t, z' = '\x60' :: t) ∨ ∃ t, z' = '$' :: '\x7b' :: t) :
    templateText? (z ++ v) = some (z' ++ v) := by
  have hne : z' ≠ [] := by rcases hz with ⟨t, rfl⟩ | ⟨t, rfl⟩ <;> simp
  have hpiece : ∀ x y, y ≠ [] → templatePiece? (x ++ u) = some (y ++ u) →
      templatePiece? (x ++ v) = some (y ++ v) := by
    intro x y hy hxy
    refine templatePiece?_inside hv hxy ?_
    rintro rfl
    have hlt := length_lt_of_templatePiece? hxy
    have hpos := List.length_pos_iff.2 hy
    simp only [List.length_append, List.length_cons, List.length_nil] at hlt
    omega
  exact pieces_inside hne (fun _ _ => behind_templatePiece?) hpiece (templatePiece?_stop hz) h

end EventMarkup.Script
