/-!
# Pieces of a list

`pieces sep l` cuts a list at every element that satisfies `sep`. The separators are dropped and
nothing else is, so a list with `n` separators has `n + 1` pieces, some of them perhaps empty.
-/

namespace EventMarkup.Text

variable {α : Type}

/-- The stretches of a list between the elements that satisfy `sep`, in order. -/
def pieces (sep : α → Bool) : List α → List (List α)
  | [] => [[]]
  | a :: l =>
    if sep a then [] :: pieces sep l
    else match pieces sep l with
      | [] => [[a]]
      | p :: ps => (a :: p) :: ps

theorem length_pieces (sep : α → Bool) (l : List α) :
    (pieces sep l).length = l.countP sep + 1 := by
  induction l with
  | nil => rfl
  | cons a l ih =>
    by_cases h : sep a = true
    · simp [pieces, h, ih]
    · cases hp : pieces sep l with
      | nil => simp [hp] at ih
      | cons p ps => simp [pieces, h, hp] at ih ⊢; exact ih

theorem pieces_ne_nil (sep : α → Bool) (l : List α) : pieces sep l ≠ [] := by
  intro h
  have := length_pieces sep l
  simp [h] at this

theorem pieces_append {sep : α → Bool} {x : α} (hx : sep x = true) (l m : List α) :
    pieces sep (l ++ x :: m) = pieces sep l ++ pieces sep m := by
  induction l with
  | nil => simp [pieces, hx]
  | cons a l ih =>
    cases ha : sep a with
    | true => simp [pieces, ha, ih]
    | false =>
      cases hp : pieces sep l with
      | nil => exact absurd hp (pieces_ne_nil sep l)
      | cons p ps => simp [pieces, ha, ih, hp]

theorem pieces_eq_singleton {sep : α → Bool} {l : List α} (h : ∀ a ∈ l, sep a = false) :
    pieces sep l = [l] := by
  induction l with
  | nil => rfl
  | cons a l ih =>
    obtain ⟨ha, hl⟩ := List.forall_mem_cons.1 h
    simp [pieces, ha, ih hl]

theorem intercalate_cons (separator l : List α) (ls : List (List α)) :
    separator.intercalate (l :: ls) = l ++ ls.flatMap (separator ++ ·) := by
  induction ls generalizing l with
  | nil => simp
  | cons m ms ih => simp [List.intercalate_cons_cons, ih]

end EventMarkup.Text
