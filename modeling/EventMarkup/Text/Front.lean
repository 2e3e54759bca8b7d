/-!
# The front of a text

`dropFront?` takes a given text off the front of another, and `cutAt?` cuts a text around the first
place where a given one occurs. Both say nothing when there is nothing to take or to cut at.
-/

namespace EventMarkup.Text

/-- The text without `front` at its front, if it starts with it. -/
def dropFront? : (front s : List Char) → Option (List Char)
  | [], s => some s
  | _ :: _, [] => none
  | c :: front, d :: s => if c = d then dropFront? front s else none

/-- Whether a string starts with another. -/
def startsWith (s front : String) : Bool := (dropFront? front.toList s.toList).isSome

/-- What stands before and behind the first occurrence of `mark`, if there is one. -/
def cutAt? (mark : List Char) : List Char → Option (List Char × List Char)
  | [] => (dropFront? mark []).map fun rest => ([], rest)
  | c :: s =>
    match dropFront? mark (c :: s) with
    | some rest => some ([], rest)
    | none => (cutAt? mark s).map fun (before, rest) => (c :: before, rest)

theorem eq_append_of_dropFront? {front s rest : List Char} (h : dropFront? front s = some rest) :
    s = front ++ rest := by
  induction front generalizing s with
  | nil => simp [dropFront?] at h; simp [h]
  | cons c front ih =>
    cases s with
    | nil => simp [dropFront?] at h
    | cons d s =>
      by_cases hc : c = d
      · subst hc
        simp only [dropFront?, if_true] at h
        simp [← ih h]
      · simp [dropFront?, hc] at h

theorem dropFront?_append (front rest : List Char) :
    dropFront? front (front ++ rest) = some rest := by
  induction front with
  | nil => rfl
  | cons c front ih => simp [dropFront?, ih]

theorem eq_append_of_cutAt? {mark s before rest : List Char}
    (h : cutAt? mark s = some (before, rest)) : s = before ++ mark ++ rest := by
  induction s generalizing before with
  | nil =>
    simp only [cutAt?, Option.map_eq_some_iff, Prod.mk.injEq] at h
    obtain ⟨r, hr, rfl, rfl⟩ := h
    simpa using eq_append_of_dropFront? hr
  | cons c s ih =>
    cases hd : dropFront? mark (c :: s) with
    | some r =>
      simp only [cutAt?, hd, Option.some.injEq, Prod.mk.injEq] at h
      obtain ⟨rfl, rfl⟩ := h
      simpa using eq_append_of_dropFront? hd
    | none =>
      simp only [cutAt?, hd, Option.map_eq_some_iff, Prod.mk.injEq, Prod.exists] at h
      obtain ⟨b, r, hr, rfl, rfl⟩ := h
      simp [ih hr]

theorem length_le_of_cutAt? {mark s before rest : List Char}
    (h : cutAt? mark s = some (before, rest)) : rest.length ≤ s.length := by
  rw [eq_append_of_cutAt? h]
  simp; omega

end EventMarkup.Text
