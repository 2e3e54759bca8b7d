import EventMarkup.Proofs.Script.PathCut

/-!
# The letters of paths

No path has a parenthesis before its first bracket (`openBracket_mem_of_isPath`): a path is no call,
and no call is the front of a path.
-/

namespace EventMarkup.Script

open Peg Text

variable {rest w r : List Char}

theorem exists_of_append_eq {front : List Char} {mark : Char} (hfront : mark ∉ front)
    (h : w ++ mark :: r = front ++ rest) :
    ∃ v, w = front ++ v ∧ rest = v ++ mark :: r := by
  rcases exists_of_append_eq_append h.symm with ⟨v, rfl⟩ | hrest
  · exact absurd (by simp) hfront
  · exact hrest

theorem openBracket_mem_of_accesses {accesses : List Access} {after : List Char}
    (haccesses : ∀ a ∈ accesses, a.WellFormed) (hafter : ∀ c ∈ after, isPathBlank c = true)
    (h : w ++ '(' :: r = accesses.flatMap Access.spelling ++ after) : '[' ∈ w := by
  induction accesses generalizing w with
  | nil =>
    have hmem : '(' ∈ after := by
      rw [List.flatMap_nil, List.nil_append] at h
      simp [← h]
    exact absurd (hafter _ hmem) (by decide)
  | cons a accesses ih =>
    obtain ⟨ha, hmore⟩ := List.forall_mem_cons.1 haccesses
    rw [List.flatMap_cons, List.append_assoc] at h
    have hopen : ∀ {u}, w ++ '(' :: r = '[' :: u → '[' ∈ w := by
      intro u hu
      cases w with
      | nil => simp at hu
      | cons c w => simp [(List.cons.inj hu).1]
    cases a with
    | point name =>
      -- The name behind the point has no parenthesis, so it stands behind this access.
      have hname : '(' ∉ name := IsAsciiName.not_mem ha rfl
      have hfront : '(' ∉ Access.spelling (.point name) := by simp [Access.spelling, hname]
      obtain ⟨v, rfl, hv⟩ := exists_of_append_eq hfront h
      exact List.mem_append_right _ (ih hmore hv.symm)
    | single content => exact hopen h
    | double content => exact hopen h
    | place digits => exact hopen h
    | named name => exact hopen h

/-- A path opens a bracket before any parenthesis. -/
theorem openBracket_mem_of_isPath {text : String} (h : isPath text = true)
    (htext : text.toList = w ++ '(' :: r) : '[' ∈ w := by
  obtain ⟨cut⟩ := isPath_eq_true_iff.1 h
  have hfront : '(' ∉ cut.before ++ cut.name := by
    rw [List.mem_append, not_or]
    exact ⟨fun h => absurd (cut.before_blank _ h) (by decide), cut.name_isAsciiName.not_mem rfl⟩
  obtain ⟨v, rfl, hv⟩ := exists_of_append_eq hfront
    (htext.symm.trans (cut.eq_append.trans (List.append_assoc ..).symm))
  exact List.mem_append_right _
    (openBracket_mem_of_accesses cut.accesses_wellFormed cut.after_blank hv.symm)

end EventMarkup.Script
