import EventMarkup.Proofs.Cursor.Parts

/-!
# Reading by places is safe

Every pass of a loop goes forward and stays within the bytes (`Within`), wherever it begins: a pass
over a template at any boundary, a pass over a tag or over a text run at any place, also inside of a
character. No part is ever wanted whose ends are not boundaries. Only a pass that ends its loop need
not go forward, and then it stands at the end of the bytes or in front of a tag.

So the reader by places stops only where the text is no template, and the forest that it gives is
the forest of the text (`safe_passes`).
-/

namespace EventMarkup.Cursor

open Markup Text

variable {t s : List Char} {i start : Nat}

/-- Whether a pass at a place keeps within the bytes. It goes forward to a place of one kind, or it
ends the loop at a place of another kind, or the text is no template. -/
def Within {α β : Type} (b : List UInt8) (i : Nat) (goes ends : Nat → Prop) :
    Except Stop (Pass α β) → Prop
  | .ok (.goes _ next) => i < next ∧ next ≤ b.length ∧ goes next
  | .ok (.ends _ last) => i ≤ last ∧ last ≤ b.length ∧ ends last
  | .error stop => ∃ error, stop = .fault error

theorem exists_head?_of_continuation {b : List UInt8} {x : UInt8} {more : List UInt8}
    (hdrop : b.drop i = x :: more) (hx : isContinuation x = true) :
    ∃ d, (behind b i).head? = some d ∧ 128 ≤ d.toNat := by
  rw [isContinuation, Bool.and_eq_true, decide_eq_true_eq] at hx
  exact ⟨Char.ofUInt8 x, by rw [behind, hdrop]; rfl, hx.1⟩

theorem within_partPass (h : isBoundary (encode t) i = true) :
    Within (encode t) i (fun next => isBoundary (encode t) next = true)
      (fun last => last = (encode t).length) (partPass (encode t) i) := by
  obtain ⟨s, h⟩ := isBoundary_encode_iff.1 h
  by_cases hs : s = []
  · subst hs
    rw [partPass_end h]
    exact ⟨le_rfl, h.le, h.length⟩
  · cases hstep : readStep s with
    | error fault =>
      rw [(partPass_of_at h hs).2 fault hstep]
      exact ⟨_, rfl⟩
    | ok read =>
      obtain ⟨j, hpass, hrest, hlt⟩ := (partPass_of_at h hs).1 read.1 read.2 hstep
      rw [hpass]
      exact ⟨hlt, hrest.le, hrest.isBoundary_eq⟩

theorem within_attributePass (hi : i ≤ (encode t).length) :
    Within (encode t) i (fun _ => True) (fun last => i < last ∨ last = (encode t).length)
      (attributePass (encode t) i) := by
  rcases at_or_inside hi with ⟨s, h⟩ | ⟨x, more, hdrop, hx⟩
  · cases hs : skipBlanks s with
    | nil =>
      have hlast := h.at_first hs
      rw [attributePass_nil h hs]
      exact ⟨le_pass _ _ _, hlast.le, .inr hlast.length⟩
    | cons c rest =>
      by_cases hslash : c = '/'
      · subst hslash
        obtain ⟨j, hpass, hrest⟩ := attributePass_slash h hs
        have hlt := h.lt_of_skipBlanks hs hrest ((skipEnd_suffix _).trans (skipBlanks_suffix _))
        rw [hpass]
        exact ⟨hlt.le, hrest.le, .inl hlt⟩
      by_cases hclose : c = '>'
      · subst hclose
        obtain ⟨j, hpass, hrest⟩ := attributePass_close h hs
        have hlt := h.lt_of_skipBlanks hs hrest (List.suffix_refl _)
        rw [hpass]
        exact ⟨hlt.le, hrest.le, .inl hlt⟩
      by_cases hname : isAttributeChar c = true
      · cases hread : Markup.readAttribute (c :: rest) with
        | error fault =>
          rw [(attributePass_attribute h hs hname).2 fault hread]
          exact ⟨_, rfl⟩
        | ok read =>
          obtain ⟨j, hpass, hrest, hlt⟩ :=
            (attributePass_attribute h hs hname).1 read.1 read.2 hread
          rw [hpass]
          exact ⟨hlt, hrest.le, trivial⟩
      · rw [attributePass_char h hs hslash hclose hname]
        exact ⟨Nat.lt_succ_of_le (le_pass _ _ i),
          (h.at_first hs).lt_iff.2 (List.cons_ne_nil c rest), trivial⟩
  · obtain ⟨d, hhead, hd⟩ := exists_head?_of_continuation hdrop hx
    rw [attributePass_wide hhead hd]
    exact ⟨i.lt_succ_self, lt_length_of_head? hhead, trivial⟩

theorem within_textPass (hi : i ≤ (encode t).length) :
    Within (encode t) i (fun _ => True)
      (fun last => last = i ∧
        (i = (encode t).length ∨ start < i ∧ isTagStart (behind (encode t) i) = true))
      (textPass (encode t) start i) := by
  rcases at_or_inside hi with ⟨s, h⟩ | ⟨x, more, hdrop, hx⟩
  · cases hmark : dropFront? openMark s with
    | some after =>
      rw [eq_append_of_dropFront? hmark] at h
      cases hcut : cutAt? closeMark after with
      | none =>
        rw [(textPass_mark h).2 hcut]
        exact ⟨_, rfl⟩
      | some cut =>
        obtain ⟨j, hpass, hrest, hlt⟩ := (textPass_mark h).1 cut.1 cut.2 hcut
        rw [hpass]
        exact ⟨hlt, hrest.le, trivial⟩
    | none =>
      by_cases hend : s = [] ∨ start < i ∧ isTagStart s = true
      · rw [textPass_end h hmark hend]
        refine ⟨le_rfl, hi, rfl, ?_⟩
        rw [h.behind_eq, isTagStart_seen]
        refine hend.imp_left fun hs => ?_
        subst hs
        exact h.length
      · obtain ⟨hs, hgoes⟩ := not_or.1 hend
        have hlt := h.lt_iff.2 hs
        obtain ⟨c, s, rfl⟩ := List.exists_cons_of_ne_nil hs
        rw [textPass_char h hmark hgoes]
        exact ⟨i.lt_succ_self, hlt, trivial⟩
  · obtain ⟨d, hhead, hd⟩ := exists_head?_of_continuation hdrop hx
    rw [textPass_wide hhead hd]
    exact ⟨i.lt_succ_self, lt_length_of_head? hhead, trivial⟩

/-- Reading the bytes of a string by places gives the forest of the string, or stops where it is no
template. Every pass of a loop goes forward within the bytes or ends the loop: a pass over a template
from boundary to boundary, a pass over a tag or over a text run from any place on, also inside of a
character. No part is wanted that does not end at boundaries. -/
theorem safe_passes (source : String) :
    (read (bytes source)).map forestOf = (readForest source).mapError .fault ∧
      isBoundary (bytes source) 0 = true ∧
      (∀ i, isBoundary (bytes source) i = true →
        Within (bytes source) i (fun next => isBoundary (bytes source) next = true)
          (fun last => last = (bytes source).length) (partPass (bytes source) i)) ∧
      (∀ i ≤ (bytes source).length,
        Within (bytes source) i (fun _ => True)
          (fun last => i < last ∨ last = (bytes source).length) (attributePass (bytes source) i)) ∧
      ∀ start, ∀ i ≤ (bytes source).length,
        Within (bytes source) i (fun _ => True)
          (fun last => last = i ∧ (i = (bytes source).length ∨
            start < i ∧ isTagStart (behind (bytes source) i) = true))
          (textPass (bytes source) start i) := by
  rw [bytes_eq_encode]
  refine ⟨?_, rfl, fun i h => within_partPass h, fun i hi => within_attributePass hi,
    fun start i hi => within_textPass hi⟩
  rw [read_encode, readForest]
  cases Step.read source.toList <;> rfl

theorem safe_passes_inside :
    isBoundary (bytes "<a é=b>") 4 = false ∧
      Within (bytes "<a é=b>") 4 (fun _ => True)
        (fun last => 4 < last ∨ last = (bytes "<a é=b>").length)
        (attributePass (bytes "<a é=b>") 4) :=
  ⟨by decide +kernel, (safe_passes "<a é=b>").2.2.2.1 4 (by decide +kernel)⟩

end EventMarkup.Cursor
