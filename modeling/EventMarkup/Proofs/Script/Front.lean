import EventMarkup.Proofs.Script.Lexeme
import EventMarkup.Proofs.Script.Shape

/-!
# First characters

The first character of a text rules most tokens out. Numbers and names do not start alike, and in
front of an identifier no token matches that stands for no name (`not_takes_of_isNameless`).
-/

namespace EventMarkup.Script

open Peg Text

variable {c : Char} {s t rest : List Char}

theorem not_takes_of_mayStart {p : Pattern Rule} (hp : p.isSolid = true)
    (hc : p.mayStart c = false) : ¬ Takes p (c :: t) rest := by
  rintro ⟨ts, w, far, h⟩
  rw [h.mayStart rfl rfl (h.width_ne_zero_of_isSolid rfl hp)] at hc
  cases hc

theorem number?_eq_none (hc : numberLiteral.mayStart c = false) : number? (c :: t) = none := by
  cases hn : number? (c :: t) with
  | none => rfl
  | some rest => exact absurd (reads_number.takes hn) (not_takes_of_mayStart (by decide) hc)

/-! ## Numbers and names -/

def startsNumber (c : Char) : Bool := c.isDigit || c == '.'

def digitChars : List Char := ['0', '1', '2', '3', '4', '5', '6', '7', '8', '9']

theorem mem_digitChars (hc : c.isDigit = true) : c ∈ digitChars := by
  simp only [Char.isDigit, Bool.and_eq_true, decide_eq_true_eq] at hc
  obtain ⟨hlow, hhigh⟩ := hc
  have hlow' : 48 ≤ c.toNat := hlow
  have hhigh' : c.toNat ≤ 57 := hhigh
  have hof : c = Char.ofNat c.toNat := (Char.ofNat_toNat c).symm
  generalize c.toNat = n at *
  subst hof
  have hn : n = 48 ∨ n = 49 ∨ n = 50 ∨ n = 51 ∨ n = 52 ∨ n = 53 ∨ n = 54 ∨ n = 55 ∨ n = 56 ∨
      n = 57 := by omega
  rcases hn with rfl | rfl | rfl | rfl | rfl | rfl | rfl | rfl | rfl | rfl <;> decide

theorem mayStart_number (hc : startsNumber c = false) : numberLiteral.mayStart c = false := by
  simp only [startsNumber, Bool.or_eq_false_iff, beq_eq_false_iff_ne] at hc
  have h0 : c ≠ '0' := by
    rintro rfl
    exact absurd hc.1 (by decide)
  simp [numberLiteral, Pattern.mayStart, Pattern.joined, Pattern.oneOf, basedNumber, decimalNumber,
    Pattern.plus, Pattern.isSolid, Pattern.lit, digits, hc.1, Ne.symm hc.2, Ne.symm h0]

theorem startsNumber_of_number? (h : number? (c :: t) = some rest) : startsNumber c = true := by
  cases hc : startsNumber c with
  | true => rfl
  | false =>
    rw [number?_eq_none (mayStart_number hc)] at h
    cases h

theorem isNameStart_digitChars : ∀ d ∈ digitChars, isNameStart d = false := by
  have hall : (digitChars.all fun d => isNameStart d == false) = true := by decide
  simpa only [List.all_eq_true, beq_iff_eq] using hall

theorem isNameStart_of_startsNumber (hc : startsNumber c = true) : isNameStart c = false := by
  simp only [startsNumber, Bool.or_eq_true, beq_iff_eq] at hc
  rcases hc with hc | rfl
  · exact isNameStart_digitChars c (mem_digitChars hc)
  · decide

theorem isGapBlank_of_isNameStart (hc : isNameStart c = true) : isGapBlank c = false := by
  cases hb : isGapBlank c with
  | false => rfl
  | true =>
    simp only [isGapBlank, Bool.or_eq_true, beq_iff_eq] at hb
    rcases hb with ((((((((rfl | rfl) | rfl) | rfl) | rfl) | rfl) | rfl) | rfl) | rfl) | rfl <;>
      exact absurd hc (by decide +kernel)

theorem ne_slash_of_isNameStart (hc : isNameStart c = true) : c ≠ '/' := by
  rintro rfl
  exact absurd hc (by decide)

/-! ## Tokens that are no names -/

/-- Whether a token stands for no name. -/
def Leaf.isNameless : Leaf → Bool
  | .mark m => m != .hole
  | .string | .number | .regex => true
  | .operator s => s.toList.head?.any fun c => !isNameStart c
  | .word w => w ∈ reservedWords
  | .assigned | .identifier | .name | .templateText | .gap | .pause => false

theorem not_takes_of_isNameless {l : Leaf} (h : l.isNameless = true)
    (hid : (identifier? s).isSome = true) : ¬ Takes l.pattern s rest := by
  intro ht
  obtain ⟨t, hid⟩ := Option.isSome_iff_exists.1 hid
  obtain ⟨hstarts, hreserved, -⟩ := takes_identifier (reads_identifier.takes hid)
  cases s with
  | nil => cases hstarts
  | cons c s =>
    have hc : isNameStart c = true := hstarts
    have hlit : ∀ (w : String) (t : List Char),
        (w.toList.head?.any fun c => !isNameStart c) = true → ¬ Takes (.lit w) (c :: s) t := by
      intro w t hw ht
      have happ := takes_lit.1 ht
      cases hl : w.toList with
      | nil =>
        rw [hl] at hw
        cases hw
      | cons d l =>
        rw [hl] at happ hw
        cases happ
        simp [hc] at hw
    have hnot : ∀ d, isNameStart d = false → c ≠ d := by
      rintro d hd rfl
      rw [hc] at hd
      cases hd
    cases l with
    | mark mk => exact hlit mk.text _ (by cases mk <;> first | decide | cases h) ht
    | operator w => exact hlit w _ h ht
    | string =>
      have hread := reads_string.takes_iff.1 ht
      rw [string?_eq_none ⟨hnot _ (by decide), hnot _ (by decide +kernel)⟩] at hread
      cases hread
    | number =>
      have hnumber := startsNumber_of_number? (reads_number.takes_iff.1 ht)
      rw [isNameStart_of_startsNumber hnumber] at hc
      cases hc
    | regex =>
      obtain ⟨t, heq, -⟩ := regex?_eq_some (reads_regex.takes_iff.1 ht)
      cases heq
      exact absurd hc (by decide)
    | word w =>
      have hw : w ∈ reservedWords := by simpa [Leaf.isNameless] using h
      have hread := (reads_word (isNameRest_reservedWords w hw)).takes_iff.1 ht
      unfold word? at hread
      split at hread
      · rename_i hfront
        exact hreserved (hfront ▸ List.mem_map_of_mem hw)
      · cases hread
    | _ => cases h

end EventMarkup.Script
