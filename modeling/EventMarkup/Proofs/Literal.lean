import EventMarkup.Proofs.Spelling
import EventMarkup.Text.Quoted

/-!
# Literals read back

A double-quoted literal is read by the rules that script engines and JSON readers share, and a
number by those of decimal literals. Both readers give what stands behind the literal as well, so
they can be used in the middle of a text. `unquote?_quoted` and `readInteger?_toString` say that
what was written is read back, whatever follows it.
-/

namespace EventMarkup.Text

/-! ## Double-quoted literals -/

def hexValue? (c : Char) : Option Nat :=
  if c.isDigit then some (c.toNat - 0x30)
  else if 'a' ≤ c ∧ c ≤ 'f' then some (c.toNat - 0x57)
  else if 'A' ≤ c ∧ c ≤ 'F' then some (c.toNat - 0x37)
  else none

def hexChar? (a b c d : Char) : Option Char := do
  let n := (((← hexValue? a) * 16 + (← hexValue? b)) * 16 + (← hexValue? c)) * 16 + (← hexValue? d)
  if n.isValidChar then some (Char.ofNat n) else none

def escapedLetter? : Char → Option Char
  | '"' => some '"'
  | '\\' => some '\\'
  | '/' => some '/'
  | 'b' => some '\x08'
  | 'f' => some '\x0c'
  | 'n' => some '\n'
  | 'r' => some '\r'
  | 't' => some '\t'
  | _ => none

/-- The characters up to the quote that closes a literal, and what stands behind it. -/
def readQuoted? : List Char → Option (List Char × List Char)
  | [] => none
  | '"' :: rest => some ([], rest)
  | '\\' :: 'u' :: a :: b :: c :: d :: s => do
    let e ← hexChar? a b c d
    (readQuoted? s).map fun (text, rest) => (e :: text, rest)
  | '\\' :: letter :: s => do
    let e ← escapedLetter? letter
    (readQuoted? s).map fun (text, rest) => (e :: text, rest)
  | c :: s =>
    if c = '\\' || c.toNat < 0x20 then none
    else (readQuoted? s).map fun (text, rest) => (c :: text, rest)

/-- The text that the double-quoted literal at the front denotes, and what stands behind it. -/
def unquote? : List Char → Option (List Char × List Char)
  | '"' :: s => readQuoted? s
  | _ => none

theorem hexValue?_hexDigit : ∀ n < 16, hexValue? (hexDigit n) = some n := by decide

theorem readQuoted?_hexFour {c : Char} (h : c.toNat < 0x10000) (k : List Char) :
    readQuoted? ('\\' :: 'u' :: hexFour c.toNat ++ k) =
      (readQuoted? k).map fun (text, rest) => (c :: text, rest) := by
  have hvalue : ∀ n, hexValue? (hexDigit (n % 16)) = some (n % 16) := fun n =>
    hexValue?_hexDigit _ (Nat.mod_lt n (by decide))
  have hsum : ((c.toNat / 4096 % 16 * 16 + c.toNat / 256 % 16) * 16 + c.toNat / 16 % 16) * 16 +
      c.toNat % 16 = c.toNat := by omega
  have hvalid : c.toNat.isValidChar := c.valid
  simp only [hexFour, List.cons_append, List.nil_append, readQuoted?, hexChar?, hvalue,
    Option.bind_eq_bind, Option.bind_some, hsum, if_pos hvalid, Char.ofNat_toNat]

theorem readQuoted?_plain {c : Char} (hslash : c ≠ '\\') (hquote : c ≠ '"') (hlow : 0x20 ≤ c.toNat)
    (k : List Char) :
    readQuoted? (c :: k) = (readQuoted? k).map fun (text, rest) => (c :: text, rest) := by
  have hchar : ¬ (c = '\\' || decide (c.toNat < 0x20)) = true := by simp [hslash]; omega
  rw [readQuoted?.eq_def]
  split
  · rename_i h
    cases h
  · rename_i h
    exact absurd (List.cons.inj h).1 hquote
  · rename_i h
    exact absurd (List.cons.inj h).1 hslash
  · rename_i h
    exact absurd (List.cons.inj h).1 hslash
  · rename_i h
    obtain ⟨rfl, rfl⟩ := List.cons.inj h
    rw [if_neg hchar]

theorem readQuoted?_escaped (c : Char) (k : List Char) :
    readQuoted? (escaped c ++ k) = (readQuoted? k).map fun (text, rest) => (c :: text, rest) := by
  unfold escaped
  split
  · subst c
    rfl
  split
  · subst c
    rfl
  split
  · subst c
    rfl
  split
  · subst c
    rfl
  split
  · subst c
    rfl
  rename_i hslash hquote _ _ _
  split
  · rename_i h
    refine readQuoted?_hexFour ?_ k
    simp only [isControl, Bool.or_eq_true, Bool.and_eq_true, decide_eq_true_eq, beq_iff_eq] at h
    rcases h with (h | rfl) | rfl
    · omega
    · decide
    · decide
  · rename_i h
    simp only [isControl, Bool.or_eq_true, decide_eq_true_eq, not_or] at h
    exact readQuoted?_plain hslash hquote (by omega) k

theorem unquote?_quoted (s k : List Char) : unquote? (quoted s ++ k) = some (s, k) := by
  have h : ∀ s : List Char, readQuoted? (s.flatMap escaped ++ '"' :: k) = some (s, k) := by
    intro s
    induction s with
    | nil => rfl
    | cons c s ih => rw [List.flatMap_cons, List.append_assoc, readQuoted?_escaped, ih]; rfl
  rw [quoted, List.cons_append, List.append_assoc]
  exact h s

/-! ## Numbers -/

/-- The natural number that the digits at the front denote, written without a needless zero, and
what stands behind it. -/
def readNatural? (s : List Char) : Option (Nat × List Char) :=
  let digits := s.takeWhile Char.isDigit
  let n := Nat.ofDigitChars 10 digits 0
  if Nat.toDigits 10 n = digits then some (n, s.dropWhile Char.isDigit) else none

def readInteger? : List Char → Option (Int × List Char)
  | '-' :: s => (readNatural? s).map fun (n, rest) => (-(n : Int), rest)
  | s => (readNatural? s).map fun (n, rest) => ((n : Int), rest)

theorem readNatural?_toDigits (n : Nat) {k : List Char} (hk : ∀ c ∈ k.head?, c.isDigit = false) :
    readNatural? (Nat.toDigits 10 n ++ k) = some (n, k) := by
  have hdigits : ∀ c ∈ Nat.toDigits 10 n, c.isDigit = true := fun c hc =>
    Nat.isDigit_of_mem_toDigits (by decide) (by decide) hc
  unfold readNatural?
  rw [takeWhile_front hdigits hk, dropWhile_front hdigits hk]
  simp only [Nat.ofDigitChars_toDigits (b := 10) (by decide) (by decide), if_true]

theorem exists_toDigits_eq (n : Nat) : ∃ c s, Nat.toDigits 10 n = c :: s ∧ c.isDigit = true := by
  obtain ⟨c, s, h⟩ := List.exists_cons_of_ne_nil (Nat.toDigits_ne_nil (n := n) (b := 10))
  exact ⟨c, s, h,
    Nat.isDigit_of_mem_toDigits (b := 10) (n := n) (by decide) (by decide) (by simp [h])⟩

theorem toList_toString_natCast (n : Nat) : (toString (n : Int)).toList = Nat.toDigits 10 n :=
  Nat.toList_repr

theorem toList_toString_negSucc (n : Nat) :
    (toString (Int.negSucc n)).toList = '-' :: Nat.toDigits 10 (n + 1) := by
  have htext : toString (Int.negSucc n) = "-" ++ Nat.repr (n + 1) := rfl
  rw [htext, String.toList_append, Nat.toList_repr]
  rfl

theorem exists_toString_eq (n : Int) :
    ∃ c s, (toString n).toList = c :: s ∧ (c = '-' ∨ c.isDigit = true) := by
  cases n with
  | ofNat n =>
    obtain ⟨c, s, h, hc⟩ := exists_toDigits_eq n
    exact ⟨c, s, (toList_toString_natCast n).trans h, .inr hc⟩
  | negSucc n => exact ⟨_, _, toList_toString_negSucc n, .inl rfl⟩

theorem readInteger?_toString (n : Int) {k : List Char} (hk : ∀ c ∈ k.head?, c.isDigit = false) :
    readInteger? ((toString n).toList ++ k) = some (n, k) := by
  cases n with
  | ofNat n =>
    have hread : readNatural? (Nat.toDigits 10 n ++ k) = some (n, k) := readNatural?_toDigits n hk
    obtain ⟨c, s, h, hc⟩ := exists_toDigits_eq n
    have hminus : c ≠ '-' := by
      rintro rfl
      exact absurd hc (by decide)
    rw [Int.ofNat_eq_natCast, toList_toString_natCast]
    rw [h] at hread ⊢
    unfold readInteger?
    split
    · rename_i heq
      exact absurd (List.cons.inj heq).1 hminus
    · rw [hread]
      rfl
  | negSucc n =>
    rw [toList_toString_negSucc, List.cons_append, readInteger?, readNatural?_toDigits _ hk]
    rfl

end EventMarkup.Text
