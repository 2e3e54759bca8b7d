import EventMarkup.Proofs.Quotation

/-!
# Numeric keys

A token of a key is cut in one way into blanks, a sign, digits and the rest (`NumberCut`). If the
digits denote a number from 1 to `2 ^ 63 - 1`, the token stands for this number or its negative,
and otherwise for its name (`ofToken_of_digits`).

Numbers are read in words of 64 bits, digit by digit, with a check of each product and each sum.
This reading (`leadingWord?`) is given up only where the digits denote more than the greatest word,
and else it gives the number that `leadingNumber?` gives. So no step of it wraps around.
-/

namespace EventMarkup

open Text

namespace Key

/-! ## The front of a token -/

/-- Four parts of a token: the blanks at its front, a sign, digits and the rest. -/
structure NumberCut where
  blanks : List Char
  sign : List Char
  digits : List Char
  rest : List Char

namespace NumberCut

def value (cut : NumberCut) : Nat := Nat.ofDigitChars 10 cut.digits 0

def number (cut : NumberCut) : Int := if cut.sign = ['-'] then -cut.value else cut.value

/-- Whether the digits denote a number that a key can have, of 63 bits and not zero. -/
def IsNumeric (cut : NumberCut) : Prop :=
  cut.digits ≠ [] ∧ 1 ≤ cut.value ∧ cut.value ≤ 9223372036854775807

instance (cut : NumberCut) : Decidable cut.IsNumeric :=
  inferInstanceAs (Decidable (_ ∧ _ ∧ _))

/-- Whether the parts make up a text, each as long as it can be. At most one sign counts. -/
structure Of (cut : NumberCut) (s : List Char) : Prop where
  spelling : cut.blanks ++ (cut.sign ++ (cut.digits ++ cut.rest)) = s
  isBlank_blanks : ∀ c ∈ cut.blanks, isBlank c = true
  not_blank : ∀ c ∈ (cut.sign ++ (cut.digits ++ cut.rest)).head?, isBlank c = false
  sign_eq : cut.sign = [] ∨ cut.sign = ['+'] ∨ cut.sign = ['-']
  not_sign : cut.sign = [] → ∀ c ∈ (cut.digits ++ cut.rest).head?, c ≠ '+' ∧ c ≠ '-'
  isDigit_digits : ∀ c ∈ cut.digits, c.isDigit = true
  not_digit : ∀ c ∈ cut.rest.head?, c.isDigit = false

end NumberCut

theorem splitSign_append {sign s : List Char} (hsign : sign = [] ∨ sign = ['+'] ∨ sign = ['-'])
    (hs : sign = [] → ∀ c ∈ s.head?, c ≠ '+' ∧ c ≠ '-') :
    splitSign (sign ++ s) = (decide (sign = ['-']), s) := by
  rcases hsign with rfl | rfl | rfl
  · have hfront := hs rfl
    rw [List.nil_append]
    unfold splitSign
    split
    · exact absurd rfl (hfront '-' rfl).2
    · exact absurd rfl (hfront '+' rfl).1
    · rfl
  · rfl
  · rfl

theorem exists_sign (s : List Char) :
    ∃ sign rest, sign ++ rest = s ∧ (sign = [] ∨ sign = ['+'] ∨ sign = ['-']) ∧
      (sign = [] → ∀ c ∈ rest.head?, c ≠ '+' ∧ c ≠ '-') := by
  match s with
  | [] => exact ⟨[], [], rfl, .inl rfl, by simp⟩
  | c :: rest =>
    by_cases hplus : c = '+'
    · exact ⟨['+'], rest, by rw [hplus]; rfl, .inr (.inl rfl), by simp⟩
    · by_cases hminus : c = '-'
      · exact ⟨['-'], rest, by rw [hminus]; rfl, .inr (.inr rfl), by simp⟩
      · exact ⟨[], c :: rest, rfl, .inl rfl, by simp [hplus, hminus]⟩

theorem head?_dropWhile {p : Char → Bool} {s : List Char} :
    ∀ c ∈ (s.dropWhile p).head?, p c = false := by
  intro c hc
  have hfront := List.head?_dropWhile_not p s
  rw [Option.mem_def.1 hc] at hfront
  exact hfront

namespace NumberCut

variable {cut other : NumberCut} {s : List Char}

theorem exists_of (s : List Char) : ∃ cut : NumberCut, cut.Of s := by
  obtain ⟨sign, rest, hrest, hsign, hfront⟩ := exists_sign (s.dropWhile isBlank)
  have hspelling : rest.takeWhile Char.isDigit ++ rest.dropWhile Char.isDigit = rest :=
    List.takeWhile_append_dropWhile
  refine ⟨⟨s.takeWhile isBlank, sign, rest.takeWhile Char.isDigit, rest.dropWhile Char.isDigit⟩,
    ⟨?_, fun _ => List.mem_takeWhile_imp, ?_, hsign, ?_, fun _ => List.mem_takeWhile_imp,
      head?_dropWhile⟩⟩
  · show s.takeWhile isBlank ++ (sign ++ (rest.takeWhile Char.isDigit ++ _)) = s
    rw [hspelling, hrest, List.takeWhile_append_dropWhile]
  · show ∀ c ∈ (sign ++ (rest.takeWhile Char.isDigit ++ _)).head?, _
    rw [hspelling, hrest]
    exact head?_dropWhile
  · show sign = [] → ∀ c ∈ (rest.takeWhile Char.isDigit ++ _).head?, _
    rw [hspelling]
    exact hfront

theorem Of.splitSign_eq (h : cut.Of s) :
    splitSign (trimStart s) = (decide (cut.sign = ['-']), cut.digits ++ cut.rest) := by
  have htrim : trimStart s = cut.sign ++ (cut.digits ++ cut.rest) := by
    rw [← h.spelling]
    exact dropWhile_front h.isBlank_blanks h.not_blank
  rw [htrim, splitSign_append h.sign_eq h.not_sign]

theorem Of.takeWhile_eq (h : cut.Of s) :
    (cut.digits ++ cut.rest).takeWhile Char.isDigit = cut.digits :=
  takeWhile_front h.isDigit_digits h.not_digit

theorem Of.unique (h : cut.Of s) (h' : other.Of s) : other = cut := by
  have hsplit := h'.splitSign_eq.symm.trans h.splitSign_eq
  have htail : other.digits ++ other.rest = cut.digits ++ cut.rest := (Prod.mk.inj hsplit).2
  have hdigits : other.digits = cut.digits := by
    rw [← h'.takeWhile_eq, htail, h.takeWhile_eq]
  have hrest : other.rest = cut.rest := by
    rw [hdigits] at htail
    exact List.append_cancel_left htail
  have hblanks : other.blanks = cut.blanks := by
    have htake := takeWhile_front h.isBlank_blanks h.not_blank
    rw [h.spelling, ← h'.spelling, takeWhile_front h'.isBlank_blanks h'.not_blank] at htake
    exact htake
  have hsign : other.sign = cut.sign := by
    have hspelling := h'.spelling.trans h.spelling.symm
    rw [hblanks, htail] at hspelling
    exact List.append_cancel_right (List.append_cancel_left hspelling)
  cases cut
  cases other
  simp_all

end NumberCut

/-! ## Words -/

def mulWord? (m n : BitVec 64) : Option (BitVec 64) :=
  if m.smulOverflow n then none else some (m * n)

def addWord? (m n : BitVec 64) : Option (BitVec 64) :=
  if m.saddOverflow n then none else some (m + n)

/-- The number with one more digit at its end, unless it overflows. -/
def pushWord? (n : BitVec 64) (digit : Char) : Option (BitVec 64) := do
  addWord? (← mulWord? n 10) (BitVec.ofNat 64 (digitValue digit))

/-- The number that digits denote, read digit by digit and given up where a step overflows. There
is no number without digits. -/
def wordOfDigits? (digits : List Char) : Option (BitVec 64) :=
  if digits.isEmpty then none else digits.foldlM pushWord? 0

/-- The number at the front of a token, read in words. The negative is taken without a check. -/
def leadingWord? (token : String) : Option (BitVec 64) :=
  let (negative, s) := splitSign (trimStart token.toList)
  (wordOfDigits? (s.takeWhile Char.isDigit)).map fun n => if negative then -n else n

theorem toInt_ofNat_word {n : Nat} (h : n ≤ maxCode) : (BitVec.ofNat 64 n).toInt = n := by
  have hmax : maxCode = 9223372036854775807 := rfl
  rw [BitVec.toInt_ofNat', Int.bmod_eq_of_le]
  · omega
  · omega

theorem mulWord?_ofNat {m n : Nat} (hm : m ≤ maxCode) (hn : n ≤ maxCode) :
    mulWord? (.ofNat 64 m) (.ofNat 64 n) =
      if m * n ≤ maxCode then some (.ofNat 64 (m * n)) else none := by
  have hmax : maxCode = 9223372036854775807 := rfl
  have hcast : (m : Int) * n = (m * n : Nat) := (Int.natCast_mul m n).symm
  have hoverflow : (BitVec.ofNat 64 m).smulOverflow (.ofNat 64 n) = decide (maxCode < m * n) := by
    rw [BitVec.smulOverflow, toInt_ofNat_word hm, toInt_ofNat_word hn, hcast, Bool.eq_iff_iff]
    simp only [Bool.or_eq_true, decide_eq_true_eq]
    omega
  rw [mulWord?, hoverflow, ← BitVec.ofNat_mul]
  by_cases hfits : m * n ≤ maxCode
  · rw [if_pos hfits, if_neg (by simpa using hfits)]
  · rw [if_neg hfits, if_pos (by simpa using hfits)]

theorem addWord?_ofNat {m n : Nat} (hm : m ≤ maxCode) (hn : n ≤ maxCode) :
    addWord? (.ofNat 64 m) (.ofNat 64 n) =
      if m + n ≤ maxCode then some (.ofNat 64 (m + n)) else none := by
  have hmax : maxCode = 9223372036854775807 := rfl
  have hoverflow : (BitVec.ofNat 64 m).saddOverflow (.ofNat 64 n) = decide (maxCode < m + n) := by
    rw [BitVec.saddOverflow, toInt_ofNat_word hm, toInt_ofNat_word hn, Bool.eq_iff_iff]
    simp only [Bool.or_eq_true, decide_eq_true_eq]
    omega
  rw [addWord?, hoverflow, ← BitVec.ofNat_add]
  by_cases hfits : m + n ≤ maxCode
  · rw [if_pos hfits, if_neg (by simpa using hfits)]
  · rw [if_neg hfits, if_pos (by simpa using hfits)]

theorem digitValue_le {c : Char} (h : c.isDigit = true) : digitValue c ≤ 9 := by
  simp only [Char.isDigit, Bool.and_eq_true, decide_eq_true_eq] at h
  have hnine : c.toNat ≤ 57 := h.2
  rw [digitValue]
  omega

theorem pushWord?_ofNat {n : Nat} {c : Char} (hn : n ≤ maxCode) (hc : c.isDigit = true) :
    pushWord? (.ofNat 64 n) c =
      if 10 * n + digitValue c ≤ maxCode then some (.ofNat 64 (10 * n + digitValue c))
      else none := by
  have hdigit := digitValue_le hc
  have hten : mulWord? (.ofNat 64 n) 10 =
      if n * 10 ≤ maxCode then some (.ofNat 64 (n * 10)) else none :=
    mulWord?_ofNat hn (by decide)
  rw [pushWord?, hten, Nat.mul_comm 10 n]
  by_cases hfits : n * 10 ≤ maxCode
  · rw [if_pos hfits]
    exact addWord?_ofNat hfits (hdigit.trans (by decide))
  · rw [if_neg hfits, if_neg (by omega)]
    rfl

theorem le_ofDigitChars (digits : List Char) (n : Nat) : n ≤ Nat.ofDigitChars 10 digits n := by
  rw [Nat.ofDigitChars_eq_ofDigitChars_zero]
  exact (Nat.le_mul_of_pos_left n (Nat.pow_pos (by decide))).trans (Nat.le_add_right _ _)

/-- Reading in words is exact as long as the number fits, and else it is given up. -/
theorem foldlM_pushWord? {digits : List Char} (hdigits : ∀ c ∈ digits, c.isDigit = true) {n : Nat}
    (hn : n ≤ maxCode) :
    digits.foldlM pushWord? (BitVec.ofNat 64 n) =
      if Nat.ofDigitChars 10 digits n ≤ maxCode then
        some (.ofNat 64 (Nat.ofDigitChars 10 digits n))
      else none := by
  induction digits generalizing n with
  | nil => simp [hn]
  | cons c digits ih =>
    obtain ⟨hc, hdigits⟩ := List.forall_mem_cons.1 hdigits
    have hcons : Nat.ofDigitChars 10 (c :: digits) n =
        Nat.ofDigitChars 10 digits (10 * n + digitValue c) := Nat.ofDigitChars_cons
    rw [List.foldlM_cons, pushWord?_ofNat hn hc, hcons]
    by_cases hfits : 10 * n + digitValue c ≤ maxCode
    · rw [if_pos hfits]
      exact ih hdigits hfits
    · have hle := le_ofDigitChars digits (10 * n + digitValue c)
      rw [if_neg hfits, if_neg (by omega)]
      rfl

theorem wordOfDigits?_eq {digits : List Char} (hdigits : ∀ c ∈ digits, c.isDigit = true) :
    wordOfDigits? digits =
      if digits = [] ∨ maxCode < Nat.ofDigitChars 10 digits 0 then none
      else some (.ofNat 64 (Nat.ofDigitChars 10 digits 0)) := by
  have hread := foldlM_pushWord? hdigits (Nat.zero_le maxCode)
  rw [wordOfDigits?]
  by_cases hempty : digits = []
  · rw [hempty]
    rfl
  · rw [if_neg (by simpa using hempty), show (0 : BitVec 64) = .ofNat 64 0 from rfl, hread]
    by_cases hfits : Nat.ofDigitChars 10 digits 0 ≤ maxCode
    · rw [if_pos hfits, if_neg (by simp [hempty, hfits])]
    · rw [if_neg hfits, if_pos (.inr (by omega))]

theorem negOverflow_of_wordOfDigits? {digits : List Char} (hdigits : ∀ c ∈ digits, c.isDigit = true)
    {n : BitVec 64} (h : wordOfDigits? digits = some n) :
    n.toInt = Nat.ofDigitChars 10 digits 0 ∧ n.negOverflow = false := by
  rw [wordOfDigits?_eq hdigits] at h
  split at h
  · cases h
  · rename_i hfits
    cases h
    have htoInt := toInt_ofNat_word (n := Nat.ofDigitChars 10 digits 0) (by omega)
    refine ⟨htoInt, ?_⟩
    rw [BitVec.negOverflow, htoInt, beq_eq_false_iff_ne]
    omega

namespace NumberCut

variable {cut : NumberCut} {token : String}

theorem Of.leadingNumber?_eq (h : cut.Of token.toList) :
    leadingNumber? token =
      if cut.digits = [] ∨ maxCode < cut.value then none else some cut.number := by
  have hvalue : decimalValue cut.digits = cut.value := rfl
  rw [leadingNumber?, h.splitSign_eq]
  dsimp only
  rw [h.takeWhile_eq, hvalue, number]
  simp

theorem Of.toInt_leadingWord? (h : cut.Of token.toList) :
    (leadingWord? token).map BitVec.toInt = leadingNumber? token := by
  have hread : wordOfDigits? cut.digits =
      if cut.digits = [] ∨ maxCode < cut.value then none else some (.ofNat 64 cut.value) :=
    wordOfDigits?_eq h.isDigit_digits
  rw [h.leadingNumber?_eq, leadingWord?, h.splitSign_eq]
  dsimp only
  rw [h.takeWhile_eq, Option.map_map, hread]
  by_cases hfits : cut.digits = [] ∨ maxCode < cut.value
  · rw [if_pos hfits, if_pos hfits]
    rfl
  · rw [if_neg hfits] at hread
    obtain ⟨htoInt, hneg⟩ : (BitVec.ofNat 64 cut.value).toInt = cut.value ∧
        (BitVec.ofNat 64 cut.value).negOverflow = false :=
      negOverflow_of_wordOfDigits? h.isDigit_digits hread
    rw [if_neg hfits, if_neg hfits, Option.map_some, Function.comp_apply, number]
    by_cases hsign : cut.sign = ['-']
    · have hminus := BitVec.toInt_neg_of_not_negOverflow (ne_true_of_eq_false hneg)
      rw [if_pos hsign, hsign, if_pos (by rfl), hminus, htoInt]
    · rw [if_neg hsign, if_neg (by simpa using hsign), htoInt]

end NumberCut

/-! ## Tokens -/

def knownNames : List (String × Key) :=
  [("esc", .known 27 []), ("tab", .known 9 []), ("enter", .known 13 []), ("space", .known 32 []),
    ("up", .known 38 []), ("left", .known 37 []), ("right", .known 39 []), ("down", .known 40 []),
    ("delete", .known 8 [46])]

theorem named?_eq_some_iff {token : String} {key : Key} :
    named? token = some key ↔ (token, key) ∈ knownNames := by
  unfold named?
  constructor
  · split <;> intro h <;> cases h <;> simp [knownNames]
  · intro h
    simp only [knownNames, List.mem_cons, Prod.mk.injEq, List.not_mem_nil, or_false] at h
    rcases h with h | h | h | h | h | h | h | h | h <;> obtain ⟨rfl, rfl⟩ := h <;> rfl

/-- What a token stands for is told by its digits, if they denote a number that a key can have, and
else by its name. -/
theorem ofToken_eq {cut : NumberCut} {token : String} (h : cut.Of token.toList) :
    ofToken token =
      if cut.IsNumeric then .known cut.number [] else (named? token).getD (.custom token) := by
  have hmax : maxCode = 9223372036854775807 := rfl
  have hzero : cut.number = 0 ↔ cut.value = 0 := by
    rw [NumberCut.number]
    split <;> omega
  rw [ofToken, h.leadingNumber?_eq]
  by_cases hnone : cut.digits = [] ∨ maxCode < cut.value
  · have hnot : ¬ cut.IsNumeric := fun hnumeric => hnone.elim hnumeric.1 fun hlt => by
      have := hnumeric.2.2
      omega
    rw [if_pos hnone, if_neg hnot]
  · rw [if_neg hnone]
    dsimp only
    rw [not_or, Nat.not_lt] at hnone
    by_cases hvalue : cut.value = 0
    · rw [if_pos (hzero.2 hvalue), if_neg fun hnumeric => by
        have := hnumeric.2.1
        omega]
    · rw [if_neg fun hnumber => hvalue (hzero.1 hnumber), if_pos ⟨hnone.1, by omega, hnone.2⟩]

/-- A token is cut in one way. Where its digits denote a number from 1 to the greatest word, the
token stands for this number with its sign, and the code of the key is compared with the decimal
of it. Every other token stands for what its name is known for, or else for a name that is looked
up, written as a literal. No step of the reading wraps around: in words of 64 bits it gives the same
number, or none if the digits denote none or one that does not fit. -/
theorem ofToken_of_digits (token : String) :
    ∃ cut : NumberCut, cut.Of token.toList ∧
      (∀ other : NumberCut, other.Of token.toList → other = cut) ∧
      (cut.IsNumeric →
        ofToken token = .known cut.number [] ∧
        (ofToken token).operands.map Operand.source = [toString cut.number] ∧
        readInteger? (toString cut.number).toList = some (cut.number, [])) ∧
      (¬ cut.IsNumeric →
        (∀ key, (token, key) ∈ knownNames → ofToken token = key) ∧
        ((∀ key, (token, key) ∉ knownNames) →
          ofToken token = .custom token ∧
          ∃ literal, (ofToken token).operands.map Operand.source = ["_k(" ++ literal ++ ")"] ∧
            scriptRules.literal? literal.toList = some (token.toList, []))) ∧
      (leadingWord? token).map BitVec.toInt = leadingNumber? token ∧
      (wordOfDigits? cut.digits = none ↔ cut.digits = [] ∨ 9223372036854775807 < cut.value) ∧
      ∀ n, wordOfDigits? cut.digits = some n → n.toInt = cut.value ∧ n.negOverflow = false := by
  obtain ⟨cut, hcut⟩ := NumberCut.exists_of token.toList
  have htoken := ofToken_eq hcut
  have hword := wordOfDigits?_eq hcut.isDigit_digits
  refine ⟨cut, hcut, fun other => hcut.unique, fun hnumeric => ?_, fun hnumeric => ⟨?_, ?_⟩,
    hcut.toInt_leadingWord?, ?_, fun n => negOverflow_of_wordOfDigits? hcut.isDigit_digits⟩
  · rw [if_pos hnumeric] at htoken
    have hread := readInteger?_toString cut.number (k := []) (by simp)
    rw [List.append_nil] at hread
    refine ⟨htoken, ?_, hread⟩
    rw [htoken]
    rfl
  · intro key hkey
    rw [htoken, if_neg hnumeric, named?_eq_some_iff.2 hkey, Option.getD_some]
  · intro hname
    have hnone : named? token = none := by
      rw [Option.eq_none_iff_forall_ne_some]
      exact fun key hkey => hname key (named?_eq_some_iff.1 hkey)
    rw [if_neg hnumeric, hnone, Option.getD_none] at htoken
    have hquote : (quote token).toList = quoted token.toList := String.toList_ofList
    have hread := scriptRules_includes.literal?_quoted token.toList []
    rw [List.append_nil, ← hquote] at hread
    refine ⟨htoken, quote token, ?_, hread⟩
    rw [htoken]
    rfl
  · rw [hword]
    split
    · rename_i hnone
      exact iff_of_true rfl hnone
    · rename_i hsome
      exact iff_of_false (by simp) hsome

theorem ofToken_of_digits_limit :
    (ofToken "\u3000-0009223372036854775807px" = .known (-9223372036854775807) [] ∧
      (ofToken "\u3000-0009223372036854775807px").operands.map Operand.source =
        ["-9223372036854775807"]) ∧
    ofToken "-9223372036854775808" = .custom "-9223372036854775808" := by
  have hfits : NumberCut.Of ⟨['\u3000'], ['-'], "0009223372036854775807".toList, "px".toList⟩
      "\u3000-0009223372036854775807px".toList :=
    ⟨by decide, List.all_eq_true.1 (by decide), by rintro c ⟨⟩; decide, by decide, by decide,
      List.all_eq_true.1 (by decide), by rintro c ⟨⟩; decide⟩
  have hlarge : NumberCut.Of ⟨[], ['-'], "9223372036854775808".toList, []⟩
      "-9223372036854775808".toList :=
    ⟨by decide, List.all_eq_true.1 (by decide), by rintro c ⟨⟩; decide, by decide, by decide,
      List.all_eq_true.1 (by decide), by rintro c ⟨⟩⟩
  obtain ⟨cut, -, hunique, hnumeric, -⟩ := ofToken_of_digits "\u3000-0009223372036854775807px"
  obtain rfl := hunique _ hfits
  obtain ⟨htoken, hoperands, -⟩ := hnumeric (by decide)
  obtain ⟨cut, -, hunique', -, hname, -⟩ := ofToken_of_digits "-9223372036854775808"
  obtain rfl := hunique' _ hlarge
  obtain ⟨-, hcustom⟩ := hname (by decide)
  refine ⟨⟨htoken.trans (by decide), hoperands.trans (by decide)⟩, (hcustom ?_).1⟩
  simp [knownNames]

end Key

end EventMarkup
