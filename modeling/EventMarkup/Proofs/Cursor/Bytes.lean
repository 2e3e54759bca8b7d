import EventMarkup.Proofs.Faults
import EventMarkup.Proofs.Script.PathCut

/-!
# Places in the bytes of a text

A text is read by its bytes, and each byte is looked at as the character of its number. A character
below 128 is its own byte, and the bytes of any other character are 128 or more. So a property that
does not tell such characters apart (`Bytewise`) holds of the bytes of a character if it holds of
the character, and what is done at the front of the bytes is what is done at the front of the text.

A place is a number of bytes. `At t i s` says that the rest `s` of the text `t` begins at the place
`i`. These places are the boundaries (`isBoundary_encode_iff`), and at any other place stands a byte
that continues a character (`at_or_inside`).
-/

namespace EventMarkup.Cursor

open Markup Text

/-! ## Bytes as characters -/

def encode (s : List Char) : List UInt8 := s.flatMap String.utf8EncodeChar

def bytes (source : String) : List UInt8 := source.toByteArray.data.toList

theorem bytes_eq_encode (source : String) : bytes source = encode source.toList := by
  rw [bytes, ← String.utf8Encode_toList, List.utf8Encode]
  simp [encode]

theorem encode_append (s t : List Char) : encode (s ++ t) = encode s ++ encode t :=
  List.flatMap_append

theorem encode_cons (c : Char) (s : List Char) :
    encode (c :: s) = String.utf8EncodeChar c ++ encode s := List.flatMap_cons

theorem length_encode (s : List Char) : (encode s).length = byteLength s := by
  induction s with
  | nil => rfl
  | cons c s ih =>
    rw [encode_cons, List.length_append, String.length_utf8EncodeChar, ih, byteLength]

def isContinuation (x : UInt8) : Bool := 0x80 ≤ x.toNat && x.toNat < 0xC0

theorem toNat_ofNat_of_lt {n : Nat} (h : n < 256) : (UInt8.ofNat n).toNat = n :=
  Nat.mod_eq_of_lt h

theorem exists_utf8EncodeChar_eq_cons {c : Char} (h : 128 ≤ c.toNat) :
    ∃ x xs, String.utf8EncodeChar c = x :: xs ∧ 0xC0 ≤ x.toNat ∧
      ∀ y ∈ xs, isContinuation y = true := by
  have hfirst : ∀ n, 0xC0 ≤ n → n < 256 → 0xC0 ≤ (UInt8.ofNat n).toNat :=
    fun n hn hlt => (toNat_ofNat_of_lt hlt).symm ▸ hn
  have hrest : ∀ n, isContinuation (UInt8.ofNat (n % 0x40 + 0x80)) = true := by
    intro n
    rw [isContinuation, toNat_ofNat_of_lt (by omega)]
    simp
    omega
  have hwide : ¬ c.val.toNat ≤ 0x7f := not_le.2 h
  unfold String.utf8EncodeChar
  dsimp only
  rw [if_neg hwide]
  -- Two, three or four bytes.
  split
  · exact ⟨_, _, rfl, hfirst _ (by omega) (by omega), List.forall_mem_singleton.2 (hrest _)⟩
  split
  · exact ⟨_, _, rfl, hfirst _ (by omega) (by omega),
      List.forall_mem_cons.2 ⟨hrest _, List.forall_mem_singleton.2 (hrest _)⟩⟩
  · exact ⟨_, _, rfl, hfirst _ (by omega) (by omega), List.forall_mem_cons.2
      ⟨hrest _, List.forall_mem_cons.2 ⟨hrest _, List.forall_mem_singleton.2 (hrest _)⟩⟩⟩

/-- How the bytes of a character look. -/
def seenChar (c : Char) : List Char := (String.utf8EncodeChar c).map Char.ofUInt8

/-- How the bytes of a text look. -/
def seen (s : List Char) : List Char := (encode s).map Char.ofUInt8

theorem seen_cons (c : Char) (s : List Char) : seen (c :: s) = seenChar c ++ seen s := by
  rw [seen, encode_cons, List.map_append]
  rfl

theorem length_seen (s : List Char) : (seen s).length = byteLength s := by
  rw [seen, List.length_map, length_encode]

theorem seenChar_of_lt {c : Char} (h : c.toNat < 128) : seenChar c = [c] := by
  have hle : c.val.toNat ≤ 0x7f := Nat.le_of_lt_succ h
  rw [seenChar, String.utf8EncodeChar, if_pos hle, List.map_singleton]
  refine congrArg ([·]) (Char.toNat_inj.1 ?_)
  exact Nat.mod_eq_of_lt (by omega : c.val.toNat < 256)

theorem utf8Size_of_lt {c : Char} (h : c.toNat < 128) : c.utf8Size = 1 := by
  rw [← String.length_utf8EncodeChar, ← List.length_map Char.ofUInt8, ← seenChar, seenChar_of_lt h,
    List.length_singleton]

theorem seen_cons_of_lt {c : Char} (h : c.toNat < 128) (s : List Char) :
    seen (c :: s) = c :: seen s := by
  rw [seen_cons, seenChar_of_lt h, List.singleton_append]

theorem seenChar_ne_nil (c : Char) : seenChar c ≠ [] := by simp [seenChar]

theorem le_of_mem_seenChar {c : Char} (h : 128 ≤ c.toNat) : ∀ d ∈ seenChar c, 128 ≤ d.toNat := by
  obtain ⟨x, xs, hbytes, hx, hxs⟩ := exists_utf8EncodeChar_eq_cons h
  intro d hd
  rw [seenChar, hbytes, List.map_cons] at hd
  rcases List.mem_cons.1 hd with rfl | hd
  · change 128 ≤ x.toNat
    omega
  · obtain ⟨y, hy, rfl⟩ := List.mem_map.1 hd
    have hy := hxs y hy
    simp only [isContinuation, Bool.and_eq_true, decide_eq_true_eq] at hy
    exact hy.1

/-! ## Properties of bytes -/

/-- Whether a property holds of the bytes of a character as of the character. -/
def Bytewise (p : Char → Bool) : Prop := ∀ c, ∀ d ∈ seenChar c, p d = p c

section Bytewise

variable {p : Char → Bool}

theorem bytewise_of_wide (h : ∀ c d : Char, 128 ≤ c.toNat → 128 ≤ d.toNat → p c = p d) :
    Bytewise p := by
  intro c d hd
  by_cases hc : c.toNat < 128
  · rw [seenChar_of_lt hc, List.mem_singleton] at hd
    rw [hd]
  · exact h d c (le_of_mem_seenChar (by omega) d hd) (by omega)

/-- A property of some characters below 128. -/
theorem bytewise_of_lt (h : ∀ c : Char, p c = true → c.toNat < 128) : Bytewise p := by
  have hfalse : ∀ c : Char, 128 ≤ c.toNat → p c = false := by
    intro c hc
    rw [Bool.eq_false_iff]
    intro hp
    have hlt := h c hp
    omega
  exact bytewise_of_wide fun c d hc hd => (hfalse c hc).trans (hfalse d hd).symm

theorem bytewise_not (h : Bytewise p) : Bytewise fun c => !p c :=
  fun c d hd => congrArg not (h c d hd)

theorem bytewise_eq {a : Char} (ha : a.toNat < 128) : Bytewise (· == a) :=
  bytewise_of_lt fun c hc => by rwa [eq_of_beq hc]

theorem eq_iff_of_mem_seenChar {a c d : Char} (ha : a.toNat < 128) (hd : d ∈ seenChar c) :
    d = a ↔ c = a := by
  have hsame : (d == a) = (c == a) := bytewise_eq ha c d hd
  rw [← beq_iff_eq, hsame, beq_iff_eq]

theorem takeWhile_seen (hp : Bytewise p) (s : List Char) :
    (seen s).takeWhile p = seen (s.takeWhile p) := by
  induction s with
  | nil => rfl
  | cons c s ih =>
    rw [seen_cons]
    by_cases hc : p c = true
    · rw [List.takeWhile_append_of_pos fun d hd => (hp c d hd).trans hc, ih,
        List.takeWhile_cons_of_pos hc, seen_cons]
    · obtain ⟨d, ds, hseen⟩ := List.exists_cons_of_ne_nil (seenChar_ne_nil c)
      have hd : ¬ p d = true := by rwa [hp c d (hseen ▸ List.mem_cons_self)]
      rw [hseen, List.cons_append, List.takeWhile_cons_of_neg hd, List.takeWhile_cons_of_neg hc]
      rfl

theorem exists_seen_cons (c : Char) (s : List Char) :
    ∃ d ds, seen (c :: s) = d :: ds ∧ d ∈ seenChar c := by
  obtain ⟨d, ds, hseen⟩ := List.exists_cons_of_ne_nil (seenChar_ne_nil c)
  exact ⟨d, ds ++ seen s, by rw [seen_cons, hseen, List.cons_append],
    hseen ▸ List.mem_cons_self⟩

end Bytewise

theorem lt_of_isTagBlank {c : Char} (h : isTagBlank c = true) : c.toNat < 128 := by
  simp only [isTagBlank, Bool.or_eq_true, beq_iff_eq] at h
  rcases h with (((rfl | rfl) | rfl) | rfl) | rfl <;> decide

theorem bytewise_isTagBlank : Bytewise isTagBlank := bytewise_of_lt fun _ hc => lt_of_isTagBlank hc

theorem lt_of_isAlphanum {c : Char} (h : c.isAlphanum = true) : c.toNat < 128 := by
  simp only [Char.isAlphanum, Bool.or_eq_true, Script.isAlpha_iff, Script.isDigit_iff] at h
  omega

theorem bytewise_isTagChar : Bytewise isTagChar := by
  refine bytewise_of_lt fun c hc => ?_
  simp only [isTagChar, Bool.or_eq_true, beq_iff_eq] at hc
  rcases hc with (hc | rfl) | rfl
  · exact lt_of_isAlphanum hc
  · decide
  · decide

theorem lt_of_isAttributeChar {c : Char} (h : isAttributeChar c = true) : c.toNat < 128 := by
  simp only [isAttributeChar, Bool.or_eq_true, beq_iff_eq] at h
  rcases h with ((((((h | rfl) | rfl) | rfl) | rfl) | rfl) | rfl) | rfl
  · exact lt_of_isAlphanum h
  all_goals decide

theorem bytewise_isAttributeChar : Bytewise isAttributeChar :=
  bytewise_of_lt fun _ hc => lt_of_isAttributeChar hc

theorem bytewise_isBareChar : Bytewise isBareChar := by
  refine bytewise_of_wide fun c d hc hd => ?_
  have hbare : ∀ e : Char, 128 ≤ e.toNat → isBareChar e = true := by
    intro e he
    rw [← Bool.not_eq_false]
    intro hfalse
    simp only [isBareChar, isTagBlank, Bool.and_eq_false_iff, Bool.not_eq_false',
      Bool.or_eq_true, beq_iff_eq, bne_eq_false_iff_eq] at hfalse
    rcases hfalse with ((((rfl | rfl) | rfl) | rfl) | rfl) | rfl <;> exact absurd he (by decide)
  rw [hbare c hc, hbare d hd]

/-! ## The front of the bytes -/

theorem dropFront?_seen {front : List Char} (hfront : ∀ a ∈ front, a.toNat < 128) (s : List Char) :
    dropFront? front (seen s) = (dropFront? front s).map seen := by
  induction front generalizing s with
  | nil => rfl
  | cons a front ih =>
    obtain ⟨ha, hfront⟩ := List.forall_mem_cons.1 hfront
    cases s with
    | nil => rfl
    | cons c s =>
      by_cases hc : a = c
      · subst hc
        rw [seen_cons_of_lt ha, dropFront?, dropFront?, if_pos rfl, if_pos rfl, ih hfront]
      · obtain ⟨d, ds, hseen, hd⟩ := exists_seen_cons c s
        have hne : a ≠ d := fun heq => hc ((eq_iff_of_mem_seenChar ha hd).1 heq.symm).symm
        rw [hseen, dropFront?, dropFront?, if_neg hne, if_neg hc]
        rfl

theorem isTagStart_of_ne {c : Char} (hc : c ≠ '<') (s : List Char) :
    isTagStart (c :: s) = false := by
  unfold isTagStart
  split
  · rename_i heq
    exact absurd (List.cons.inj heq).1 hc
  · rfl

theorem isTagStart_seen (s : List Char) : isTagStart (seen s) = isTagStart s := by
  have hsecond : Bytewise fun c => c.isAlpha || c == '/' || c == '!' := by
    refine bytewise_of_lt fun c hc => ?_
    simp only [Bool.or_eq_true, Script.isAlpha_iff, beq_iff_eq] at hc
    rcases hc with (hc | rfl) | rfl
    · omega
    · decide
    · decide
  cases s with
  | nil => rfl
  | cons c s =>
    by_cases hc : c = '<'
    · subst hc
      rw [seen_cons_of_lt (by decide)]
      cases s with
      | nil => rfl
      | cons e s =>
        obtain ⟨d, ds, hseen, hd⟩ := exists_seen_cons e s
        rw [hseen]
        exact hsecond e d hd
    · obtain ⟨d, ds, hseen, hd⟩ := exists_seen_cons c s
      have hne : d ≠ '<' := mt (eq_iff_of_mem_seenChar (by decide) hd).1 hc
      rw [hseen, isTagStart_of_ne hne, isTagStart_of_ne hc]

/-! ## Places -/

/-- Whether the rest `s` of a text begins at the place `i`. -/
def At (t : List Char) (i : Nat) (s : List Char) : Prop :=
  ∃ front, front ++ s = t ∧ byteLength front = i

section At

variable {t s u : List Char} {i : Nat}

theorem at_start (t : List Char) : At t 0 t := ⟨[], rfl, rfl⟩

theorem At.add (h : At t i (u ++ s)) : At t (i + byteLength u) s := by
  obtain ⟨front, rfl, rfl⟩ := h
  exact ⟨front ++ u, List.append_assoc _ _ _, byteLength_append _ _⟩

theorem At.length (h : At t i s) : i + byteLength s = (encode t).length := by
  obtain ⟨front, rfl, rfl⟩ := h
  rw [length_encode, byteLength_append]

theorem At.drop (h : At t i s) : (encode t).drop i = encode s := by
  obtain ⟨front, rfl, rfl⟩ := h
  rw [encode_append, ← length_encode, List.drop_left]

/-- At any place begins a rest of the text, or else stands a byte that continues a character. -/
theorem at_or_inside (hi : i ≤ (encode t).length) :
    (∃ s, At t i s) ∨ ∃ x more, (encode t).drop i = x :: more ∧ isContinuation x = true := by
  induction t generalizing i with
  | nil =>
    obtain rfl : i = 0 := Nat.le_zero.1 hi
    exact .inl ⟨[], at_start []⟩
  | cons c t ih =>
    rw [encode_cons] at hi ⊢
    by_cases hzero : i = 0
    · subst hzero
      exact .inl ⟨_, at_start _⟩
    by_cases hbehind : (String.utf8EncodeChar c).length ≤ i
    · obtain ⟨k, rfl⟩ := Nat.exists_eq_add_of_le hbehind
      rw [List.drop_length_add_append]
      rw [List.length_append] at hi
      rcases ih (by omega : k ≤ (encode t).length) with ⟨s, front, rfl, rfl⟩ | hinside
      · refine .inl ⟨s, c :: front, rfl, ?_⟩
        rw [byteLength, String.length_utf8EncodeChar]
      · exact .inr hinside
    · have hwide : 128 ≤ c.toNat := by
        by_contra hlt
        rw [String.length_utf8EncodeChar, utf8Size_of_lt (by omega)] at hbehind
        omega
      obtain ⟨x, xs, hbytes, -, hxs⟩ := exists_utf8EncodeChar_eq_cons hwide
      obtain ⟨k, rfl⟩ := Nat.exists_eq_succ_of_ne_zero hzero
      rw [hbytes, List.length_cons] at hbehind
      have hk : k < xs.length := by omega
      refine .inr ⟨xs[k], xs.drop (k + 1) ++ encode t, ?_, hxs _ (List.getElem_mem hk)⟩
      rw [hbytes, List.cons_append, List.drop_succ_cons, List.drop_append_of_le_length hk.le,
        List.drop_eq_getElem_cons hk, List.cons_append]

end At

/-- Whether a place is a boundary: an end of the bytes, or in front of a byte that does not continue
a character. -/
def isBoundary (b : List UInt8) (i : Nat) : Bool :=
  i == 0 || i == b.length || b[i]?.any fun x => !isContinuation x

theorem exists_utf8EncodeChar_eq_first (c : Char) :
    ∃ x xs, String.utf8EncodeChar c = x :: xs ∧ isContinuation x = false := by
  by_cases hc : c.toNat < 128
  · obtain ⟨x, xs, hbytes⟩ := List.exists_cons_of_ne_nil (String.utf8EncodeChar_ne_nil (c := c))
    have hseen := seenChar_of_lt hc
    rw [seenChar, hbytes, List.map_cons] at hseen
    have hx : (Char.ofUInt8 x).toNat < 128 := (List.cons.inj hseen).1 ▸ hc
    change x.toNat < 128 at hx
    exact ⟨x, xs, hbytes, by simp [isContinuation]; omega⟩
  · obtain ⟨x, xs, hbytes, hx, -⟩ := exists_utf8EncodeChar_eq_cons (c := c) (by omega)
    exact ⟨x, xs, hbytes, by simp [isContinuation]; omega⟩

theorem isBoundary_encode_iff {t : List Char} {i : Nat} :
    isBoundary (encode t) i = true ↔ ∃ s, At t i s := by
  constructor
  · intro h
    have hle : i ≤ (encode t).length := by
      by_contra hlt
      have hnone : (encode t)[i]? = none := List.getElem?_eq_none (by omega)
      simp [isBoundary, hnone] at h
      omega
    rcases at_or_inside hle with hat | ⟨x, more, hdrop, hx⟩
    · exact hat
    · have hget : (encode t)[i]? = some x := by rw [← List.head?_drop, hdrop, List.head?_cons]
      simp only [isBoundary, hget, Option.any_some, hx, Bool.not_true, Bool.or_false,
        Bool.or_eq_true, beq_iff_eq] at h
      rcases h with rfl | rfl
      · exact ⟨t, at_start t⟩
      · simp at hdrop
  · rintro ⟨s, h⟩
    cases s with
    | nil =>
      have hlength := h.length
      simp [isBoundary, ← hlength, byteLength]
    | cons c s =>
      obtain ⟨x, xs, hbytes, hx⟩ := exists_utf8EncodeChar_eq_first c
      have hget : (encode t)[i]? = some x := by
        rw [← List.head?_drop, h.drop, encode_cons, hbytes]
        rfl
      simp [isBoundary, hget, hx]

end EventMarkup.Cursor
