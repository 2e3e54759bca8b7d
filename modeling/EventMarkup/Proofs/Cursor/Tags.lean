import EventMarkup.Proofs.Cursor.Reader

/-!
# Tags by places

Where the rest of a text begins, the reader by places does what the reader of the text does with
this rest (`Follows`): it gives the same, and what is left begins at the place that it gives, or it
stops with the same fault. So each part that it takes has its ends at boundaries.

Behind the name of a tag the place may be inside of a character. A byte there is no blank and no
part of a name, so a pass of the loop goes on by one byte, until the next character begins
(`loop_other`).
-/

namespace EventMarkup.Cursor

open Markup Text

variable {t s u : List Char} {i : Nat}

/-! ## Parts at places -/

theorem At.behind_eq (h : At t i s) : behind (encode t) i = seen s := by
  rw [behind, h.drop]
  rfl

theorem byteLength_pos {s : List Char} (h : s ≠ []) : 0 < byteLength s := by
  cases s with
  | nil => exact absurd rfl h
  | cons c s =>
    have hc := c.utf8Size_pos
    rw [byteLength]
    omega

theorem At.lt_iff (h : At t i s) : i < (encode t).length ↔ s ≠ [] := by
  have hlength := h.length
  constructor
  · rintro hlt rfl
    rw [byteLength] at hlength
    omega
  · intro hne
    have hpos := byteLength_pos hne
    omega

theorem At.le (h : At t i s) : i ≤ (encode t).length := h.length ▸ Nat.le_add_right _ _

theorem At.isBoundary_eq (h : At t i s) : isBoundary (encode t) i = true :=
  isBoundary_encode_iff.2 ⟨s, h⟩

theorem fromUTF8?_encode (u : List Char) :
    String.fromUTF8? (encode u).toByteArray = some (String.ofList u) := by
  have hvalid : (encode u).toByteArray.IsValidUTF8 := ByteArray.isValidUTF8_utf8Encode (l := u)
  rw [String.fromUTF8?, dif_pos hvalid]
  rfl

theorem At.slice_eq (h : At t i (u ++ s)) :
    slice (encode t) i (i + byteLength u) = .ok (String.ofList u) := by
  have htake : ((encode t).drop i).take (i + byteLength u - i) = encode u := by
    rw [h.drop, encode_append, Nat.add_sub_cancel_left, ← length_encode, List.take_left]
  rw [slice, if_pos ⟨Nat.le_add_right _ _, h.isBoundary_eq, h.add.isBoundary_eq⟩, htake,
    fromUTF8?_encode]

theorem At.slice_rest (h : At t i s) :
    slice (encode t) i (encode t).length = .ok (String.ofList s) := by
  rw [← h.length]
  exact At.slice_eq (s := []) (by rwa [List.append_nil])

section pass

variable {p : Char → Bool}

theorem At.pass_eq (h : At t i s) (hp : Bytewise p) :
    pass p (encode t) i = i + byteLength (s.takeWhile p) := by
  rw [pass, h.behind_eq, takeWhile_seen hp, length_seen]

theorem At.at_pass (h : At t i s) (hp : Bytewise p) :
    At t (pass p (encode t) i) (s.dropWhile p) := by
  rw [h.pass_eq hp]
  exact At.add (by rwa [List.takeWhile_append_dropWhile])

theorem At.slice_pass (h : At t i s) (hp : Bytewise p) :
    slice (encode t) i (pass p (encode t) i) =
      .ok (String.ofList (s.takeWhile p)) := by
  rw [h.pass_eq hp]
  exact At.slice_eq (s := s.dropWhile p) (by rwa [List.takeWhile_append_dropWhile])

end pass

theorem At.at_skipBlanks (h : At t i s) : At t (pass isTagBlank (encode t) i) (skipBlanks s) :=
  h.at_pass bytewise_isTagBlank

theorem At.at_first {rest : List Char} (h : At t i s) (hs : skipBlanks s = rest) :
    At t (pass isTagBlank (encode t) i) rest := hs ▸ h.at_skipBlanks

theorem At.tail {c : Char} (h : At t i (c :: s)) (hc : c.toNat < 128) : At t (i + 1) s := by
  rw [← utf8Size_of_lt hc]
  exact At.add (u := [c]) h

theorem At.lt {j : Nat} {rest : List Char} (h : At t i s) (h' : At t j rest) (hsuffix : rest <:+ s)
    (hlt : rest.length < s.length) : i < j := by
  obtain ⟨u, rfl⟩ := hsuffix
  have hne : u ≠ [] := by
    rintro rfl
    exact absurd hlt (by simp)
  have hpos := byteLength_pos hne
  have hi := h.length
  have hj := h'.length
  rw [byteLength_append] at hi
  omega

theorem At.head?_nil (h : At t i []) : (behind (encode t) i).head? = none := by
  rw [h.behind_eq]
  rfl

theorem At.exists_head? {c : Char} (h : At t i (c :: s)) :
    ∃ d, (behind (encode t) i).head? = some d ∧ d ∈ seenChar c := by
  obtain ⟨d, ds, hseen, hd⟩ := exists_seen_cons c s
  exact ⟨d, by rw [h.behind_eq, hseen, List.head?_cons], hd⟩

theorem At.head?_eq_iff (h : At t i s) {a : Char} (ha : a.toNat < 128) :
    (behind (encode t) i).head? = some a ↔ s.head? = some a := by
  cases s with
  | nil => simp [h.head?_nil]
  | cons c s =>
    obtain ⟨d, hhead, hd⟩ := h.exists_head?
    rw [hhead, List.head?_cons, Option.some_inj, Option.some_inj, eq_iff_of_mem_seenChar ha hd]

theorem At.exists_head?_wide {c : Char} (h : At t i (c :: s)) (hc : 128 ≤ c.toNat) {k : Nat}
    (hik : i ≤ k) (hk : k < i + c.utf8Size) :
    ∃ d, (behind (encode t) k).head? = some d ∧ 128 ≤ d.toNat := by
  have hlength : (seenChar c).length = c.utf8Size := by
    rw [seenChar, List.length_map, String.length_utf8EncodeChar]
  have hlt : k - i < (seenChar c).length := by omega
  have hdrop : behind (encode t) k = (seen (c :: s)).drop (k - i) := by
    rw [← h.behind_eq, behind, behind, ← List.map_drop, List.drop_drop,
      Nat.add_sub_cancel' hik]
  refine ⟨(seenChar c)[k - i], ?_, le_of_mem_seenChar hc _ (List.getElem_mem hlt)⟩
  rw [hdrop, List.head?_drop, seen_cons, List.getElem?_append_left hlt,
    List.getElem?_eq_getElem hlt]

theorem At.at_passEnd (h : At t i s) : At t (passEnd (encode t) i) (skipEnd s) := by
  unfold passEnd
  by_cases hend : s.head? = some '>'
  · rw [if_pos ((h.head?_eq_iff (by decide)).2 hend)]
    obtain ⟨rest, rfl⟩ := List.head?_eq_some_iff.1 hend
    exact h.tail (by decide)
  · rw [if_neg (mt (h.head?_eq_iff (by decide)).1 hend)]
    have hsame : skipEnd s = s := by
      unfold skipEnd
      split
      · exact absurd rfl hend
      · rfl
    rwa [hsame]

/-- Whether reading by places comes to what reading the text comes to: the same is given, and what is
left begins at the place, or the fault is the same. -/
inductive Follows (t : List Char) {α : Type} :
    Except Stop (α × Nat) → Except Fault (α × List Char) → Prop where
  | ok {a : α} {j : Nat} {rest : List Char} : At t j rest → Follows t (.ok (a, j)) (.ok (a, rest))
  | error (fault : Fault) : Follows t (.error (.fault (.ofFault t fault))) (.error fault)

section Follows

variable {α : Type} {x : Except Stop (α × Nat)}

theorem Follows.eq_ok {a : α} {rest : List Char} (h : Follows t x (.ok (a, rest))) :
    ∃ j, x = .ok (a, j) ∧ At t j rest := by
  cases h with
  | ok hat => exact ⟨_, rfl, hat⟩

theorem Follows.eq_error {fault : Fault} (h : Follows t x (.error fault)) :
    x = .error (.fault (.ofFault t fault)) := by
  cases h
  rfl

end Follows

/-! ## Attributes -/

theorem readName_of_at (h : At t i s) :
    readName (encode t) i =
      .ok (String.ofList (s.takeWhile isTagChar), pass isTagChar (encode t) i) := by
  rw [readName, h.slice_pass bytewise_isTagChar]
  rfl

theorem cutAt?_quote (q : Char) (s : List Char) :
    cutAt? [q] s = match s.dropWhile (· != q) with
      | [] => none
      | _ :: rest => some (s.takeWhile (· != q), rest) := by
  induction s with
  | nil => rfl
  | cons c s ih =>
    by_cases hc : q = c
    · subst hc
      simp [cutAt?, dropFront?]
    · have hne : (c != q) = true := bne_iff_ne.2 (Ne.symm hc)
      rw [List.dropWhile_cons_of_pos (p := (· != q)) hne,
        List.takeWhile_cons_of_pos (p := (· != q)) hne, cutAt?, dropFront?, if_neg hc, ih]
      dsimp only
      cases s.dropWhile (· != q) <;> rfl

theorem follows_readValue (h : At t i s) (name : List Char) :
    Follows t (readValue (encode t) (String.ofList name) i)
      ((Markup.readValue name s).map fun (value, rest) => (String.ofList value, rest)) := by
  unfold readValue Markup.readValue
  cases s with
  | nil =>
    rw [h.head?_nil]
    exact .ok h
  | cons c s =>
    obtain ⟨d, hhead, hd⟩ := h.exists_head?
    have hdouble : d = '"' ↔ c = '"' := eq_iff_of_mem_seenChar (by decide) hd
    have hsingle : d = '\'' ↔ c = '\'' := eq_iff_of_mem_seenChar (by decide) hd
    rw [hhead]
    dsimp only
    by_cases hquote : c = '"' ∨ c = '\''
    · have hc : c.toNat < 128 := by rcases hquote with rfl | rfl <;> decide
      obtain rfl : d = c := (eq_iff_of_mem_seenChar hc hd).2 rfl
      have hbytewise : Bytewise (· != d) := bytewise_not (bytewise_eq hc)
      have hinside := h.tail hc
      have hlast := hinside.at_pass hbytewise
      rw [if_pos hquote, if_pos hquote, cutAt?_quote]
      cases hrest : s.dropWhile (· != d) with
      | nil =>
        rw [hrest] at hlast
        rw [if_neg (mt hlast.lt_iff.1 (not_not.2 rfl))]
        exact .error (.attribute name)
      | cons e rest =>
        have he : e = d := by
          have hhead := List.head?_dropWhile_not (· != d) s
          rw [hrest] at hhead
          simpa using hhead
        rw [hrest] at hlast
        rw [if_pos (hlast.lt_iff.2 (List.cons_ne_nil e rest)), hinside.slice_pass hbytewise]
        exact .ok (hlast.tail (he ▸ hc))
    · rw [if_neg hquote, if_neg (by rwa [hdouble, hsingle]), h.slice_pass bytewise_isBareChar]
      exact .ok (h.at_pass bytewise_isBareChar)

theorem follows_readAttribute {c : Char} (h : At t i (c :: s)) (hc : isAttributeChar c = true) :
    Follows t (readAttribute (encode t) i)
      ((Markup.readAttribute (c :: s)).map fun (a, rest) => (some a, rest)) := by
  have hne : pass isAttributeChar (encode t) i ≠ i := by
    have hpos := byteLength_pos (List.cons_ne_nil c (s.takeWhile isAttributeChar))
    rw [h.pass_eq bytewise_isAttributeChar, List.takeWhile_cons_of_pos hc]
    omega
  have hblanks := (h.at_pass bytewise_isAttributeChar).at_skipBlanks
  have hequals := hblanks.head?_eq_iff (a := '=') (by decide)
  unfold readAttribute
  dsimp only
  rw [if_neg hne, h.slice_pass bytewise_isAttributeChar]
  dsimp only [bind, Except.bind]
  by_cases hvalue : (skipBlanks ((c :: s).dropWhile isAttributeChar)).head? = some '='
  · obtain ⟨rest, hrest⟩ := List.head?_eq_some_iff.1 hvalue
    rw [if_pos (hequals.2 hvalue), Markup.readAttribute_value hrest]
    rw [hrest] at hblanks
    have hfollows := follows_readValue (hblanks.tail (by decide)).at_skipBlanks
      ((c :: s).takeWhile isAttributeChar)
    cases hread : Markup.readValue ((c :: s).takeWhile isAttributeChar) (skipBlanks rest) with
    | error fault =>
      rw [hread] at hfollows
      rw [hfollows.eq_error]
      exact .error fault
    | ok read =>
      obtain ⟨value, after⟩ := read
      rw [hread] at hfollows
      obtain ⟨j, hj, hafter⟩ := hfollows.eq_ok
      rw [hj]
      exact .ok hafter
  · rw [if_neg (mt hequals.1 hvalue), Markup.readAttribute_bare hvalue]
    exact .ok hblanks

/-! ## The rest of a tag -/

theorem pass_of_head? {b : List UInt8} {c : Char} {p : Char → Bool}
    (hhead : (behind b i).head? = some c) (hc : ¬ p c = true) : pass p b i = i := by
  obtain ⟨rest, hrest⟩ := List.head?_eq_some_iff.1 hhead
  rw [pass, hrest, List.takeWhile_cons_of_neg hc]
  rfl

theorem attributePass_eq {b : List UInt8} {c : Char}
    (hhead : (behind b (pass isTagBlank b i)).head? = some c) (hslash : c ≠ '/')
    (hclose : c ≠ '>') :
    attributePass b i = (readAttribute b (pass isTagBlank b i)).map fun
      | (some a, next) => .goes [a] next
      | (none, next) => .goes [] (next + 1) := by
  unfold attributePass
  dsimp only
  rw [hhead]
  dsimp only
  rw [if_neg hslash, if_neg hclose]
  cases readAttribute b (pass isTagBlank b i) with
  | error stop => rfl
  | ok read =>
    obtain ⟨found, next⟩ := read
    cases found <;> rfl

theorem attributePass_other {b : List UInt8} {c : Char}
    (hhead : (behind b (pass isTagBlank b i)).head? = some c) (hslash : c ≠ '/')
    (hclose : c ≠ '>') (hname : ¬ isAttributeChar c = true) :
    attributePass b i = .ok (.goes [] (pass isTagBlank b i + 1)) := by
  have hread : readAttribute b (pass isTagBlank b i) = .ok (none, pass isTagBlank b i) := by
    rw [readAttribute]
    dsimp only
    rw [if_pos (pass_of_head? hhead hname)]
    rfl
  rw [attributePass_eq hhead hslash hclose, hread]
  rfl

theorem attributePass_wide {b : List UInt8} {d : Char}
    (hhead : (behind b i).head? = some d) (hd : 128 ≤ d.toNat) :
    attributePass b i = .ok (.goes [] (i + 1)) := by
  have hne : ∀ a : Char, a.toNat < 128 → d ≠ a := by
    rintro a ha rfl
    omega
  have hsame : pass isTagBlank b i = i :=
    pass_of_head? hhead fun hblank => absurd (lt_of_isTagBlank hblank) (by omega)
  rw [attributePass_other (hsame.symm ▸ hhead) (hne '/' (by decide)) (hne '>' (by decide))
    fun hname => absurd (lt_of_isAttributeChar hname) (by omega), hsame]

theorem le_pass (p : Char → Bool) (b : List UInt8) (i : Nat) : i ≤ pass p b i :=
  Nat.le_add_right _ _

section attributePass

variable {rest : List Char}

/-! Where the pass goes is seen at the first character behind the blanks. -/

theorem attributePass_nil (h : At t i s) (hs : skipBlanks s = []) :
    attributePass (encode t) i = .ok (.ends false (pass isTagBlank (encode t) i)) := by
  have hfirst := h.at_first hs
  unfold attributePass
  dsimp only
  rw [hfirst.head?_nil]
  rfl

theorem attributePass_slash (h : At t i s) (hs : skipBlanks s = '/' :: rest) :
    ∃ j, attributePass (encode t) i = .ok (.ends true j) ∧
      At t j (skipEnd (skipBlanks rest)) := by
  have hfirst := h.at_first hs
  refine ⟨_, ?_, ((hfirst.tail (by decide)).at_pass bytewise_isTagBlank).at_passEnd⟩
  unfold attributePass
  dsimp only
  rw [(hfirst.head?_eq_iff (by decide)).2 List.head?_cons]
  rfl

theorem attributePass_close (h : At t i s) (hs : skipBlanks s = '>' :: rest) :
    ∃ j, attributePass (encode t) i = .ok (.ends false j) ∧ At t j rest := by
  have hfirst := h.at_first hs
  refine ⟨_, ?_, hfirst.tail (by decide)⟩
  unfold attributePass
  dsimp only
  rw [(hfirst.head?_eq_iff (by decide)).2 List.head?_cons]
  rfl

theorem At.lt_of_skipBlanks {c : Char} {j : Nat} {after : List Char} (h : At t i s)
    (hs : skipBlanks s = c :: rest) (h' : At t j after) (hafter : after <:+ rest) : i < j := by
  have hfirst := h.at_first hs
  have hlt := hfirst.lt h' (hafter.trans (List.suffix_cons c rest))
    (Nat.lt_succ_of_le hafter.length_le)
  exact (le_pass _ _ i).trans_lt hlt

theorem attributePass_attribute {c : Char} (h : At t i s) (hs : skipBlanks s = c :: rest)
    (hc : isAttributeChar c = true) :
    (∀ a after, Markup.readAttribute (c :: rest) = .ok (a, after) →
      ∃ j, attributePass (encode t) i = .ok (.goes [a] j) ∧ At t j after ∧ i < j) ∧
      ∀ fault, Markup.readAttribute (c :: rest) = .error fault →
        attributePass (encode t) i = .error (.fault (.ofFault t fault)) := by
  have hfirst := h.at_first hs
  have hne : ∀ d, isAttributeChar d = false → c ≠ d := by
    rintro d hd rfl
    rw [hc] at hd
    cases hd
  have heq := attributePass_eq
    ((hfirst.head?_eq_iff (lt_of_isAttributeChar hc)).2 List.head?_cons) (hne '/' (by decide))
    (hne '>' (by decide))
  have hfollows := follows_readAttribute hfirst hc
  constructor
  · intro a after hread
    rw [hread] at hfollows
    obtain ⟨j, hj, hafter⟩ := hfollows.eq_ok
    have hsuffix := readAttribute_suffix hread
    rw [List.dropWhile_cons_of_pos hc] at hsuffix
    exact ⟨j, by rw [heq, hj]; rfl, hafter,
      h.lt_of_skipBlanks hs hafter (hsuffix.trans (List.dropWhile_suffix _))⟩
  · intro fault hread
    rw [hread] at hfollows
    rw [heq, hfollows.eq_error]
    rfl

theorem attributePass_char {c : Char} (h : At t i s) (hs : skipBlanks s = c :: rest)
    (hslash : c ≠ '/') (hclose : c ≠ '>') (hname : ¬ isAttributeChar c = true) :
    attributePass (encode t) i = .ok (.goes [] (pass isTagBlank (encode t) i + 1)) := by
  have hfirst := h.at_first hs
  obtain ⟨d, hhead, hd⟩ := hfirst.exists_head?
  exact attributePass_other hhead (mt (eq_iff_of_mem_seenChar (by decide) hd).1 hslash)
    (mt (eq_iff_of_mem_seenChar (by decide) hd).1 hclose)
    (by rwa [bytewise_isAttributeChar c d hd])

theorem loop_other {c : Char} (h : At t i s) (hs : skipBlanks s = c :: rest) (hslash : c ≠ '/')
    (hclose : c ≠ '>') (hname : ¬ isAttributeChar c = true) :
    ∃ j, loop (encode t).length (attributePass (encode t)) i =
      loop (encode t).length (attributePass (encode t)) j ∧ At t j rest := by
  have hfirst := h.at_first hs
  have hrest : At t (pass isTagBlank (encode t) i + c.utf8Size) rest :=
    At.add (u := [c]) hfirst
  have hle := hrest.le
  have hpos := c.utf8Size_pos
  refine ⟨_, ?_, hrest⟩
  rw [loop_goes_nil (attributePass_char h hs hslash hclose hname)
    (Nat.lt_succ_of_le (le_pass _ _ i)) (by omega)]
  -- If another byte follows, it belongs to the same character.
  refine loop_skip (by omega) hle fun k hik hk => ?_
  have hwide : 128 ≤ c.toNat := by
    by_contra hlt
    rw [utf8Size_of_lt (by omega)] at hk
    omega
  obtain ⟨d, hhead, hd⟩ := hfirst.exists_head?_wide hwide (by omega) hk
  exact attributePass_wide hhead hd

end attributePass

/-- Reading a tag behind its name. What the loop finds are the attributes. -/
theorem follows_readTagEnd (h : At t i s) :
    Follows t (loop (encode t).length (attributePass (encode t)) i)
      ((readTagEnd s).map fun e => ((e.attributes, e.selfClosing), e.rest)) := by
  fun_induction readTagEnd s generalizing i with
  | case1 s hs =>
    rw [loop_ends (attributePass_nil h hs)]
    exact .ok (h.at_first hs)
  | case2 s rest hs =>
    obtain ⟨j, hpass, hlast⟩ := attributePass_slash h hs
    rw [loop_ends hpass]
    exact .ok hlast
  | case3 s rest hs =>
    obtain ⟨j, hpass, hlast⟩ := attributePass_close h hs
    rw [loop_ends hpass]
    exact .ok hlast
  | case4 s c rest hs hslash hclose hname a after hread tag htag ih =>
    obtain ⟨j, hpass, hafter, hlt⟩ := (attributePass_attribute h hs hname).1 a after hread
    have hmore := ih hafter
    rw [htag] at hmore
    obtain ⟨k, hk, hrest⟩ := hmore.eq_ok
    rw [loop_goes hpass hlt hafter.le, hk]
    exact .ok hrest
  | case5 s c rest hs hslash hclose hname a after hread fault htag ih =>
    obtain ⟨j, hpass, hafter, hlt⟩ := (attributePass_attribute h hs hname).1 a after hread
    have hmore := ih hafter
    rw [htag] at hmore
    rw [loop_goes hpass hlt hafter.le, hmore.eq_error]
    exact .error fault
  | case6 s c rest hs hslash hclose hname fault hread =>
    rw [loop_error ((attributePass_attribute h hs hname).2 fault hread)]
    exact .error fault
  | case7 s c rest hs hslash hclose hname ih =>
    obtain ⟨j, hloop, hrest⟩ := loop_other h hs hslash hclose hname
    rw [hloop]
    exact ih hrest

end EventMarkup.Cursor
