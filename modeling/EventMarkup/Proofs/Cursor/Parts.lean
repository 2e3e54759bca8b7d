import EventMarkup.Proofs.Cursor.Tags

/-!
# Templates by places

Text runs, parts and whole templates, read by places and read as texts. A text run goes on byte by
byte outside of interpolations; no tag starts inside of a character, and no interpolation either. So
a run ends where a rest of the text begins, and the next part begins there.
-/

namespace EventMarkup.Cursor

open Markup Text

variable {t s : List Char} {i start : Nat}

/-! ## Text runs -/

theorem lt_length_of_head? {b : List UInt8} {d : Char} (h : (behind b i).head? = some d) :
    i < b.length := by
  by_contra hle
  rw [behind, List.drop_eq_nil_of_le (by omega)] at h
  cases h

theorem textPass_wide {b : List UInt8} {d : Char} (hhead : (behind b i).head? = some d)
    (hd : 128 ≤ d.toNat) : textPass b start i = .ok (.goes [] (i + 1)) := by
  obtain ⟨rest, hrest⟩ := List.head?_eq_some_iff.1 hhead
  have hne : ∀ a : Char, a.toNat < 128 → d ≠ a := by
    rintro a ha rfl
    omega
  have hmark : dropFront? openMark (d :: rest) = none :=
    if_neg (hne '\x7b' (by decide)).symm
  have hlt := lt_length_of_head? hhead
  rw [textPass, hrest, hmark, isTagStart_of_ne (hne '<' (by decide)), if_neg (by simp),
    if_neg (by simp; omega)]
  rfl

theorem isSome_openMark_seen (s : List Char) :
    (dropFront? openMark (seen s)).isSome = (dropFront? openMark s).isSome := by
  rw [dropFront?_seen (by simp [openMark]), Option.isSome_map]

theorem textPass_end (h : At t i s) (hmark : dropFront? openMark s = none)
    (hend : s = [] ∨ start < i ∧ isTagStart s = true) :
    textPass (encode t) start i = .ok (.ends () i) := by
  rw [textPass, h.behind_eq, isSome_openMark_seen, hmark, isTagStart_seen, if_neg (by simp), if_pos]
  · rfl
  · rw [← not_lt, h.lt_iff, not_not]
    exact hend

theorem textPass_char {c : Char} (h : At t i (c :: s)) (hmark : dropFront? openMark (c :: s) = none)
    (hgoes : ¬ (start < i ∧ isTagStart (c :: s) = true)) :
    textPass (encode t) start i = .ok (.goes [] (i + 1)) := by
  rw [textPass, h.behind_eq, isSome_openMark_seen, hmark, isTagStart_seen, if_neg (by simp), if_neg]
  · rfl
  · rw [← not_lt, h.lt_iff, not_not]
    exact not_or.2 ⟨List.cons_ne_nil c s, hgoes⟩

theorem loop_textChar {c : Char} (h : At t i (c :: s)) (hmark : dropFront? openMark (c :: s) = none)
    (hgoes : ¬ (start < i ∧ isTagStart (c :: s) = true)) :
    ∃ j, loop (encode t).length (textPass (encode t) start) i =
      loop (encode t).length (textPass (encode t) start) j ∧ At t j s ∧ i < j := by
  have hrest : At t (i + c.utf8Size) s := At.add (u := [c]) h
  have hlt : i < i + c.utf8Size := Nat.lt_add_of_pos_right c.utf8Size_pos
  refine ⟨_, loop_skip hlt.le hrest.le fun k hik hk => ?_, hrest, hlt⟩
  by_cases hc : c.toNat < 128
  · obtain rfl : k = i := by
      rw [utf8Size_of_lt hc] at hk
      omega
    exact textPass_char h hmark hgoes
  · obtain ⟨d, hhead, hd⟩ := h.exists_head?_wide (by omega) hik hk
    exact textPass_wide hhead hd

theorem find_ofList (mark s : List Char) :
    find mark (String.ofList s) = (cutAt? mark s).map fun cut => byteLength cut.1 := by
  rw [find, String.toList_ofList]

theorem At.at_find {mark before rest : List Char} (h : At t i s)
    (hcut : cutAt? mark s = some (before, rest)) :
    At t (i + byteLength before + byteLength mark) rest := by
  rw [eq_append_of_cutAt? hcut, List.append_assoc] at h
  exact h.add.add

theorem textPass_mark {after : List Char} (h : At t i (openMark ++ after)) :
    (∀ inside rest, cutAt? closeMark after = some (inside, rest) →
      ∃ j, textPass (encode t) start i = .ok (.goes [] j) ∧ At t j rest ∧ i < j) ∧
      (cutAt? closeMark after = none → textPass (encode t) start i =
        .error (.fault (.ofFault t (.interpolation (openMark ++ after))))) := by
  have hinside : At t (i + 2) after := h.add
  have hpass : textPass (encode t) start i =
      (cutAt? closeMark after).elim (.error (.fault (.openInterpolation i)))
        fun cut => .ok (.goes [] (i + 2 + byteLength cut.1 + 2)) := by
    rw [textPass, h.behind_eq, isSome_openMark_seen, dropFront?_append,
      if_pos Option.isSome_some, hinside.slice_rest]
    dsimp only [bind, Except.bind]
    rw [find_ofList]
    cases cutAt? closeMark after <;> rfl
  constructor
  · intro inside rest hcut
    rw [hcut] at hpass
    exact ⟨_, hpass, hinside.at_find hcut, by omega⟩
  · intro hcut
    rw [hcut] at hpass
    have hoffset : byteLength t - byteLength (openMark ++ after) = i := by
      have hlength := h.length
      rw [length_encode] at hlength
      omega
    rw [hpass, ReadError.ofFault, hoffset]
    rfl

theorem loop_textMark {after inside rest : List Char} (h : At t i (openMark ++ after))
    (hcut : cutAt? closeMark after = some (inside, rest)) :
    ∃ j, loop (encode t).length (textPass (encode t) start) i =
      loop (encode t).length (textPass (encode t) start) j ∧ At t j rest ∧ i < j := by
  obtain ⟨j, hpass, hrest, hlt⟩ := (textPass_mark h).1 inside rest hcut
  exact ⟨j, loop_goes_nil hpass hlt hrest.le, hrest, hlt⟩

/-- Reading over a text run that began at `start`. -/
theorem follows_textLoop {begun : Bool} (h : At t i s) (hle : start ≤ i)
    (hbegun : begun = true ↔ start < i) :
    Follows t (loop (encode t).length (textPass (encode t) start) i)
      ((Markup.readRun begun s).map fun (_, rest) => (([], ()), rest)) := by
  fun_induction Markup.readRun begun s generalizing i with
  | case1 begun s hend =>
    rw [Bool.and_eq_true] at hend
    obtain ⟨c, r, rfl, -⟩ := exists_of_isTagStart hend.2
    rw [loop_ends (textPass_end h rfl (.inr ⟨hbegun.1 hend.1, hend.2⟩))]
    exact .ok h
  | case2 begun s hgoes after hmark inside rest hcut run rest' hread ih =>
    rw [eq_append_of_dropFront? hmark] at h
    obtain ⟨j, hloop, hrest, hlt⟩ := loop_textMark h hcut
    have hmore := ih hrest (by omega) (by simp; omega)
    rw [hread] at hmore
    rw [hloop]
    exact hmore
  | case3 begun s hgoes after hmark inside rest hcut fault hread ih =>
    rw [eq_append_of_dropFront? hmark] at h
    obtain ⟨j, hloop, hrest, hlt⟩ := loop_textMark h hcut
    have hmore := ih hrest (by omega) (by simp; omega)
    rw [hread] at hmore
    rw [hloop]
    exact hmore
  | case4 begun s hgoes after hmark hcut =>
    obtain rfl := eq_append_of_dropFront? hmark
    rw [loop_error ((textPass_mark h).2 hcut)]
    exact .error _
  | case5 begun s hmark =>
    rw [loop_ends (textPass_end h rfl (.inl rfl))]
    exact .ok h
  | case6 begun c rest hmark run rest' hread hgoes ih =>
    obtain ⟨j, hloop, hrest, hlt⟩ := loop_textChar h hmark (by simpa [hbegun] using hgoes)
    have hmore := ih hrest (by omega) (by simp; omega)
    rw [hread] at hmore
    rw [hloop]
    exact hmore
  | case7 begun c rest hmark fault hread hgoes ih =>
    obtain ⟨j, hloop, hrest, hlt⟩ := loop_textChar h hmark (by simpa [hbegun] using hgoes)
    have hmore := ih hrest (by omega) (by simp; omega)
    rw [hread] at hmore
    rw [hloop]
    exact hmore

theorem follows_readRun (h : At t i s) :
    Follows t (readRun (encode t) i)
      ((Markup.readRun false s).map fun (run, rest) => (some (stepOfRun run), rest)) := by
  have hloop : Follows t (loop (encode t).length (textPass (encode t) i) i)
      ((Markup.readRun false s).map fun (_, rest) => (([], ()), rest)) :=
    follows_textLoop h le_rfl (by simp)
  unfold readRun
  cases hread : Markup.readRun false s with
  | error fault =>
    rw [hread] at hloop
    rw [hloop.eq_error]
    exact .error fault
  | ok read =>
    obtain ⟨run, rest⟩ := read
    rw [hread] at hloop
    obtain ⟨last, hlast, hrest⟩ := hloop.eq_ok
    obtain rfl := append_of_readRun hread
    have hlength : last = i + byteLength run := by
      have hi := h.length
      have hj := hrest.length
      rw [byteLength_append] at hi
      omega
    rw [hlast]
    dsimp only [bind, Except.bind]
    rw [hlength, h.slice_eq]
    dsimp only [pure, Except.pure, Except.map]
    rw [String.toList_ofList]
    exact .ok h.add

/-! ## Comments and tags -/

theorem At.at_skipPast (h : At t i s) (mark : List Char) :
    At t (match find mark (String.ofList s) with
      | some k => i + k + byteLength mark
      | none => (encode t).length) (skipPast mark s) := by
  rw [find_ofList, Markup.skipPast]
  cases hcut : cutAt? mark s with
  | none =>
    have hend := At.add (s := []) (by rwa [List.append_nil])
    rwa [h.length] at hend
  | some cut => exact h.at_find hcut

theorem follows_readComment {r : List Char} (h : At t i ('<' :: '!' :: '-' :: '-' :: r)) :
    Follows t (readComment (encode t) i) (.ok (none, skipPast ['-', '-', '>'] r)) := by
  have hinside : At t (i + 4) r := h.add (u := ['<', '!', '-', '-'])
  have hrest := hinside.at_skipPast ['-', '-', '>']
  rw [readComment, hinside.slice_rest]
  dsimp only [bind, Except.bind]
  cases hfind : find ['-', '-', '>'] (String.ofList r) <;> rw [hfind] at hrest <;>
    exact .ok hrest

theorem follows_readDeclaration {r : List Char} (h : At t i ('<' :: '!' :: r)) :
    Follows t (readDeclaration (encode t) i) (.ok (none, skipPast ['>'] r)) := by
  have hmark : skipPast ['>'] ('<' :: '!' :: r) = skipPast ['>'] r := by
    unfold skipPast
    cases hcut : cutAt? ['>'] r <;> simp [cutAt?, dropFront?, hcut]
  have hrest := h.at_skipPast ['>']
  rw [hmark] at hrest
  rw [readDeclaration, h.slice_rest]
  dsimp only [bind, Except.bind]
  cases hfind : find ['>'] (String.ofList ('<' :: '!' :: r)) <;> rw [hfind] at hrest <;>
    exact .ok hrest

theorem follows_readClosingTag {r : List Char} (h : At t i ('<' :: '/' :: r)) :
    Follows t (readClosingTag (encode t) i)
      (.ok (some (Markup.readClosingTag r).1, (Markup.readClosingTag r).2)) := by
  have hname : At t (i + 2) r := h.add (u := ['<', '/'])
  rw [readClosingTag, readName_of_at hname]
  exact .ok ((hname.at_pass bytewise_isTagChar).at_pass bytewise_isTagBlank).at_passEnd

theorem follows_readOpeningTag (h : At t i ('<' :: s)) :
    Follows t (readOpeningTag (encode t) i)
      ((Markup.readOpeningTag s).map fun (step, rest) => (some step, rest)) := by
  have hname : At t (i + 1) s := h.tail (by decide)
  have hloop := follows_readTagEnd (hname.at_pass bytewise_isTagChar)
  rw [readOpeningTag, readName_of_at hname]
  dsimp only [bind, Except.bind]
  unfold Markup.readOpeningTag
  dsimp only
  cases hread : readTagEnd (s.dropWhile isTagChar) with
  | error fault =>
    rw [hread] at hloop
    rw [hloop.eq_error]
    exact .error fault
  | ok e =>
    rw [hread] at hloop
    obtain ⟨j, hj, hrest⟩ := hloop.eq_ok
    rw [hj]
    exact .ok hrest

theorem readTag_eq (h : At t i ('<' :: s)) :
    readTag (encode t) i =
      if (dropFront? ['!', '-', '-'] s).isSome then readComment (encode t) i
      else if s.head? = some '!' then readDeclaration (encode t) i
      else if s.head? = some '/' then readClosingTag (encode t) i
      else readOpeningTag (encode t) i := by
  have hcomment : startsWith (String.ofList ('<' :: s)) "<!--" =
      (dropFront? ['!', '-', '-'] s).isSome := by
    rw [startsWith, String.toList_ofList, String.toList_ofList]
    rfl
  have hbehind : At t (i + 1) s := h.tail (by decide)
  rw [readTag, h.slice_rest]
  dsimp only [bind, Except.bind]
  simp only [hcomment, hbehind.head?_eq_iff (a := '!') (by decide),
    hbehind.head?_eq_iff (a := '/') (by decide)]

/-! ## Templates -/

theorem follows_readPart (h : At t i s) :
    Follows t (readPart (encode t) i) (readStep s) := by
  have hpart : readPart (encode t) i =
      if isTagStart s then readTag (encode t) i else readRun (encode t) i := by
    rw [readPart, h.behind_eq, isTagStart_seen]
  rw [hpart]
  cases partFront s with
  | comment r =>
    rw [readStep_comment, if_pos (by rfl), readTag_eq h, if_pos (by rfl)]
    exact follows_readComment h
  | @declaration r hr =>
    have hcomment : dropFront? ['!', '-', '-'] ('!' :: r) = none := by
      rw [dropFront?, if_pos rfl, hr]
    rw [readStep_declaration hr, if_pos (by rfl), readTag_eq h, hcomment, if_neg (by simp),
      if_pos (by rfl)]
    exact follows_readDeclaration h
  | closing r =>
    rw [readStep_closingTag, if_pos (by rfl), readTag_eq h, if_neg (by simp [dropFront?]),
      if_neg (by simp), if_pos (by rfl)]
    exact follows_readClosingTag h
  | @opening c hc r =>
    have hbang : c ≠ '!' := by
      rintro rfl
      exact absurd hc (by decide)
    have hslash : c ≠ '/' := by
      rintro rfl
      exact absurd hc (by decide)
    rw [readStep_openingTag hc, if_pos (by simp [isTagStart, hc]), readTag_eq h,
      if_neg (by simp [dropFront?, hbang.symm]), if_neg (by simpa using hbang),
      if_neg (by simpa using hslash)]
    exact follows_readOpeningTag h
  | run hrun =>
    rw [readStep_text hrun, hrun, if_neg Bool.false_ne_true]
    exact follows_readRun h

theorem partPass_of_at (h : At t i s) (hs : s ≠ []) :
    (∀ step rest, readStep s = .ok (step, rest) →
      ∃ j, partPass (encode t) i = .ok (.goes step.toList j) ∧ At t j rest ∧ i < j) ∧
      ∀ fault, readStep s = .error fault →
        partPass (encode t) i = .error (.fault (.ofFault t fault)) := by
  have hpart := follows_readPart h
  have hlt : ¬ (encode t).length ≤ i := by
    rw [not_le]
    exact h.lt_iff.2 hs
  constructor
  · intro step rest hstep
    rw [hstep] at hpart
    obtain ⟨j, hj, hrest⟩ := hpart.eq_ok
    have hshorter : rest.length < s.length := by
      obtain ⟨c, s, rfl⟩ := List.exists_cons_of_ne_nil hs
      exact length_lt_of_readStep hstep
    refine ⟨j, ?_, hrest, h.lt hrest (readStep_suffix hstep) hshorter⟩
    rw [partPass, if_neg hlt, hj]
    rfl
  · intro fault hstep
    rw [hstep] at hpart
    rw [partPass, if_neg hlt, hpart.eq_error]
    rfl

theorem partPass_end (h : At t i []) : partPass (encode t) i = .ok (.ends () i) := by
  rw [partPass, if_pos (not_lt.1 (mt h.lt_iff.1 (not_not.2 rfl)))]
  rfl

theorem follows_read (h : At t i s) :
    Follows t (loop (encode t).length (partPass (encode t)) i)
      ((Step.read s).map fun steps => ((steps, ()), [])) := by
  fun_induction Step.read s generalizing i with
  | case1 =>
    rw [loop_ends (partPass_end h)]
    exact .ok h
  | case2 c s step rest hstep steps hread ih =>
    obtain ⟨j, hpass, hrest, hlt⟩ := (partPass_of_at h (by simp)).1 step rest hstep
    have hmore := ih hrest
    rw [hread] at hmore
    obtain ⟨k, hk, hend⟩ := hmore.eq_ok
    rw [loop_goes hpass hlt hrest.le, hk]
    exact .ok hend
  | case3 c s step rest hstep fault hread ih =>
    obtain ⟨j, hpass, hrest, hlt⟩ := (partPass_of_at h (by simp)).1 step rest hstep
    have hmore := ih hrest
    rw [hread] at hmore
    rw [loop_goes hpass hlt hrest.le, hmore.eq_error]
    exact .error fault
  | case4 c s fault hstep =>
    rw [loop_error ((partPass_of_at h (by simp)).2 fault hstep)]
    exact .error fault

/-- Reading by places comes to what reading the text comes to. -/
theorem read_encode (t : List Char) :
    read (encode t) = (Step.read t).mapError fun fault => .fault (.ofFault t fault) := by
  have hread := follows_read (at_start t)
  rw [read]
  cases hsteps : Step.read t with
  | error fault =>
    rw [hsteps] at hread
    rw [hread.eq_error]
    rfl
  | ok steps =>
    rw [hsteps] at hread
    obtain ⟨j, hj, -⟩ := hread.eq_ok
    rw [hj]
    rfl

end EventMarkup.Cursor
