import EventMarkup.Event.Callback
import EventMarkup.Proofs.Interpolated
import EventMarkup.Proofs.Literal
import EventMarkup.Proofs.Script.Segments
import Mathlib.Data.List.Nodup

/-!
# Literals for every reader

JSON and the script language have rules of their own for what stands between double quotes: which
characters may stand for themselves, and what an escape denotes. `QuoteRules.literal?` reads a
literal by such rules. Both sets of rules include those that are shared, so both readers give back
what `quoted` wrote (`QuoteRules.literal?_quoted`). No character of a literal ends a line or is a
control character, and the two grammars that look for strings take it as one (`quote_read_back`).
-/

namespace EventMarkup

namespace Text

/-! ## Rules for literals -/

/-- How a language reads what stands between double quotes. -/
structure QuoteRules where
  /-- Whether a character stands for itself. A quote and a backslash never do. -/
  plain : Char → Bool
  /-- What an escape denotes, from behind its backslash, and what stands behind the escape. -/
  escape? : List Char → Option (List Char × List Char)

namespace QuoteRules

/-- The text up to the quote that closes a literal, and what stands behind it. -/
def inside? (rules : QuoteRules) : List Char → Option (List Char × List Char)
  | [] => none
  | c :: s =>
    if c = '"' then some ([], s)
    else if c = '\\' then
      match rules.escape? s with
      | none => none
      | some (e, t) =>
        -- An escape never gives back more than there is, so this always holds.
        if t.length ≤ s.length then
          (rules.inside? t).map fun (text, rest) => (e ++ text, rest)
        else none
    else if rules.plain c then (rules.inside? s).map fun (text, rest) => (c :: text, rest)
    else none
termination_by s => s.length

/-- The text that the literal at the front denotes, and what stands behind it. -/
def literal? (rules : QuoteRules) : List Char → Option (List Char × List Char)
  | '"' :: s => rules.inside? s
  | _ => none

end QuoteRules

/-! ### Escapes by code points -/

def hexNumber? (digits : List Char) : Option Nat :=
  digits.foldlM (fun n c => (hexValue? c).map (16 * n + ·)) 0

/-- The character of a code point, unless it is a surrogate or no code point at all. -/
def charAt? (n : Nat) : Option Char := if n.isValidChar then some (Char.ofNat n) else none

/-- The number that four digits at the front denote, and what stands behind them. -/
def codeUnit? : List Char → Option (Nat × List Char)
  | a :: b :: c :: d :: s => (hexNumber? [a, b, c, d]).map fun n => (n, s)
  | _ => none

/-- The character that four digits denote, and what stands behind them. Where they are those of a
high surrogate, an escape with a low one follows, and both together denote one character. -/
def unicodeEscape? (s : List Char) : Option (List Char × List Char) := do
  let (n, s) ← codeUnit? s
  if 0xD800 ≤ n ∧ n < 0xDC00 then
    let (m, s) ← codeUnit? (← dropFront? ['\\', 'u'] s)
    if 0xDC00 ≤ m ∧ m < 0xE000 then
      (charAt? (0x10000 + 0x400 * (n - 0xD800) + (m - 0xDC00))).map fun c => ([c], s)
    else none
  else (charAt? n).map fun c => ([c], s)

/-! ### JSON -/

/-- What an escape of JSON denotes. -/
def jsonEscape? : List Char → Option (List Char × List Char)
  | 'u' :: s => unicodeEscape? s
  | c :: s => (escapedLetter? c).map fun d => ([d], s)
  | [] => none

def jsonRules : QuoteRules where
  plain c := 0x20 ≤ c.toNat
  escape? := jsonEscape?

/-! ### Scripts -/

/-- What a letter behind a backslash stands for in a script: itself, unless it has a meaning. -/
def scriptLetter : Char → Char
  | 'b' => '\x08'
  | 'f' => '\x0c'
  | 'n' => '\n'
  | 'r' => '\r'
  | 't' => '\t'
  | 'v' => '\x0b'
  | c => c

/-- What an escape of a script denotes. A line break behind the backslash denotes nothing, and
digits have no meaning but for a zero that stands alone. -/
def scriptEscape? : List Char → Option (List Char × List Char)
  | '\r' :: '\n' :: s => some ([], s)
  | 'x' :: a :: b :: s => do
    let n ← hexNumber? [a, b]
    (charAt? n).map fun c => ([c], s)
  | 'u' :: '\x7b' :: s => do
    let (digits, s) ← cutAt? ['\x7d'] s
    let n ← if digits = [] then none else hexNumber? digits
    (charAt? n).map fun c => ([c], s)
  | 'u' :: s => unicodeEscape? s
  | '0' :: s => if s.head?.any Char.isDigit then none else some (['\x00'], s)
  | c :: s =>
    if isLineEnd c then some ([], s)
    else if c = 'x' || c.isDigit then none
    else some ([scriptLetter c], s)
  | [] => none

def scriptRules : QuoteRules where
  plain c := c != '\n' && c != '\r'
  escape? := scriptEscape?

/-! ## What the rules share -/

/-- The rules read whatever the shared rules read. -/
structure QuoteRules.Includes (rules : QuoteRules) : Prop where
  plain : ∀ c : Char, 0x20 ≤ c.toNat → rules.plain c = true
  letter : ∀ {c e : Char}, escapedLetter? c = some e → ∀ s, rules.escape? (c :: s) = some ([e], s)
  digits : ∀ {a b c d e : Char}, hexChar? a b c d = some e →
    ∀ s, rules.escape? ('u' :: a :: b :: c :: d :: s) = some ([e], s)

theorem unicodeEscape?_of_hexChar? {a b c d e : Char} (h : hexChar? a b c d = some e)
    (s : List Char) : unicodeEscape? (a :: b :: c :: d :: s) = some ([e], s) := by
  simp only [hexChar?, Option.bind_eq_bind, Option.bind_eq_some_iff] at h
  obtain ⟨va, ha, vb, hb, vc, hc, vd, hd, h⟩ := h
  have hunit : codeUnit? (a :: b :: c :: d :: s) =
      some (((va * 16 + vb) * 16 + vc) * 16 + vd, s) := by
    simp [codeUnit?, hexNumber?, ha, hb, hc, hd, Nat.mul_comm]
  generalize ((va * 16 + vb) * 16 + vc) * 16 + vd = n at h hunit
  split at h
  · rename_i hvalid
    have hplane : ¬ (0xD800 ≤ n ∧ n < 0xDC00) := by
      have : n < 0xD800 ∨ 0xDFFF < n ∧ n < 0x110000 := hvalid
      omega
    simp only [unicodeEscape?, hunit, Option.bind_eq_bind, Option.bind_some, if_neg hplane, charAt?,
      if_pos hvalid, h, Option.map_some]
  · cases h

theorem jsonRules_includes : jsonRules.Includes where
  plain c h := by simpa [jsonRules] using h
  letter {c e} h s := by
    have hu : c ≠ 'u' := by
      rintro rfl
      cases h
    show jsonEscape? (c :: s) = _
    unfold jsonEscape?
    split
    · rename_i heq
      exact absurd (List.cons.inj heq).1 hu
    · rename_i heq
      cases heq
      rw [h, Option.map_some]
    · rename_i heq
      cases heq
  digits h s := unicodeEscape?_of_hexChar? h s

theorem scriptRules_includes : scriptRules.Includes where
  plain c h := by
    have hne : ∀ d : Char, d.toNat < 0x20 → c ≠ d := by
      rintro d hd rfl
      omega
    have hfeed := hne '\n' (by decide)
    have hreturn := hne '\r' (by decide)
    simp [scriptRules, hfeed, hreturn]
  letter {c e} h s := by
    unfold escapedLetter? at h
    -- Each of the letters is read by itself.
    split at h <;> cases h <;> rfl
  digits {a b c d e} h s := by
    have hbrace : a ≠ '\x7b' := by
      rintro rfl
      cases h
    show scriptEscape? ('u' :: a :: b :: c :: d :: s) = _
    unfold scriptEscape?
    split
    · rename_i heq
      cases heq
    · rename_i heq
      cases heq
    · rename_i heq
      cases heq
      exact absurd rfl hbrace
    · rename_i heq
      cases heq
      exact unicodeEscape?_of_hexChar? h s
    · rename_i heq
      cases heq
    · rename_i hu _ heq
      cases heq
      exact (hu rfl).elim
    · rename_i heq
      cases heq

namespace QuoteRules

variable {rules : QuoteRules}

theorem inside?_escape {e s t : List Char} (h : rules.escape? s = some (e, t))
    (ht : t.length ≤ s.length) :
    rules.inside? ('\\' :: s) = (rules.inside? t).map fun (text, rest) => (e ++ text, rest) := by
  rw [inside?, if_neg (by decide), if_pos rfl, h]
  exact if_pos ht

theorem Includes.inside?_of_readQuoted? (h : rules.Includes) {s : List Char}
    {r : List Char × List Char} (hs : readQuoted? s = some r) : rules.inside? s = some r := by
  have hmap : ∀ {t e : List Char} {c : Char}, e = [c] →
      (∀ {r}, readQuoted? t = some r → rules.inside? t = some r) → ∀ {r},
      ((readQuoted? t).map fun (text, rest) => (c :: text, rest)) = some r →
      ((rules.inside? t).map fun (text, rest) => (e ++ text, rest)) = some r := by
    rintro t e c rfl ih r hr
    obtain ⟨r', hr', rfl⟩ := Option.map_eq_some_iff.1 hr
    rw [ih hr']
    rfl
  fun_induction readQuoted? s generalizing r with
  | case1 => cases hs
  | case2 rest =>
    cases hs
    rw [inside?, if_pos rfl]
  | case3 a b c d s ih =>
    obtain ⟨e, he, hs⟩ := Option.bind_eq_some_iff.1 hs
    rw [inside?_escape (h.digits he s) (by simp; omega)]
    exact hmap rfl ih hs
  | case4 letter s hu ih =>
    obtain ⟨e, he, hs⟩ := Option.bind_eq_some_iff.1 hs
    rw [inside?_escape (h.letter he s) (by simp)]
    exact hmap rfl ih hs
  | case5 => cases hs
  | case6 c s hquote _ _ hplain ih =>
    simp only [Bool.or_eq_true, decide_eq_true_eq, not_or, Nat.not_lt] at hplain
    rw [inside?, if_neg fun hc => hquote hc, if_neg hplain.1, if_pos (h.plain c hplain.2)]
    exact hmap rfl ih hs

theorem Includes.literal?_of_unquote? (h : rules.Includes) {s : List Char}
    {r : List Char × List Char} (hs : unquote? s = some r) : rules.literal? s = some r := by
  unfold unquote? at hs
  split at hs
  · exact h.inside?_of_readQuoted? hs
  · cases hs

theorem Includes.literal?_quoted (h : rules.Includes) (s k : List Char) :
    rules.literal? (quoted s ++ k) = some (s, k) :=
  h.literal?_of_unquote? (unquote?_quoted s k)

end QuoteRules

/-! ## The characters of a literal -/

theorem escaped_cases (c : Char) :
    (∃ d ∈ ['\\', '"', 'n', 'r', 't'], escaped c = ['\\', d]) ∨
      escaped c = '\\' :: 'u' :: hexFour c.toNat ∨
      escaped c = [c] ∧ c ≠ '\\' ∧ c ≠ '"' ∧ isControl c = false ∧ isLineEnd c = false := by
  unfold escaped
  split
  · exact .inl ⟨_, by simp, rfl⟩
  split
  · exact .inl ⟨_, by simp, rfl⟩
  split
  · exact .inl ⟨_, by simp, rfl⟩
  split
  · exact .inl ⟨_, by simp, rfl⟩
  split
  · exact .inl ⟨_, by simp, rfl⟩
  rename_i hslash hquote hfeed hreturn _
  split
  · exact .inr (.inl rfl)
  · rename_i hplain
    simp only [Bool.or_eq_true, beq_iff_eq, not_or, Bool.not_eq_true] at hplain
    refine .inr (.inr ⟨rfl, hslash, hquote, hplain.1.1, ?_⟩)
    simp [isLineEnd, hfeed, hreturn, hplain]

theorem hexDigit_clean : ∀ n < 16, isControl (hexDigit n) = false ∧
    isLineEnd (hexDigit n) = false ∧ hexDigit n ≠ '\\' ∧ hexDigit n ≠ '"' := by
  decide

theorem mem_hexFour {n : Nat} {d : Char} (h : d ∈ hexFour n) : ∃ m < 16, d = hexDigit m := by
  simp only [hexFour, List.mem_cons, List.not_mem_nil, or_false] at h
  rcases h with rfl | rfl | rfl | rfl <;> exact ⟨_, Nat.mod_lt _ (by decide), rfl⟩

theorem clean_of_mem_escaped {c d : Char} (h : d ∈ escaped c) :
    isControl d = false ∧ isLineEnd d = false := by
  have hall : (['\\', 'u', '"', 'n', 'r', 't'].all fun d => !isControl d && !isLineEnd d) = true := by
    decide
  have hfixed : ∀ d ∈ ['\\', 'u', '"', 'n', 'r', 't'],
      isControl d = false ∧ isLineEnd d = false := by
    simpa only [List.all_eq_true, Bool.and_eq_true, Bool.not_eq_true'] using hall
  rcases escaped_cases c with ⟨e, he, hc⟩ | hc | ⟨hc, -, -, hplain⟩
  · rw [hc] at h
    rcases List.mem_cons.1 h with rfl | h
    · exact hfixed _ (by simp)
    · cases List.mem_singleton.1 h
      have hsub : ['\\', '"', 'n', 'r', 't'] ⊆ ['\\', 'u', '"', 'n', 'r', 't'] := by simp
      exact hfixed _ (hsub he)
  · rw [hc] at h
    rcases List.mem_cons.1 h with rfl | h
    · exact hfixed _ (by simp)
    rcases List.mem_cons.1 h with rfl | h
    · exact hfixed _ (by simp)
    · obtain ⟨m, hm, rfl⟩ := mem_hexFour h
      exact ⟨(hexDigit_clean m hm).1, (hexDigit_clean m hm).2.1⟩
  · rw [hc] at h
    cases List.mem_singleton.1 h
    exact hplain

theorem clean_of_mem_quoted {s : List Char} {d : Char} (h : d ∈ quoted s) :
    isControl d = false ∧ isLineEnd d = false := by
  rcases List.mem_cons.1 h with rfl | h
  · decide
  rcases List.mem_append.1 h with h | h
  · obtain ⟨c, -, hc⟩ := List.mem_flatMap.1 h
    exact clean_of_mem_escaped hc
  · cases List.mem_singleton.1 h
    decide

theorem quote_injective : Function.Injective quote := by
  intro s t h
  have hread := jsonRules_includes.literal?_quoted s.toList []
  have hsame : quoted s.toList = quoted t.toList := String.ofList_injective h
  rw [hsame, jsonRules_includes.literal?_quoted] at hread
  exact String.toList_inj.1 (congrArg Prod.fst (Option.some.inj hread)).symm

end Text

/-! ## Literals in the grammars -/

namespace Script

open Peg Text

theorem exists_pieces_escaped (c : Char) :
    ∃ content, spellPieces content = escaped c ∧ isStringText '"' content = true := by
  rcases escaped_cases c with ⟨d, -, hc⟩ | hc | ⟨hc, hslash, hquote, -⟩
  · exact ⟨[.escaped d], hc.symm, rfl⟩
  · refine ⟨.escaped 'u' :: (hexFour c.toNat).map .plain, ?_, ?_⟩
    · rw [hc]
      rfl
    · have hplain : ∀ d ∈ hexFour c.toNat, d ≠ '"' ∧ d ≠ '\\' := by
        intro d hd
        obtain ⟨m, hm, rfl⟩ := mem_hexFour hd
        exact ⟨(hexDigit_clean m hm).2.2.2, (hexDigit_clean m hm).2.2.1⟩
      simpa [isStringText, Piece.fits] using hplain
  · exact ⟨[.plain c], hc.symm, by simp [isStringText, Piece.fits, hslash, hquote]⟩

theorem matches_quoted (s k : List Char) :
    Matches LiteralRule.pattern (.rule .string) (quoted s ++ k) k := by
  obtain ⟨content, hspell, htext⟩ :
      ∃ content, spellPieces content = s.flatMap escaped ∧ isStringText '"' content = true := by
    induction s with
    | nil => exact ⟨[], rfl, rfl⟩
    | cons c s ih =>
      obtain ⟨content, hspell, htext⟩ := ih
      obtain ⟨front, hfront, hfrontText⟩ := exists_pieces_escaped c
      refine ⟨front ++ content, ?_, ?_⟩
      · rw [spellPieces, List.flatMap_append, List.flatMap_cons]
        exact congrArg₂ _ hfront hspell
      · rw [isStringText, List.all_append]
        exact Bool.and_eq_true_iff.2 ⟨hfrontText, htext⟩
  have hquoted : quoted s = spellString '"' content := by rw [spellString, hspell]; rfl
  rw [hquoted]
  exact .rule (matches_string (.inr rfl) htext k)

end Script

/-! ## Keys of event tables -/

namespace EventTable

open Text

theorem literal?_entrySource (entry : String × Handler) :
    scriptRules.literal? (entrySource entry).toList =
      some (entry.1.toList, ':' :: entry.2.source.toList) := by
  have hsource : (entrySource entry).toList =
      quoted entry.1.toList ++ ':' :: entry.2.source.toList := by
    simp [entrySource, quote]
  rw [hsource, scriptRules_includes.literal?_quoted]

theorem nodup_keys (t : EventTable) : (t.entries.map fun entry => quote entry.1).Nodup := by
  have hkeys := List.Nodup.map quote_injective t.nodup
  rwa [List.map_map] at hkeys

end EventTable

open Text in
/-- A text is read back from its literal by the rules of JSON and by those of scripts, so
different texts have different literals and different events different keys. A literal stands on
one line without control characters, and both grammars take it as one string, whatever follows. -/
theorem quote_read_back (s : String) (k : List Char) :
    (jsonRules.literal? ((quote s).toList ++ k) = some (s.toList, k) ∧
      scriptRules.literal? ((quote s).toList ++ k) = some (s.toList, k)) ∧
    (∀ t, quote t = quote s → t = s) ∧
    (∀ t : EventTable, (t.entries.map fun entry => quote entry.1).Nodup ∧
      ∀ entry ∈ t.entries, scriptRules.literal? (EventTable.entrySource entry).toList =
        some (entry.1.toList, ':' :: entry.2.source.toList)) ∧
    (∀ c ∈ (quote s).toList, isControl c = false ∧ isLineEnd c = false) ∧
    Peg.Matches Script.Rule.pattern Script.stringLiteral ((quote s).toList ++ k) k ∧
    ∃ trees width reach, Script.literalGrammar.run .string ((quote s).toList ++ k) =
      .matched trees width k reach := by
  have hquote : (quote s).toList = quoted s.toList := String.toList_ofList
  rw [hquote]
  refine ⟨⟨jsonRules_includes.literal?_quoted _ k, scriptRules_includes.literal?_quoted _ k⟩,
    fun t h => quote_injective h,
    fun t => ⟨t.nodup_keys, fun entry _ => EventTable.literal?_entrySource entry⟩,
    fun c => clean_of_mem_quoted, Script.reads_string.takes (string?_quoted _ k), ?_⟩
  obtain ⟨ts, w, far, hmatch⟩ := Script.matches_quoted s.toList k
  exact ⟨ts, w, far, Script.literalOrderly.run_eq_iff.2 hmatch⟩

open Text in
theorem quote_read_back_separator :
    (quote "\\\"\u2028\x7f0" = "\"\\\\\\\"\\u2028\\u007f0\"" ∧
      jsonRules.literal? ((quote "\\\"\u2028\x7f0").toList ++ ['1']) =
        some ("\\\"\u2028\x7f0".toList, ['1']) ∧
      scriptRules.literal? ((quote "\\\"\u2028\x7f0").toList ++ ['1']) =
        some ("\\\"\u2028\x7f0".toList, ['1'])) ∧
    quote "\\u2028" ≠ quote "\\\"\u2028\x7f0" ∧
    (('u' ∈ (quote "\\\"\u2028\x7f0").toList ∧ isControl 'u' = false ∧ isLineEnd 'u' = false) ∧
      ("click", Handler.single ⟨"f", none⟩) ∈
        (EventTable.ofList [("click", .single ⟨"f", none⟩)]).entries ∧
      scriptRules.literal? (EventTable.entrySource ("click", .single ⟨"f", none⟩)).toList =
        some ("click".toList, ":f".toList)) := by
  obtain ⟨⟨hjson, hscript⟩, hinjective, htables, hclean, -⟩ :=
    quote_read_back "\\\"\u2028\x7f0" ['1']
  have hletter : 'u' ∈ (quote "\\\"\u2028\x7f0").toList := by decide +kernel
  have hentry : ("click", Handler.single ⟨"f", none⟩) ∈
      (EventTable.ofList [("click", .single ⟨"f", none⟩)]).entries := by decide +kernel
  refine ⟨⟨by decide +kernel, hjson, hscript⟩, fun h => absurd (hinjective _ h) (by decide +kernel),
    ⟨hletter, hclean _ hletter⟩, hentry, ((htables _).2 _ hentry).trans (by decide +kernel)⟩

end EventMarkup
