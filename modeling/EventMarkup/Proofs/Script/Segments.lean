import EventMarkup.Proofs.Peg.Covering
import EventMarkup.Script.Literal

/-!
# Texts in segments

A text whose literals are all closed is code, strings and templates one after the other, and a
template is text with holes, in each of which stands such a text again. `Segments` describes these
texts as trees, apart from the grammar of literals. The grammar takes such a text along its tree, at
any depth, so `withoutLiterals` changes it in its strings and in its template text and nowhere else
(`withoutLiterals_spelling`).

The grammar looks for the end of a hole brace by brace, each pair a level of its own, whereas a tree
only counts how many braces stand open. `StripsNested` is what joins the two: it reads a text from
within a number of open braces.
-/

namespace EventMarkup.Script

open Peg Peg.Pattern

/-! ## Segments -/

/-- One place of a literal: a character that stands for itself, or one behind a backslash. -/
inductive Piece where
  /-- A character that stands for itself. -/
  | plain (c : Char)
  /-- A backslash and the character behind it. -/
  | escaped (c : Char)
  deriving DecidableEq

namespace Piece

def spelling : Piece → List Char
  | .plain c => [c]
  | .escaped c => ['\\', c]

/-- Whether a piece is escaped or may stand for itself. -/
def fits (ok : Char → Bool) : Piece → Bool
  | .plain c => ok c
  | .escaped _ => true

end Piece

def spellPieces (content : List Piece) : List Char := content.flatMap Piece.spelling

mutual

/-- A text as a sequence of segments. -/
inductive Segments where
  /-- The end of the text. -/
  | nil
  /-- A character of code. -/
  | code (c : Char) (more : Segments)
  /-- A string between two equal marks. -/
  | string (mark : Char) (content : List Piece) (more : Segments)
  /-- A template: its text up to the first hole, and its holes. -/
  | template (run : List Piece) (holes : Holes) (more : Segments)

/-- The holes of a template. -/
inductive Holes where
  /-- The end of the template. -/
  | nil
  /-- A hole, and the text from there to the next one. -/
  | hole (content : Segments) (run : List Piece) (more : Holes)

end

section Written

variable (string : Char → List Piece → List Char) (text : List Piece → List Char)

mutual

/-- Segments in their order, with strings and template text written in the given ways. -/
def Segments.written : Segments → List Char
  | .nil => []
  | .code c more => c :: more.written
  | .string mark content more => string mark content ++ more.written
  | .template run holes more =>
    '\x60' :: (text run ++ (holes.written ++ '\x60' :: more.written))

/-- Holes with the text between them, written in the same way. -/
def Holes.written : Holes → List Char
  | .nil => []
  | .hole content run more =>
    '$' :: '\x7b' :: (content.written ++ '\x7d' :: (text run ++ more.written))

end

end Written

def spellString (mark : Char) (content : List Piece) : List Char :=
  mark :: (spellPieces content ++ [mark])

/-- A space for a stretch of template text. -/
def coverRun (run : List Piece) : List Char := if run.isEmpty then [] else [' ']

def Segments.spelling (s : Segments) : List Char := s.written spellString spellPieces

/-- The same text with a space for every string and for every stretch of template text. -/
def Segments.stripped (s : Segments) : List Char := s.written (fun _ _ => [' ']) coverRun

def Holes.spelling (h : Holes) : List Char := h.written spellString spellPieces

def Holes.stripped (h : Holes) : List Char := h.written (fun _ _ => [' ']) coverRun

/-! ### Well-formed segments -/

def isCodeChar (c : Char) : Bool := !(c == '\'' || c == '"' || c == '\x60')

theorem isCodeChar_iff {c : Char} :
    isCodeChar c = true ↔ (c ≠ '\'' ∧ c ≠ '"') ∧ c ≠ '\x60' := by
  simp [isCodeChar]

/-- Whether pieces may stand between two marks: neither the mark nor a backslash stands for
itself. -/
def isStringText (mark : Char) (content : List Piece) : Bool :=
  content.all (Piece.fits fun c => !(c == mark || c == '\\'))

/-- Whether pieces may be the text of a template: neither a backquote nor a backslash stands for
itself, and no dollar sign is followed by an opening brace. -/
def isTemplateText : List Piece → Bool
  | [] => true
  | p :: more =>
    p.fits (fun c => !(c == '\x60' || c == '\\')) &&
      !(p == .plain '$' && more.head? == some (.plain '\x7b')) && isTemplateText more

/-- Whether the braces in the code are balanced, where some stand open on the left. Those in the
holes of templates count for themselves. -/
def Segments.balanced : Nat → Segments → Bool
  | n, .nil => n == 0
  | n, .code c more =>
    if c = '\x7b' then more.balanced (n + 1)
    else if c = '\x7d' then 0 < n && more.balanced (n - 1)
    else more.balanced n
  | n, .string _ _ more => more.balanced n
  | n, .template _ _ more => more.balanced n

mutual

/-- Whether every segment is what it should be, at any depth. -/
def Segments.wellFormed : Segments → Bool
  | .nil => true
  | .code c more => isCodeChar c && more.wellFormed
  | .string mark content more =>
    (mark == '\'' || mark == '"') && isStringText mark content && more.wellFormed
  | .template run holes more => isTemplateText run && holes.wellFormed && more.wellFormed

def Holes.wellFormed : Holes → Bool
  | .nil => true
  | .hole content run more =>
    content.balanced 0 && content.wellFormed && isTemplateText run && more.wellFormed

end

/-! ## Strings -/

def literalOrderly : literalGrammar.Orderly where
  empty r := r == .hole || r == .script
  nest r := match r with
    | .string => 20
    | .template => 20
    | .templateText => 20
    | .hole => 50
    | .script => 50
  empty_body r := by cases r <;> decide
  nest_body r := by cases r <;> decide
  nest_lt r := by cases r <;> decide
  tame_body r := by cases r <;> decide

section Marks

variable {c mark : Char} {s rest : List Char}

theorem fails_mark (h : mark ≠ c) : Fails LiteralRule.pattern (.text [mark]) (c :: s) :=
  Fails.text (by simp [Text.dropFront?, h])

theorem matches_escape (c : Char) (rest : List Char) :
    Matches LiteralRule.pattern LiteralRule.escape ('\\' :: c :: rest) rest :=
  (Matches.text ['\\'] (c :: rest)).both (Matches.one rfl rest)

theorem fails_escape (h : c ≠ '\\') : Fails LiteralRule.pattern LiteralRule.escape (c :: s) :=
  (fails_mark h.symm).both

theorem matches_stringBetween (hmark : mark ≠ '\\') {content : List Piece}
    (h : isStringText mark content = true) (rest : List Char) :
    Matches LiteralRule.pattern (LiteralRule.stringBetween mark)
      (spellString mark content ++ rest) rest := by
  have hcontent : Matches LiteralRule.pattern
      (.star (.either LiteralRule.escape (.one fun c => !(c == mark || c == '\\'))))
      (spellPieces content ++ mark :: rest) (mark :: rest) := by
    induction content with
    | nil => exact ((fails_escape hmark).either (Fails.one (by simp))).enough
    | cons p content ih =>
      obtain ⟨hp, hcontent⟩ := List.all_cons.symm.trans h |> (Bool.and_eq_true _ _).mp
      cases p with
      | plain c =>
        have hc : c ≠ '\\' := by
          rintro rfl
          simp [Piece.fits] at hp
        exact ((fails_escape hc).either_matches (Matches.one hp _)).more (ih hcontent)
      | escaped c => exact (matches_escape c _).either.more (ih hcontent)
  have hspell :
      spellString mark content ++ rest = [mark] ++ (spellPieces content ++ mark :: rest) := by
    simp [spellString]
  rw [hspell]
  exact (Matches.text [mark] _).both (hcontent.both (Matches.text [mark] rest))

theorem matches_string (hmark : mark = '\'' ∨ mark = '"') {content : List Piece}
    (h : isStringText mark content = true) (rest : List Char) :
    Matches LiteralRule.pattern (LiteralRule.pattern .string)
      (spellString mark content ++ rest) rest := by
  rcases hmark with rfl | rfl
  · exact (matches_stringBetween (by decide) h rest).either
  · exact Fails.either_matches (fails_mark (by decide)).both
      (matches_stringBetween (by decide) h rest)

theorem fails_string (hc : c ≠ '\'' ∧ c ≠ '"') :
    Fails LiteralRule.pattern (.rule .string) (c :: s) :=
  .rule ((fails_mark hc.1.symm).both.either (fails_mark hc.2.symm).both)

theorem fails_template (hc : c ≠ '\x60') :
    Fails LiteralRule.pattern (.rule .template) (c :: s) :=
  .rule (fails_mark hc.symm).both

end Marks

/-! ## Template text -/

/-- What may stand behind a stretch of template text: the end of the template or a hole. -/
def IsRunEnd (s : List Char) : Prop :=
  (∃ t, s = '\x60' :: t) ∨ ∃ t, s = '$' :: '\x7b' :: t

/-- One place of template text. -/
abbrev LiteralRule.runPiece : Pattern LiteralRule :=
  oneOf
    [escape, .both (lit "$") (.notAhead (lit "\x7b")),
      .one fun c => !(c == '\x60' || c == '\\' || c == '$')]

section Runs

variable {s rest : List Char} {run : List Piece}

theorem fails_runPiece (h : IsRunEnd s) : Fails LiteralRule.pattern LiteralRule.runPiece s := by
  rcases h with ⟨t, rfl⟩ | ⟨t, rfl⟩
  · have hdollar : Fails LiteralRule.pattern (lit "$") ('\x60' :: t) := fails_mark (by decide)
    exact (fails_escape (by decide)).either (hdollar.both.either (Fails.one (by simp)))
  · have hdollar : Matches LiteralRule.pattern (lit "$") ('$' :: '\x7b' :: t) ('\x7b' :: t) :=
      Matches.text ['$'] _
    have hbrace : Matches LiteralRule.pattern (lit "\x7b") ('\x7b' :: t) t :=
      Matches.text ['\x7b'] t
    exact (fails_escape (by decide)).either
      ((hdollar.both_fails hbrace.notAhead).either (Fails.one (by simp)))

theorem matches_runPiece_dollar (h : ∀ c ∈ s.head?, c ≠ '\x7b') :
    Matches LiteralRule.pattern LiteralRule.runPiece ('$' :: s) s := by
  have hbrace : Fails LiteralRule.pattern (lit "\x7b") s := by
    cases s with
    | nil => exact Fails.text rfl
    | cons c s => exact fails_mark (h c rfl).symm
  have hdollar : Matches LiteralRule.pattern (lit "$") ('$' :: s) s := Matches.text ['$'] s
  exact (fails_escape (by decide)).either_matches (hdollar.both hbrace.notAhead).either

theorem matches_runPiece_plain {c : Char} (hc : c ≠ '\x60' ∧ c ≠ '\\' ∧ c ≠ '$') :
    Matches LiteralRule.pattern LiteralRule.runPiece (c :: s) s := by
  have hdollar : Fails LiteralRule.pattern (lit "$") (c :: s) := fails_mark hc.2.2.symm
  exact (fails_escape hc.2.1).either_matches
    (hdollar.both.either_matches (Matches.one (by simp [hc]) s))

theorem head?_ne_brace (hrun : run.head? ≠ some (.plain '\x7b')) (hrest : IsRunEnd rest) :
    ∀ c ∈ (spellPieces run ++ rest).head?, c ≠ '\x7b' := by
  cases run with
  | nil => rcases hrest with ⟨t, rfl⟩ | ⟨t, rfl⟩ <;> simp [spellPieces]
  | cons p run => cases p <;> simp_all [spellPieces, Piece.spelling]

theorem matches_star_runPiece (h : isTemplateText run = true) (hrest : IsRunEnd rest) :
    Matches LiteralRule.pattern (.star LiteralRule.runPiece) (spellPieces run ++ rest) rest := by
  induction run with
  | nil => exact (fails_runPiece hrest).enough
  | cons p run ih =>
    simp only [isTemplateText, Bool.and_eq_true] at h
    obtain ⟨⟨hp, hdollar⟩, hrun⟩ := h
    have hmore := ih hrun
    cases p with
    | escaped c => exact (matches_escape c _).either.more hmore
    | plain c =>
      by_cases hc : c = '$'
      · subst hc
        have hnext : run.head? ≠ some (.plain '\x7b') := by simpa using hdollar
        exact (matches_runPiece_dollar (head?_ne_brace hnext hrest)).more hmore
      · have hc' : c ≠ '\x60' ∧ c ≠ '\\' := by simpa [Piece.fits] using hp
        exact (matches_runPiece_plain ⟨hc'.1, hc'.2, hc⟩).more hmore

theorem matches_templateText (hne : run ≠ []) (h : isTemplateText run = true)
    (hrest : IsRunEnd rest) :
    Matches LiteralRule.pattern (LiteralRule.pattern .templateText)
      (spellPieces run ++ rest) rest := by
  rcases matches_star_iff.1 (matches_star_runPiece h hrest) with ⟨t, hfirst, hmore⟩ | ⟨hfails, heq⟩
  · exact hfirst.both hmore
  · cases run with
    | nil => exact absurd rfl hne
    | cons p run =>
      have hlength := congrArg List.length heq
      cases p <;> simp [spellPieces, Piece.spelling] at hlength <;> omega

theorem fails_templateText (h : IsRunEnd s) :
    Fails LiteralRule.pattern (.rule .templateText) s :=
  .rule (fails_runPiece h).both

end Runs

/-! ## Templates and holes -/

/-- What a pattern of the grammar of literals takes, with a space for what is literal text. -/
abbrev Strips (p : Pattern LiteralRule) (s out rest : List Char) : Prop :=
  Covers LiteralRule.pattern LiteralRule.isText ' ' p s out rest

namespace LiteralRule

abbrev templatePart : Pattern LiteralRule :=
  .either (.rule .templateText) (joined [lit "$\x7b", .rule .hole, lit "\x7d"])

/-- A part of a text outside of every template. -/
abbrev scriptPart : Pattern LiteralRule := oneOf [.rule .string, .rule .template, anyChar]

abbrev holePart : Pattern LiteralRule :=
  oneOf
    [.rule .string, .rule .template, joined [lit "\x7b", .rule .hole, lit "\x7d"],
      .one fun c => !(c == '\x7b' || c == '\x7d')]

end LiteralRule

open LiteralRule

section Parts

variable {c : Char} {s t out rest : List Char} {n : Nat}

theorem strips_string {mark : Char} (hmark : (mark == '\'' || mark == '"') = true)
    {content : List Piece} (h : isStringText mark content = true) (rest : List Char) :
    Strips (.rule .string) (spellString mark content ++ rest) [' '] rest := by
  have hmark : mark = '\'' ∨ mark = '"' := by simpa using hmark
  exact Matches.covers rfl (matches_string hmark h rest)

theorem strips_run {run : List Piece} (h : isTemplateText run = true) (hs : IsRunEnd s)
    (hmore : Strips (.star templatePart) s out rest) :
    Strips (.star templatePart) (spellPieces run ++ s) (coverRun run ++ out) rest := by
  cases run with
  | nil => exact hmore
  | cons p run =>
    have hrun : Strips (.rule .templateText) (spellPieces (p :: run) ++ s) [' '] s :=
      (matches_templateText (by simp) h hs).covers rfl
    exact hrun.either.more hmore

theorem strips_hole (hhole : Strips (.star holePart) s out ('\x7d' :: rest)) :
    Strips templatePart ('$' :: '\x7b' :: s) ('$' :: '\x7b' :: (out ++ ['\x7d'])) rest := by
  have hrule : Strips (.rule .hole) s out ('\x7d' :: rest) := Covers.rule rfl hhole
  exact (fails_templateText (.inr ⟨s, rfl⟩)).either_covers
    (Covers.between ['$', '\x7b'] ['\x7d'] hrule)

theorem strips_templateEnd (s : List Char) :
    Strips (.star templatePart) ('\x60' :: s) [] ('\x60' :: s) := by
  have hopen : Fails LiteralRule.pattern (lit "$\x7b") ('\x60' :: s) := Fails.text rfl
  exact ((fails_templateText (.inl ⟨s, rfl⟩)).either hopen.both).covers_star

theorem strips_template (h : Strips (.star templatePart) s out ('\x60' :: rest)) :
    Strips (.rule .template) ('\x60' :: s) ('\x60' :: (out ++ ['\x60'])) rest :=
  Covers.rule rfl (Covers.between ['\x60'] ['\x60'] h)

theorem strips_holePart_template (h : Strips (.rule .template) ('\x60' :: s) out rest) :
    Strips holePart ('\x60' :: s) out rest :=
  (fails_string (by decide)).either_covers h.either

theorem strips_scriptPart_template (h : Strips (.rule .template) ('\x60' :: s) out rest) :
    Strips scriptPart ('\x60' :: s) out rest :=
  (fails_string (by decide)).either_covers h.either

theorem strips_scriptPart_code (hc : isCodeChar c = true) : Strips scriptPart (c :: s) [c] s := by
  obtain ⟨hquote, htick⟩ := isCodeChar_iff.1 hc
  exact (fails_string hquote).either_covers
    ((fails_template htick).either_covers (Covers.one rfl s))

theorem strips_holePart_code (hc : isCodeChar c = true) (hbrace : c ≠ '\x7b' ∧ c ≠ '\x7d') :
    Strips holePart (c :: s) [c] s := by
  obtain ⟨hquote, htick⟩ := isCodeChar_iff.1 hc
  have hopen : Fails LiteralRule.pattern (lit "\x7b") (c :: s) := fails_mark hbrace.1.symm
  exact (fails_string hquote).either_covers ((fails_template htick).either_covers
    (hopen.both.either_covers (Covers.one (by simp [hbrace]) s)))

theorem strips_holePart_braces (h : Strips (.star holePart) s out ('\x7d' :: rest)) :
    Strips holePart ('\x7b' :: s) ('\x7b' :: (out ++ ['\x7d'])) rest := by
  have hrule : Strips (.rule .hole) s out ('\x7d' :: rest) := Covers.rule rfl h
  exact (fails_string (by decide)).either_covers ((fails_template (by decide)).either_covers
    (Covers.between ['\x7b'] ['\x7d'] hrule).either)

theorem strips_holeEnd (s : List Char) :
    Strips (.star holePart) ('\x7d' :: s) [] ('\x7d' :: s) := by
  have hopen : Fails LiteralRule.pattern (lit "\x7b") ('\x7d' :: s) := fails_mark (by decide)
  exact ((fails_string (by decide)).either ((fails_template (by decide)).either
    (hopen.both.either (Fails.one (by simp))))).covers_star

end Parts

/-! ## Open braces -/

/-- What the grammar takes of a hole from within `n` pairs of braces: the parts up to the brace
that closes the innermost pair, this brace, and so on until no pair is open. -/
def StripsNested : Nat → List Char → List Char → List Char → Prop
  | 0, s, out, rest => Strips (.star holePart) s out rest
  | n + 1, s, out, rest => ∃ inner t outer,
    Strips (.star holePart) s inner ('\x7d' :: t) ∧ StripsNested n t outer rest ∧
      out = inner ++ '\x7d' :: outer

section Nested

variable {s t out out' rest : List Char} {n : Nat}

theorem StripsNested.part (hpart : Strips holePart s out t) (h : StripsNested n t out' rest) :
    StripsNested n s (out ++ out') rest := by
  cases n with
  | zero => exact hpart.more h
  | succ n =>
    obtain ⟨inner, u, outer, hinner, houter, rfl⟩ := h
    exact ⟨out ++ inner, u, outer, hpart.more hinner, houter, (List.append_assoc _ _ _).symm⟩

theorem StripsNested.opening (h : StripsNested (n + 1) s out rest) :
    StripsNested n ('\x7b' :: s) ('\x7b' :: out) rest := by
  obtain ⟨inner, u, outer, hinner, houter, rfl⟩ := h
  simpa using StripsNested.part (strips_holePart_braces hinner) houter

theorem StripsNested.closing (h : StripsNested n s out rest) :
    StripsNested (n + 1) ('\x7d' :: s) ('\x7d' :: out) rest :=
  ⟨[], s, out, strips_holeEnd s, h, rfl⟩

end Nested

/-! ## Whole texts -/

theorem Holes.isRunEnd (holes : Holes) (rest : List Char) :
    IsRunEnd (holes.spelling ++ '\x60' :: rest) := by
  cases holes with
  | nil => exact .inl ⟨rest, rfl⟩
  | hole content run more => exact .inr ⟨_, rfl⟩

theorem strips_template_of_holes {run : List Piece} {holes : Holes} {rest : List Char}
    (hrun : isTemplateText run = true)
    (hholes : Strips (.star templatePart) (holes.spelling ++ '\x60' :: rest) holes.stripped
      ('\x60' :: rest)) :
    Strips (.rule .template)
      ('\x60' :: (spellPieces run ++ (holes.spelling ++ '\x60' :: rest)))
      ('\x60' :: (coverRun run ++ holes.stripped ++ ['\x60'])) rest :=
  strips_template (strips_run hrun (holes.isRunEnd rest) hholes)

theorem StripsNested.code {c : Char} {more : Segments} {n : Nat} {s out rest : List Char}
    (hbalanced : (Segments.code c more).balanced n = true) (hc : isCodeChar c = true)
    (h : ∀ m, more.balanced m = true → StripsNested m s out rest) :
    StripsNested n (c :: s) (c :: out) rest := by
  rw [Segments.balanced] at hbalanced
  split at hbalanced
  next hopen =>
    subst hopen
    exact (h (n + 1) hbalanced).opening
  next hopen =>
    split at hbalanced
    next hclose =>
      subst hclose
      obtain ⟨hpos, hmore⟩ : 0 < n ∧ more.balanced (n - 1) = true := by simpa using hbalanced
      obtain ⟨n, rfl⟩ := Nat.exists_eq_add_one.2 hpos
      exact (h n hmore).closing
    next hclose => exact (h n hbalanced).part (strips_holePart_code hc ⟨hopen, hclose⟩)

mutual

theorem Segments.stripsNested (s : Segments) (h : s.wellFormed = true) (n : Nat)
    (hbalanced : s.balanced n = true) (rest : List Char) :
    StripsNested n (s.spelling ++ '\x7d' :: rest) s.stripped ('\x7d' :: rest) := by
  match s with
  | .nil =>
    obtain rfl : n = 0 := by simpa [Segments.balanced] using hbalanced
    exact strips_holeEnd rest
  | .code c more =>
    obtain ⟨hc, hmore⟩ : isCodeChar c = true ∧ more.wellFormed = true := by
      simpa [Segments.wellFormed] using h
    exact StripsNested.code hbalanced hc fun m hm => more.stripsNested hmore m hm rest
  | .string mark content more =>
    simp only [Segments.wellFormed, Bool.and_eq_true] at h
    obtain ⟨⟨hmark, hcontent⟩, hmore⟩ := h
    have hstring := strips_string hmark hcontent (more.spelling ++ '\x7d' :: rest)
    have hrest := more.stripsNested hmore n (by simpa [Segments.balanced] using hbalanced) rest
    simpa [Segments.spelling, Segments.stripped, Segments.written] using
      StripsNested.part hstring.either hrest
  | .template run holes more =>
    simp only [Segments.wellFormed, Bool.and_eq_true] at h
    obtain ⟨⟨hrun, hholes⟩, hmore⟩ := h
    have htemplate := strips_template_of_holes hrun
      (holes.strips hholes (more.spelling ++ '\x7d' :: rest))
    have hrest := more.stripsNested hmore n (by simpa [Segments.balanced] using hbalanced) rest
    simpa [Segments.spelling, Segments.stripped, Segments.written, Holes.spelling, Holes.stripped]
      using StripsNested.part (strips_holePart_template htemplate) hrest

theorem Holes.strips (holes : Holes) (h : holes.wellFormed = true) (rest : List Char) :
    Strips (.star templatePart) (holes.spelling ++ '\x60' :: rest) holes.stripped
      ('\x60' :: rest) := by
  match holes with
  | .nil => exact strips_templateEnd rest
  | .hole content run more =>
    simp only [Holes.wellFormed, Bool.and_eq_true] at h
    obtain ⟨⟨⟨hbalanced, hcontent⟩, hrun⟩, hmore⟩ := h
    have hrest := strips_run hrun (more.isRunEnd rest) (more.strips hmore rest)
    have hhole := strips_hole (content.stripsNested hcontent 0 hbalanced
      (spellPieces run ++ (more.spelling ++ '\x60' :: rest)))
    simpa [Segments.spelling, Segments.stripped, Holes.spelling, Holes.stripped, Holes.written]
      using hhole.more hrest

end

/-- The grammar takes a whole text along its segments. -/
theorem Segments.strips (s : Segments) (h : s.wellFormed = true) :
    Strips (.star scriptPart) s.spelling s.stripped [] := by
  match s with
  | .nil =>
    have hstring : Fails LiteralRule.pattern (.rule .string) [] :=
      .rule ((Fails.text rfl).both.either (Fails.text rfl).both)
    have htemplate : Fails LiteralRule.pattern (.rule .template) [] := .rule (Fails.text rfl).both
    exact (hstring.either (htemplate.either (Fails.one (by simp)))).covers_star
  | .code c more =>
    simp only [Segments.wellFormed, Bool.and_eq_true] at h
    exact (strips_scriptPart_code h.1).more (more.strips h.2)
  | .string mark content more =>
    simp only [Segments.wellFormed, Bool.and_eq_true] at h
    obtain ⟨⟨hmark, hcontent⟩, hmore⟩ := h
    exact (strips_string hmark hcontent more.spelling).either.more (more.strips hmore)
  | .template run holes more =>
    simp only [Segments.wellFormed, Bool.and_eq_true] at h
    obtain ⟨⟨hrun, hholes⟩, hmore⟩ := h
    have htemplate := strips_template_of_holes hrun (holes.strips hholes more.spelling)
    simpa [Segments.spelling, Segments.stripped, Segments.written, Holes.spelling, Holes.stripped]
      using (strips_scriptPart_template htemplate).more (more.strips hmore)

/-- Stripping a text with closed literals leaves a space for each of its strings and for each of
its stretches of template text, and everything else as it was. -/
theorem Segments.withoutLiterals_spelling (s : Segments) (h : s.wellFormed = true) :
    withoutLiterals s.spelling = s.stripped := by
  have hscript : Strips (.rule .script) s.spelling (s.stripped ++ []) [] :=
    Covers.rule rfl ((s.strips h).both Covers.atEnd)
  obtain ⟨ts, w, far, hrun, hout⟩ := literalOrderly.coveredAll_of_covers hscript
  rw [withoutLiterals, hrun]
  simpa using hout

end EventMarkup.Script
