import EventMarkup.Proofs.Script.Front
import EventMarkup.Proofs.Script.Inside
import EventMarkup.Proofs.Script.Foresight
import Mathlib.Data.List.TakeWhile
import Mathlib.Logic.Relation
import Mathlib.Tactic.ByContra

/-!
# Scripts without slashes

A script without slashes has no comments and no regular expressions, so its brackets can be told
from its characters: all of them count but those in strings and in template text. `pass` goes over
such a script and keeps account of what is open, and it agrees with the grammar in this
(`passes_of_trace`). The grammar tries a closing bracket only where it is the one to come. So what
it takes of a script that closes all it opens does not depend on what follows behind a closing
bracket (`framed_of_trace`). A list of statements ends at the end of a script as it does in front of
a curly brace, but not in front of another bracket; `idle` says that there may be such a list.
-/

namespace EventMarkup.Script

open Peg Text

/-- What a part of a script may stand in. -/
inductive Enclosure where
  | round
  | square
  | curly
  /-- The hole of a template. -/
  | hole
  deriving DecidableEq, Repr

/-- What is known of a place in a script: whether it is in template text, and what is open there. -/
structure Level where
  quasi : Bool
  opened : List Enclosure
  deriving DecidableEq, Repr

def Level.ground : Level := ⟨false, []⟩

/-- The level as seen from where more is open. -/
def Level.over (base : List Enclosure) (a : Level) : Level := ⟨a.quasi, a.opened ++ base⟩

/-- The level behind a character of code, if the character is in place there and begins no string. -/
def enter (st : List Enclosure) : Char → Option Level
  | '(' => some ⟨false, .round :: st⟩
  | '[' => some ⟨false, .square :: st⟩
  | '\x7b' => some ⟨false, .curly :: st⟩
  | ')' =>
    match st with
    | .round :: st => some ⟨false, st⟩
    | _ => none
  | ']' =>
    match st with
    | .square :: st => some ⟨false, st⟩
    | _ => none
  | '\x7d' =>
    match st with
    | .curly :: st => some ⟨false, st⟩
    | .hole :: st => some ⟨true, st⟩
    | _ => none
  | '\x60' => some ⟨true, st⟩
  | '\'' | '"' => none
  | _ => some ⟨false, st⟩

/-- The characters that are more than themselves in code. -/
def signs : List Char := ['(', ')', '[', ']', '\x7b', '\x7d', '\x60', '\'', '"']

/-- Passes over a string or a character of code, or over a piece of template text or a mark in it. -/
def pass : Level × List Char → Option (Level × List Char)
  | (⟨true, st⟩, s) =>
    match templatePiece? s with
    | some rest => some (⟨true, st⟩, rest)
    | none =>
      match s with
      | '\x60' :: t => some (⟨false, st⟩, t)
      | '$' :: '\x7b' :: t => some (⟨false, .hole :: st⟩, t)
      | _ => none
  | (⟨false, st⟩, s) =>
    match string? s with
    | some rest => some (⟨false, st⟩, rest)
    | none =>
      match s with
      | [] => none
      | c :: t => (enter st c).map (·, t)

/-- One place is reached from another by passing over what is between. -/
def Passes : Level × List Char → Level × List Char → Prop :=
  Relation.ReflTransGen fun p q => pass p = some q

/-- All that is open in front of a text is closed in it, and nothing besides is left open. -/
def Closes (a : Level) (s : List Char) : Prop := Passes (a, s) (.ground, [])

variable {st base : List Enclosure} {s t rest w : List Char} {a b : Level} {idle : Bool}

theorem Passes.single {p q : Level × List Char} (h : pass p = some q) : Passes p q :=
  Relation.ReflTransGen.single h

theorem Passes.trans {p q r : Level × List Char} (h : Passes p q) (hq : Passes q r) : Passes p r :=
  Relation.ReflTransGen.trans h hq

theorem Passes.total {p q r : Level × List Char} (hq : Passes p q) (hr : Passes p r) :
    Passes q r ∨ Passes r q :=
  Relation.ReflTransGen.total_of_right_unique
    (fun _ _ _ h h' => Option.some.inj (h.symm.trans h')) hq hr

theorem Passes.eq_of_pass {p q : Level × List Char} (h : Passes p q) (hp : pass p = none) :
    q = p := by
  rcases Relation.ReflTransGen.cases_head h with h | ⟨r, hr, -⟩
  · exact h.symm
  · rw [hp] at hr
    cases hr

theorem Passes.closes (h : Passes (a, s) (b, t)) (hs : Closes a s) : Closes b t := by
  rcases Passes.total h hs with h | h
  · exact h
  · cases Passes.eq_of_pass h rfl
    exact Relation.ReflTransGen.refl

/-! ## Characters and tokens -/

theorem enter_of_not_mem_signs {c : Char} (h : c ∉ signs) : enter st c = some ⟨false, st⟩ := by
  simp only [signs, List.mem_cons, List.not_mem_nil, or_false, not_or] at h
  unfold enter
  split <;> simp_all

theorem string?_of_not_mem_signs {c : Char} (h : c ∉ signs) : string? (c :: t) = none := by
  refine string?_eq_none ⟨?_, ?_⟩ <;> rintro rfl <;> exact h (by decide)

theorem pass_char {c : Char} (hc : c ≠ '\'' ∧ c ≠ '"') :
    pass (⟨false, st⟩, c :: t) = (enter st c).map (·, t) := by
  simp only [pass, string?_eq_none hc]

theorem passes_plain (h : ∀ c ∈ w, c ∉ signs) : Passes (⟨false, st⟩, w ++ t) (⟨false, st⟩, t) := by
  induction w with
  | nil => exact Relation.ReflTransGen.refl
  | cons c w ih =>
    have hc := h c List.mem_cons_self
    refine Passes.trans (.single ?_) (ih fun d hd => h d (List.mem_cons_of_mem c hd))
    show pass (⟨false, st⟩, c :: (w ++ t)) = _
    simp only [pass, string?_of_not_mem_signs hc, enter_of_not_mem_signs hc, Option.map_some]

theorem passes_string (h : string? s = some rest) : Passes (⟨false, st⟩, s) (⟨false, st⟩, rest) := by
  refine .single ?_
  simp only [pass, h]

theorem passes_templateText (h : templateText? s = some rest) :
    Passes (⟨true, st⟩, s) (⟨true, st⟩, rest) := by
  have hpiece : ∀ {s rest}, templatePiece? s = some rest →
      pass (⟨true, st⟩, s) = some (⟨true, st⟩, rest) := by
    intro s rest h
    simp only [pass, h]
  obtain ⟨t, ht, hrest⟩ := Option.bind_eq_some_iff.1 h
  cases hrest
  refine .trans (.single (hpiece ht)) ?_
  clear h ht
  fun_induction repeated templatePiece? t with
  | case1 s rest hs hlt ih => exact .trans (.single (hpiece hs)) ih
  | case2 s rest hs hlt => exact Relation.ReflTransGen.refl
  | case3 s hs => exact Relation.ReflTransGen.refl

theorem not_closes_of_string?_eq_none {c : Char} (hc : c = '\'' ∨ c = '"')
    (h : string? (c :: t) = none) : ¬ Closes ⟨false, st⟩ (c :: t) := by
  intro hcloses
  have hnone : pass (⟨false, st⟩, c :: t) = none := by
    simp only [pass, h]
    rcases hc with rfl | rfl <;> rfl
  have heq := hcloses.eq_of_pass hnone
  cases heq

theorem Closes.quasi (h : Closes ⟨true, st⟩ s) (hs : templatePiece? s = none) :
    (∃ t, s = '\x60' :: t) ∨ ∃ t, s = '$' :: '\x7b' :: t := by
  by_contra hne
  have hnone : pass (⟨true, st⟩, s) = none := by
    simp only [pass, hs]
    split
    · exact absurd (.inl ⟨_, rfl⟩) hne
    · exact absurd (.inr ⟨_, rfl⟩) hne
    · rfl
  have heq := Passes.eq_of_pass h hnone
  cases heq

theorem not_closes_nil (h : a ≠ .ground) : ¬ Closes a [] := by
  intro hcloses
  obtain ⟨q, st⟩ := a
  have hnone : pass (⟨q, st⟩, []) = none := by cases q <;> rfl
  have heq := Passes.eq_of_pass hcloses hnone
  cases heq
  exact h rfl

/-! ## Levels behind tokens and shapes -/

def Mark.sign? : Mark → Option Char
  | .openRound => some '('
  | .closeRound => some ')'
  | .openSquare => some '['
  | .closeSquare => some ']'
  | .openCurly => some '\x7b'
  | .closeCurly => some '\x7d'
  | .backquote => some '\x60'
  | _ => none

def Leaf.isPlain (l : Leaf) : Bool := l.pattern.shuns [] && signs.all fun c => l.pattern.shuns [c]

/-- The level behind a token, where the token may be tried. -/
def trace (idle : Bool) (a : Level) (l : Leaf) : Option Level :=
  if a.quasi then
    match l with
    | .templateText => some a
    | .mark .backquote => some ⟨false, a.opened⟩
    | .mark .hole => some ⟨false, .hole :: a.opened⟩
    | _ => none
  else
    match l with
    | .gap | .string | .regex => some a
    | .pause => if idle || !a.opened.isEmpty then some a else none
    | .mark m =>
      match m.sign? with
      | some c => enter a.opened c
      | none => if (Leaf.mark m).isPlain then some a else none
    | l => if l.isPlain then some a else none

/-- The level that a rule is tried at. Statements stand in braces, unless they may be idle. -/
def Rule.level (idle : Bool) : Rule → Level
  | .templateHole => ⟨true, []⟩
  | .statement | .emptyStatement | .block | .ifStatement | .whileStatement | .doStatement
  | .forStatement | .switchStatement | .caseClause | .tryStatement | .catchClause
  | .finallyClause | .simpleStatement | .terminator => ⟨false, if idle then [] else [.curly]⟩
  | _ => .ground

/-- The level behind a shape, where all that the shape consists of may be tried. -/
def traceShape (idle : Bool) : Shape → Level → Option Level
  | .nothing, a => some a
  | .leaf l, a => trace idle a l
  | .rule r, a =>
    if r ≠ .body ∧ (r.level idle).quasi = a.quasi ∧ (r.level idle).opened <+: a.opened then some a
    else none
  | .both x y, a => (traceShape idle x a).bind (traceShape idle y)
  | .either x y, a =>
    if traceShape idle x a = traceShape idle y a then traceShape idle x a else none
  | .star x, a => if traceShape idle x a = some a then some a else none
  | .phrase x, a => traceShape idle x a

theorem traceShape_ofRule {r : Rule} (h : r ≠ .body) :
    traceShape idle (Shape.ofRule r) (r.level idle) = some (r.level idle) := by
  cases r <;> first | exact absurd rfl h | cases idle <;> decide +kernel

/-! ## What tokens pass over -/

theorem enter_over {c : Char} (h : enter st c = some a) :
    enter (st ++ base) c = some (a.over base) := by
  unfold enter at h ⊢
  split at h <;> first | (cases h; rfl) | cases h | (split at h <;> cases h <;> rfl)

theorem comment?_of_not_mem (h : '/' ∉ s) : comment? s = none := by
  cases s with
  | nil => rfl
  | cons c s => exact comment?_eq_none (List.ne_of_not_mem_cons h).symm

theorem skipGap_of_not_mem (h : '/' ∉ s) : skipGap s = skipGapBlanks s := by
  unfold skipGap
  split
  · rename_i hc
    have hmem : '/' ∉ skipGapBlanks s := fun hmem => h ((List.dropWhile_suffix _).subset hmem)
    rw [comment?_of_not_mem hmem] at hc
    cases hc
  · rfl

theorem isGapBlank_signs : ∀ c ∈ signs, isGapBlank c = false := by
  have hall : (signs.all fun c => isGapBlank c == false) = true := by decide
  simpa only [List.all_eq_true, beq_iff_eq] using hall

theorem passes_gap (st : List Enclosure) (h : '/' ∉ s) : Passes (⟨false, st⟩, s) (⟨false, st⟩, skipGap s) := by
  have happ : s.takeWhile isGapBlank ++ skipGapBlanks s = s := List.takeWhile_append_dropWhile
  have hplain : ∀ c ∈ s.takeWhile isGapBlank, c ∉ signs := by
    intro c hc hsign
    have hblank := List.mem_takeWhile_imp hc
    rw [isGapBlank_signs c hsign] at hblank
    cases hblank
  have hpasses : Passes (⟨false, st⟩, _ ++ skipGapBlanks s) (⟨false, st⟩, skipGapBlanks s) :=
    passes_plain hplain
  rwa [happ, ← skipGap_of_not_mem h] at hpasses

theorem Leaf.isPlain_spec {l : Leaf} (h : l.isPlain = true) :
    l.pattern.shuns [] = true ∧ ∀ c ∈ signs, l.pattern.shuns [c] = true := by
  rw [Leaf.isPlain, Bool.and_eq_true, List.all_eq_true] at h
  exact h

theorem passes_isPlain {l : Leaf} (hl : l.isPlain = true) (h : Takes l.pattern s rest) :
    Passes (⟨false, st⟩, s) (⟨false, st⟩, rest) := by
  obtain ⟨ts, w, far, h⟩ := h
  rw [(h.append rfl).1]
  refine passes_plain fun c hc hsign => ?_
  exact h.not_mem_of_shuns rfl ((Leaf.isPlain_spec hl).2 c hsign) hc

theorem regex?_eq_none (h : s.head? ≠ some '/') : regex? s = none := by
  rw [regex?]
  cases hd : dropFront? ['/'] s with
  | none => rfl
  | some t =>
    rw [eq_append_of_dropFront? hd] at h
    exact absurd rfl h

theorem regex?_of_not_mem (h : '/' ∉ s) : regex? s = none :=
  regex?_eq_none fun hs => h (List.mem_of_head? hs)

theorem Mark.text_of_sign? {m : Mark} {c : Char} (h : m.sign? = some c) :
    m.text.toList = [c] ∧ c ≠ '\'' ∧ c ≠ '"' := by
  cases m <;> cases h <;> decide

/-- Whether the text can end a list of statements. -/
def isIdle : List Char → Bool
  | [] => true
  | c :: _ => c == '\x7d'

theorem reads_pause : Reads Leaf.pause.pattern fun s => if isIdle s then some s else none := by
  intro s
  cases s with
  | nil => exact ⟨_, _, _, .second (.aheadFails (.textFails rfl)) (.ahead (.token .atEnd rfl)) rfl⟩
  | cons c s =>
    by_cases hc : c = '\x7d'
    · subst hc
      exact ⟨_, _, _, .first (.ahead (.text rfl))⟩
    · have hidle : isIdle (c :: s) = false := by simpa [isIdle] using hc
      show Outcome _ _ (if isIdle (c :: s) then _ else none)
      rw [hidle]
      have hd : dropFront? "\x7d".toList (c :: s) = none := by
        simp [dropFront?, Ne.symm hc]
      exact ⟨_, .second (.aheadFails (.textFails hd))
        (.aheadFails (.token (.atEndFails c s) rfl)) rfl⟩

theorem passes_leaf {l : Leaf} (hs : '/' ∉ s) (h : Takes l.pattern s rest)
    (ha : trace idle a l = some b) : Passes (a.over base, s) (b.over base, rest) := by
  obtain ⟨q, st⟩ := a
  cases q with
  | true =>
    simp only [trace, if_true] at ha
    split at ha
    · cases ha
      exact passes_templateText (reads_templateText.takes_iff.1 h)
    · cases ha
      cases takes_lit.1 h
      exact .single rfl
    · cases ha
      cases takes_lit.1 h
      exact .single rfl
    · cases ha
  | false =>
    simp only [trace, Bool.false_eq_true, if_false] at ha
    split at ha
    · cases ha
      cases reads_gap.takes_iff.1 h
      exact passes_gap _ hs
    · cases ha
      exact passes_string (reads_string.takes_iff.1 h)
    · have hregex := reads_regex.takes_iff.1 h
      rw [regex?_of_not_mem hs] at hregex
      cases hregex
    · split at ha
      · cases ha
        have hpause := reads_pause.takes_iff.1 h
        split at hpause
        · cases hpause
          exact Relation.ReflTransGen.refl
        · cases hpause
      · cases ha
    · split at ha
      · rename_i hsign
        obtain ⟨htext, hc⟩ := Mark.text_of_sign? hsign
        have happ := takes_lit.1 h
        rw [htext] at happ
        subst happ
        refine .single ?_
        show pass (⟨false, st ++ base⟩, _ :: rest) = _
        rw [pass_char hc, enter_over ha, Option.map_some]
      · split at ha
        · rename_i hplain
          cases ha
          exact passes_isPlain hplain h
        · cases ha
    · split at ha
      · rename_i hplain
        cases ha
        exact passes_isPlain hplain h
      · cases ha

theorem exists_over_of_fits {r : Rule} (base : List Enclosure)
    (hq : (r.level idle).quasi = a.quasi) (hst : (r.level idle).opened <+: a.opened) :
    ∃ more, a.over base = (r.level idle).over more := by
  obtain ⟨more, hmore⟩ := hst
  refine ⟨more ++ base, ?_⟩
  rw [Level.over, Level.over, hq, ← hmore, List.append_assoc]

theorem passes_of_trace (base : List Enclosure) {steps : Nat} {sh : Shape}
    {ts : List (Peg.Tree Rule)} {w : Nat} {reach : Reach} (hs : '/' ∉ s)
    (hsh : traceShape idle sh a = some b)
    (h : attempt Rule.pattern steps sh.pattern s = .matched ts w rest reach) :
    Passes (a.over base, s) (b.over base, rest) := by
  induction steps generalizing a b base s sh rest ts w reach with
  | zero => cases h
  | succ steps ih =>
    have hruns := runs_of_attempt h (by simp)
    cases sh with
    | nothing =>
      cases hsh
      cases h
      exact Relation.ReflTransGen.refl
    | leaf l => exact passes_leaf hs ⟨_, _, _, hruns⟩ hsh
    | rule r =>
      simp only [traceShape] at hsh
      split at hsh
      · rename_i hfits
        cases hsh
        simp only [Shape.pattern, attempt] at h
        obtain ⟨us, hus, -⟩ := Reply.named_eq_matched h
        rw [← Shape.pattern_ofRule hfits.1] at hus
        obtain ⟨more, hmore⟩ := exists_over_of_fits base hfits.2.1 hfits.2.2
        rw [hmore]
        exact ih more hs (traceShape_ofRule hfits.1) hus
      · cases hsh
    | both x y =>
      obtain ⟨c, hx, hy⟩ := Option.bind_eq_some_iff.1 hsh
      simp only [Shape.pattern, attempt] at h
      split at h
      · rename_i ts' w' mid far' ha
        obtain ⟨us, v, e, hb, -, -, -⟩ := Reply.after_eq_matched h
        have hmid : '/' ∉ mid := fun hmem =>
          hs ((runs_of_attempt ha (by simp)).suffix.subset hmem)
        exact (ih base hs hx ha).trans (ih base hmid hy hb)
      · cases h
      · cases h
    | either x y =>
      simp only [traceShape] at hsh
      split at hsh
      · rename_i heq
        simp only [Shape.pattern, attempt] at h
        split at h
        · rename_i ha
          cases h
          exact ih base hs hsh ha
        · obtain ⟨e, hb, -⟩ := Reply.noting_eq_matched h
          exact ih base hs (heq ▸ hsh) hb
        · cases h
      · cases hsh
    | star x =>
      simp only [traceShape] at hsh
      split at hsh
      · rename_i hx
        cases hsh
        simp only [Shape.pattern, attempt] at h
        split at h
        · rename_i ts' w' mid far' ha
          obtain ⟨us, v, e, hb, -, -, -⟩ := Reply.after_eq_matched h
          have hmid : '/' ∉ mid := fun hmem =>
            hs ((runs_of_attempt ha (by simp)).suffix.subset hmem)
          have hstar : traceShape idle (.star x) a = some a := if_pos hx
          exact (ih base hs hx ha).trans (ih base hmid hstar hb)
        · cases h
          exact Relation.ReflTransGen.refl
        · cases h
      · cases hsh
    | phrase x =>
      simp only [Shape.pattern, attempt] at h
      exact ih base hs (show traceShape idle x a = some b from hsh) (Reply.asPhrase_eq_matched h)

/-! ## What follows does not matter -/

/-- The reply of a pattern to a text is the one it gives when something is added to the text. -/
def Framed (t : List Char) (p : Pattern Rule) (s : List Char) : Reply Rule → Prop
  | .matched _ _ rest _ => Takes p (s ++ t) (rest ++ t)
  | .failed _ => Refuses p (s ++ t)
  | .exhausted => True

theorem framed_of_shuns {p : Pattern Rule} {x : Reply Rule} (h : Runs Rule.pattern p s x)
    (hnil : p.shuns [] = true) (ht : p.shuns t = true) : Framed t p s x := by
  obtain ⟨y, hy, hswap⟩ := h.swap (s := s) (z := s) (u := []) (List.append_nil s).symm hnil ht
  cases hswap with
  | matched ts w z far => exact ⟨ts, w, far, by simpa using hy⟩
  | failed far => exact ⟨far, hy⟩

theorem framed_of_reads {p : Pattern Rule} {f : List Char → Option (List Char)} (hp : Reads p f)
    {x : Reply Rule} (h : Runs Rule.pattern p s x) (hf : f (s ++ t) = (f s).map (· ++ t)) :
    Framed t p s x := by
  have ht := hp (s ++ t)
  rw [hf] at ht
  cases x with
  | matched ts w rest far =>
    rw [hp.takes_iff.1 ⟨ts, w, far, h⟩] at ht
    exact ht
  | failed far =>
    rw [hp.refuses_iff.1 ⟨far, h⟩] at ht
    exact ht
  | exhausted => trivial

def closings (idle : Bool) : List Char := if idle then ['\x7d'] else [')', ']', '\x7d']

/-- A text that begins with a closing bracket. -/
def Shuts (idle : Bool) (t : List Char) : Prop := ∃ c u, t = c :: u ∧ c ∈ closings idle

theorem shuts_close (t : List Char) : Shuts false (')' :: t) := ⟨_, _, rfl, by decide⟩

theorem Shuts.cases (ht : Shuts idle t) :
    ∃ c u, t = c :: u ∧ (c = ')' ∨ c = ']' ∨ c = '\x7d') ∧ (idle = true → c = '\x7d') := by
  obtain ⟨c, u, rfl, hc⟩ := ht
  cases idle <;> simp_all [closings]

theorem Shuts.shuns {p : Pattern Rule} (ht : Shuts idle t)
    (hp : ([')', ']', '\x7d'].all fun c => p.shuns [c]) = true) : p.shuns t = true := by
  obtain ⟨c, u, rfl, hc, -⟩ := ht.cases
  refine (Pattern.shuns_cons u).trans (List.all_eq_true.1 hp c ?_)
  simpa using hc

theorem Shuts.shuns_of_isPlain {l : Leaf} (ht : Shuts idle t) (hl : l.isPlain = true) :
    l.pattern.shuns t = true := by
  obtain ⟨c, u, rfl, hc, -⟩ := ht.cases
  refine (Pattern.shuns_cons u).trans ((Leaf.isPlain_spec hl).2 c ?_)
  rcases hc with rfl | rfl | rfl <;> decide

theorem skipGap_append (ht : Shuts idle t) (h : '/' ∉ s) : skipGap (s ++ t) = skipGap s ++ t := by
  obtain ⟨c, u, rfl, hc, -⟩ := ht.cases
  have hblank : isGapBlank c = false := by rcases hc with rfl | rfl | rfl <;> rfl
  have hslash : c ≠ '/' := by rcases hc with rfl | rfl | rfl <;> decide
  have hblanks : skipGapBlanks (s ++ c :: u) = skipGapBlanks s ++ c :: u := by
    unfold skipGapBlanks
    rw [List.dropWhile_append]
    split
    · rename_i hempty
      rw [List.isEmpty_iff.1 hempty, List.dropWhile_cons_of_neg (by simp [hblank])]
      rfl
    · rfl
  have hnone : comment? (skipGapBlanks s ++ c :: u) = none := by
    have hmem : '/' ∉ skipGapBlanks s := fun hmem => h ((List.dropWhile_suffix _).subset hmem)
    cases hs : skipGapBlanks s with
    | nil => exact comment?_eq_none hslash
    | cons d v =>
      rw [hs] at hmem
      exact comment?_eq_none (List.ne_of_not_mem_cons hmem).symm
  rw [skipGap_of_not_mem h, ← hblanks]
  rw [← hblanks] at hnone
  conv => lhs; unfold skipGap
  split
  · rename_i hc
    rw [hnone] at hc
    cases hc
  · rfl

theorem string?_append (ht : Shuts idle t) (h : Closes ⟨false, st⟩ s) :
    string? (s ++ t) = (string? s).map (· ++ t) := by
  cases hstring : string? s with
  | some rest =>
    rw [← List.append_nil s, ← List.append_nil rest] at hstring
    simpa using string?_inside (v := t) hstring
  | none =>
    cases s with
    | nil =>
      obtain ⟨c, u, rfl, hc, -⟩ := ht.cases
      refine string?_eq_none ?_
      rcases hc with rfl | rfl | rfl <;> decide
    | cons c s =>
      refine string?_eq_none (not_or.1 fun hc => ?_)
      exact not_closes_of_string?_eq_none hc hstring h

theorem repeated_stops {f : List Char → Option (List Char)}
    (hf : ∀ s rest, f s = some rest → rest.length < s.length) (s : List Char) :
    f (repeated f s) = none := by
  fun_induction repeated f s with
  | case1 s rest hs hlt ih => exact ih
  | case2 s rest hs hlt => exact absurd (hf s rest hs) hlt
  | case3 s hs => exact hs

theorem templateText?_append (ht : Shuts idle t) (h : Closes ⟨true, st⟩ s) :
    templateText? (s ++ t) = (templateText? s).map (· ++ t) := by
  have hcurly : opensCurly t = false := by
    obtain ⟨c, u, rfl, hc, -⟩ := ht.cases
    rcases hc with rfl | rfl | rfl <;> rfl
  cases htext : templateText? s with
  | some rest =>
    have hrest := Passes.closes (passes_templateText htext) h
    obtain ⟨u, -, hu⟩ := Option.bind_eq_some_iff.1 htext
    have hstop : templatePiece? rest = none := by
      cases hu
      exact repeated_stops (fun _ _ => length_lt_of_templatePiece?) u
    rw [← List.append_nil s, ← List.append_nil rest] at htext
    simpa using templateText?_inside hcurly htext (hrest.quasi hstop)
  | none =>
    have hpiece : templatePiece? s = none := by
      cases hpiece : templatePiece? s with
      | none => rfl
      | some u => simp [templateText?, hpiece] at htext
    rw [templateText?, templatePiece?_stop (h.quasi hpiece)]
    rfl

theorem isIdle_append (ht : Shuts true t) : isIdle (s ++ t) = isIdle s := by
  obtain ⟨c, u, rfl, -, hc⟩ := ht.cases
  cases s with
  | nil =>
    rw [hc rfl]
    rfl
  | cons d s => rfl

theorem opened_eq_nil_of_closes (h : Closes (a.over base) []) : a.opened = [] := by
  by_contra hne
  exact not_closes_nil (fun hground => hne
    (List.append_eq_nil_iff.1 (congrArg Level.opened hground)).1) h

theorem framed_closing {m : Mark} {c : Char} {x : Reply Rule} (hm : m.text.toList = [c])
    (hnil : enter [] c = none) (hcloses : Closes (Level.over base ⟨false, st⟩) s)
    (ha : enter st c = some b) (h : Runs Rule.pattern (Leaf.mark m).pattern s x) :
    Framed t (Leaf.mark m).pattern s x := by
  cases s with
  | nil =>
    have hst : st = [] := opened_eq_nil_of_closes hcloses
    rw [hst, hnil] at ha
    cases ha
  | cons d s =>
    refine framed_of_reads (reads_text m.text.toList) h ?_
    rw [hm]
    by_cases hc : c = d <;> simp [dropFront?, hc]

/-- A token that is tried in a text which closes all that is open takes the same of it, whatever
follows behind a closing bracket. -/
theorem framed_leaf {l : Leaf} {x : Reply Rule} (ht : Shuts idle t) (hs : '/' ∉ s)
    (hcloses : Closes (a.over base) s) (ha : trace idle a l = some b)
    (h : Runs Rule.pattern l.pattern s x) : Framed t l.pattern s x := by
  obtain ⟨q, st⟩ := a
  cases q with
  | true =>
    simp only [trace, if_true] at ha
    split at ha
    · exact framed_of_reads reads_templateText h (templateText?_append ht hcloses)
    · exact framed_of_shuns h rfl (ht.shuns rfl)
    · exact framed_of_shuns h rfl (ht.shuns rfl)
    · cases ha
  | false =>
    simp only [trace, Bool.false_eq_true, if_false] at ha
    split at ha
    · exact framed_of_reads reads_gap h (congrArg some (skipGap_append ht hs))
    · exact framed_of_reads reads_string h (string?_append ht hcloses)
    · refine framed_of_reads reads_regex h ?_
      rw [regex?_of_not_mem hs, regex?_eq_none]
      · rfl
      · obtain ⟨c, u, rfl, hc, -⟩ := ht.cases
        cases s with
        | nil => rcases hc with rfl | rfl | rfl <;> simp
        | cons d s => simpa using (List.ne_of_not_mem_cons hs).symm
    · split at ha
      · rename_i hpause
        refine framed_of_reads reads_pause h ?_
        have hidle : isIdle (s ++ t) = isIdle s := by
          cases s with
          | cons c s => rfl
          | nil =>
            cases idle with
            | true => exact isIdle_append ht
            | false =>
              have hst : st = [] := opened_eq_nil_of_closes hcloses
              simp [hst] at hpause
        rw [hidle]
        split <;> rfl
      · cases ha
    · rename_i m
      split at ha
      · rename_i c hsign
        cases m <;> cases hsign <;>
          first
          | exact framed_closing rfl rfl hcloses ha h
          | exact framed_of_shuns h rfl (ht.shuns rfl)
      · split at ha
        · rename_i hplain
          exact framed_of_shuns h (Leaf.isPlain_spec hplain).1 (ht.shuns_of_isPlain hplain)
        · cases ha
    · split at ha
      · rename_i hplain
        exact framed_of_shuns h (Leaf.isPlain_spec hplain).1 (ht.shuns_of_isPlain hplain)
      · cases ha

/-! ### Shapes -/

section Combinators

variable {p q : Pattern Rule} {x : Reply Rule} {ts : List (Peg.Tree Rule)} {w : Nat} {far : Reach}

theorem Framed.named {r : Rule} (h : Framed t r.pattern s x) : Framed t (.rule r) s (x.named r) := by
  cases x with
  | matched _ _ _ _ => exact Takes.rule h
  | failed _ => exact Refuses.rule h
  | exhausted => trivial

theorem Framed.asPhrase (h : Framed t p s x) : Framed t (.phrase p) s x.asPhrase := by
  cases x with
  | matched _ _ _ _ => exact Takes.phrase h
  | failed _ => exact Refuses.phrase h
  | exhausted => trivial

theorem Framed.after (hp : Framed t p s (.matched ts w rest far)) (hq : Framed t q rest x) :
    Framed t (.both p q) s (x.after ts w far) := by
  cases x with
  | matched _ _ _ _ => exact Takes.both hp hq
  | failed _ => exact Takes.both_refuses hp hq
  | exhausted => trivial

theorem Framed.noting (hp : Framed t p s (.failed far)) (hq : Framed t q s x) :
    Framed t (.either p q) s (x.noting far) := by
  cases x with
  | matched _ _ _ _ => exact Refuses.either_takes hp hq
  | failed _ => exact Refuses.either hp hq
  | exhausted => trivial

theorem Framed.more (hp : Framed t p s (.matched ts w rest far))
    (hs : Framed t (.star p) rest x) : Framed t (.star p) s (x.after ts w far) := by
  cases x with
  | matched _ _ _ _ => exact Takes.more hp hs
  | failed _ => exact absurd hs not_refuses_star
  | exhausted => trivial

end Combinators

/-- A shape that is tried in a text which closes all that is open takes the same of it, whatever
follows behind a closing bracket. -/
theorem framed_of_trace {steps : Nat} {sh : Shape} (ht : Shuts idle t) (hs : '/' ∉ s)
    (hcloses : Closes (a.over base) s) (hsh : traceShape idle sh a = some b) :
    Framed t sh.pattern s (attempt Rule.pattern steps sh.pattern s) := by
  induction steps generalizing a b base s sh with
  | zero => trivial
  | succ steps ih =>
    -- what a part of the shape leaves of the text is again without slashes and closes all
    have hrest : ∀ {x : Shape} {c : Level} {ts w mid far}, traceShape idle x a = some c →
        attempt Rule.pattern steps x.pattern s = .matched ts w mid far →
        '/' ∉ mid ∧ Closes (c.over base) mid := by
      intro x c ts w mid far hx hmatch
      exact ⟨fun hmem => hs ((runs_of_attempt hmatch (by simp)).suffix.subset hmem),
        (passes_of_trace base hs hx hmatch).closes hcloses⟩
    cases sh with
    | nothing => exact Takes.nothing _
    | leaf l =>
      cases hx : attempt Rule.pattern (steps + 1) (Shape.leaf l).pattern s with
      | exhausted => trivial
      | _ => exact framed_leaf ht hs hcloses hsh (runs_of_attempt hx (by simp))
    | rule r =>
      simp only [traceShape] at hsh
      split at hsh
      · rename_i hfits
        obtain ⟨more, hmore⟩ := exists_over_of_fits base hfits.2.1 hfits.2.2
        have hbody := ih hs (hmore ▸ hcloses) (traceShape_ofRule hfits.1)
        rw [Shape.pattern_ofRule hfits.1] at hbody
        exact hbody.named
      · cases hsh
    | both x y =>
      obtain ⟨c, hx, hy⟩ := Option.bind_eq_some_iff.1 hsh
      have ha := ih hs hcloses hx
      simp only [Shape.pattern, attempt]
      split
      · rename_i hmatch
        rw [hmatch] at ha
        obtain ⟨hmid, hmid'⟩ := hrest hx hmatch
        exact ha.after (ih hmid hmid' hy)
      · rename_i hfail
        rw [hfail] at ha
        exact Refuses.both ha
      · trivial
    | either x y =>
      simp only [traceShape] at hsh
      split at hsh
      · rename_i heq
        have ha := ih hs hcloses hsh
        simp only [Shape.pattern, attempt]
        split
        · rename_i hmatch
          rw [hmatch] at ha
          exact Takes.either ha
        · rename_i hfail
          rw [hfail] at ha
          exact ha.noting (ih hs hcloses (heq ▸ hsh))
        · trivial
      · cases hsh
    | star x =>
      simp only [traceShape] at hsh
      split at hsh
      · rename_i hx
        have ha := ih hs hcloses hx
        have hstar : traceShape idle (.star x) a = some a := if_pos hx
        simp only [Shape.pattern, attempt]
        split
        · rename_i hmatch
          rw [hmatch] at ha
          obtain ⟨hmid, hmid'⟩ := hrest hx hmatch
          exact ha.more (ih hmid hmid' hstar)
        · rename_i hfail
          rw [hfail] at ha
          exact Refuses.enough ha
        · trivial
      · cases hsh
    | phrase x => exact (ih hs hcloses (show traceShape idle x a = some b from hsh)).asPhrase

end EventMarkup.Script
