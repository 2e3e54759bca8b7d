import EventMarkup.Proofs.Peg.Matches
import EventMarkup.Script.Path

/-!
# How paths are cut

A path can be cut into blanks, a name, any number of accesses and blanks again: `PathCut` is such a
cut. The paths are the texts that have one (`isPath_iff_pathCut`), although a pattern never goes
back into a repetition. The grammar of paths gets there by trying, at each closing mark, whether the
rest of the text is in order. A second grammar, `lookGrammar`, repeats accesses and lets a quoted
text end where it sees the rest of a path ahead; it accepts the same texts.
-/

namespace EventMarkup.Script

open Peg Peg.Pattern Text

/-! ## Cuts -/

def isPathBlank (c : Char) : Bool := isBlank c || c == '\uFEFF'

def IsAsciiName : List Char → Prop
  | [] => False
  | c :: s => isWordStart c = true ∧ ∀ d ∈ s, isWordRest d = true

/-- An access behind the name of a path. -/
inductive Access where
  /-- A name behind a point. -/
  | point (name : List Char)
  /-- A text between single quotes. -/
  | single (content : List Char)
  /-- A text between double quotes. -/
  | double (content : List Char)
  /-- A number in brackets. -/
  | place (digits : List Char)
  /-- A name in brackets. -/
  | named (name : List Char)
  deriving DecidableEq, Repr

namespace Access

def spelling : Access → List Char
  | .point name => '.' :: name
  | .single content => '[' :: '\'' :: (content ++ ['\'', ']'])
  | .double content => '[' :: '"' :: (content ++ ['"', ']'])
  | .place digits => '[' :: (digits ++ [']'])
  | .named name => '[' :: (name ++ [']'])

/-- Names are ASCII names, a quoted text stays on one line, and a number has a digit. -/
def WellFormed : Access → Prop
  | .point name => IsAsciiName name
  | .single content => ∀ c ∈ content, isLineEnd c = false
  | .double content => ∀ c ∈ content, isLineEnd c = false
  | .place digits => digits ≠ [] ∧ ∀ d ∈ digits, d.isDigit = true
  | .named name => IsAsciiName name

end Access

/-- A text cut into blanks, a name, accesses and blanks. -/
structure PathCut (s : List Char) where
  /-- The blanks in front. -/
  before : List Char
  /-- The name that the path starts from. -/
  name : List Char
  /-- The accesses behind the name, in order. -/
  accesses : List Access
  /-- The blanks behind. -/
  after : List Char
  before_blank : ∀ c ∈ before, isPathBlank c = true
  name_isAsciiName : IsAsciiName name
  accesses_wellFormed : ∀ a ∈ accesses, a.WellFormed
  after_blank : ∀ c ∈ after, isPathBlank c = true
  eq_append : s = before ++ (name ++ (accesses.flatMap Access.spelling ++ after))

/-- A text that can be cut into accesses and blanks. -/
def IsPathTail (s : List Char) : Prop :=
  ∃ (accesses : List Access) (after : List Char), (∀ a ∈ accesses, a.WellFormed) ∧
    (∀ c ∈ after, isPathBlank c = true) ∧ s = accesses.flatMap Access.spelling ++ after

variable {ρ : Type} {body : ρ → Pattern ρ} {s t rest : List Char}

theorem IsPathTail.cons {a : Access} (ha : a.WellFormed) (h : IsPathTail t) :
    IsPathTail (a.spelling ++ t) := by
  obtain ⟨accesses, after, haccesses, hafter, rfl⟩ := h
  exact ⟨a :: accesses, after, List.forall_mem_cons.2 ⟨ha, haccesses⟩, hafter, by simp⟩

/-! ## First characters -/

theorem isWordRest_of_isWordStart {c : Char} (h : isWordStart c = true) : isWordRest c = true := by
  simp only [isWordStart, isWordRest, Char.isAlphanum, Bool.or_eq_true] at h ⊢
  exact h.imp_left (·.imp_left .inl)

theorem isAlpha_iff {c : Char} : c.isAlpha = true ↔
    (65 ≤ c.toNat ∧ c.toNat ≤ 90) ∨ (97 ≤ c.toNat ∧ c.toNat ≤ 122) := by
  change (decide ('A'.val ≤ c.val ∧ c.val ≤ 'Z'.val) ||
    (decide ('a'.val ≤ c.val) && decide (c.val ≤ 'z'.val))) = true ↔ _
  simp only [Bool.or_eq_true, Bool.and_eq_true, decide_eq_true_eq, UInt32.le_iff_toNat_le]
  exact Iff.rfl

theorem isDigit_iff {c : Char} : c.isDigit = true ↔ 48 ≤ c.toNat ∧ c.toNat ≤ 57 := by
  simp only [Char.isDigit, Bool.and_eq_true, decide_eq_true_eq, ge_iff_le, UInt32.le_iff_toNat_le]
  exact Iff.rfl

theorem isWordRest_of_isPathBlank {c : Char} (h : isPathBlank c = true) : isWordRest c = false := by
  rw [Bool.eq_false_iff]
  intro hword
  simp only [isWordRest, Char.isAlphanum, Bool.or_eq_true, isAlpha_iff, isDigit_iff,
    beq_iff_eq] at hword
  have hnat : c.toNat ≤ 0x20 ∨ 0x7F ≤ c.toNat := by
    simp only [isPathBlank, isBlank, Bool.or_eq_true, Bool.and_eq_true, decide_eq_true_eq,
      beq_iff_eq] at h
    rcases h with h | rfl
    · omega
    · decide
  rcases hword with ((hword | hword) | rfl) | rfl
  · omega
  · omega
  · exact absurd hnat (by decide)
  · exact absurd hnat (by decide)

theorem isDigit_of_isWordStart {c : Char} (h : isWordStart c = true) : c.isDigit = false := by
  rw [Bool.eq_false_iff, Ne, isDigit_iff]
  intro hdigit
  simp only [isWordStart, Bool.or_eq_true, isAlpha_iff, beq_iff_eq] at h
  rcases h with (h | rfl) | rfl
  · omega
  · exact absurd hdigit (by decide)
  · exact absurd hdigit (by decide)

theorem IsPathTail.isWordRest_head (h : IsPathTail s) : ∀ c ∈ s.head?, isWordRest c = false := by
  obtain ⟨accesses, after, -, hafter, rfl⟩ := h
  cases accesses with
  | nil =>
    intro c hc
    exact isWordRest_of_isPathBlank (hafter c (List.mem_of_mem_head? hc))
  | cons a accesses => cases a <;> simp [Access.spelling] <;> decide

/-! ## Parts that both grammars share -/

def asciiName : Pattern ρ := .both (.one isWordStart) (.star (.one isWordRest))

theorem exists_of_matches_asciiName (h : Matches body asciiName s rest) :
    ∃ name, IsAsciiName name ∧ s = name ++ rest := by
  obtain ⟨t, hstart, hmore⟩ := h.of_both
  obtain ⟨c, hc, rfl⟩ := hstart.of_one
  obtain ⟨v, hv, rfl⟩ := hmore.of_star_one
  exact ⟨c :: v, ⟨hc, hv⟩, rfl⟩

theorem IsAsciiName.ne_nil {name : List Char} (h : IsAsciiName name) : name ≠ [] := by
  rintro rfl
  exact h

theorem IsAsciiName.not_mem {name : List Char} {c : Char} (h : IsAsciiName name)
    (hc : isWordRest c = false) : c ∉ name := by
  cases name with
  | nil => exact h.elim
  | cons d s =>
    intro hmem
    have hword : isWordRest c = true :=
      (List.forall_mem_cons (p := (isWordRest · = true))).2
        ⟨isWordRest_of_isWordStart h.1, h.2⟩ c hmem
    rw [hc] at hword
    cases hword

theorem matches_pathBlanks {after : List Char} (h : ∀ c ∈ after, isPathBlank c = true) :
    Matches body (.both (.star (.one isPathBlank)) .atEnd) after [] := by
  have hstar : Matches body (.star (.one isPathBlank)) (after ++ []) [] :=
    matches_star_one_append h (by simp)
  rw [List.append_nil] at hstar
  exact hstar.both ⟨_, _, _, .atEnd⟩

theorem matches_asciiName {name : List Char} (hname : IsAsciiName name)
    (hrest : ∀ c ∈ rest.head?, isWordRest c = false) :
    Matches body asciiName (name ++ rest) rest := by
  cases name with
  | nil => exact hname.elim
  | cons c s => exact (Matches.one hname.1 _).both (matches_star_one_append hname.2 hrest)

theorem dropFront?_bracket {q : Char} {w : List Char} (hne : w ≠ []) (hq : q ∉ w) :
    dropFront? ['[', q] ('[' :: (w ++ t)) = none := by
  cases w with
  | nil => exact absurd rfl hne
  | cons c w =>
    have hc : q ≠ c := fun h => hq (h ▸ List.mem_cons_self)
    simp [dropFront?, hc]

theorem exists_of_matches_digits (h : Matches body (plus (.one Char.isDigit)) s rest) :
    ∃ digits, digits ≠ [] ∧ (∀ d ∈ digits, d.isDigit = true) ∧ s = digits ++ rest := by
  obtain ⟨t, hfirst, hmore⟩ := h.of_both
  obtain ⟨c, hc, rfl⟩ := hfirst.of_one
  obtain ⟨v, hv, rfl⟩ := hmore.of_star_one
  exact ⟨c :: v, by simp, List.forall_mem_cons.2 ⟨hc, hv⟩, rfl⟩

theorem matches_digits {digits : List Char} (hne : digits ≠ [])
    (hdigits : ∀ d ∈ digits, d.isDigit = true) :
    Matches body (plus (.one Char.isDigit)) (digits ++ ']' :: rest) (']' :: rest) := by
  cases digits with
  | nil => exact absurd rfl hne
  | cons d digits =>
    obtain ⟨hd, hdigits⟩ := List.forall_mem_cons.1 hdigits
    refine (Matches.one hd _).both (matches_star_one_append hdigits ?_)
    rintro _ ⟨⟩
    rfl

/-! ## The choice between accesses -/

/-- The choice between accesses by the characters that open them, with what stands behind these. -/
def accessChoice (point single double place last : Pattern ρ) : Pattern ρ :=
  oneOf
    [.both (lit ".") point, .both (lit "['") single, .both (lit "[\"") double,
      joined [lit "[", plus (.one Char.isDigit), place], last]

section Choice

variable {point single double place last : Pattern ρ}

theorem matches_choice_point (h : Matches body point t rest) :
    Matches body (accessChoice point single double place last) ('.' :: t) rest :=
  .either ((Matches.text ['.'] t).both h)

theorem matches_choice_single (h : Matches body single t rest) :
    Matches body (accessChoice point single double place last) ('[' :: '\'' :: t) rest := by
  refine (Fails.text rfl).both.either_matches (.either ?_)
  exact (Matches.text ['[', '\''] t).both h

theorem matches_choice_double (h : Matches body double t rest) :
    Matches body (accessChoice point single double place last) ('[' :: '"' :: t) rest := by
  refine (Fails.text rfl).both.either_matches ((Fails.text rfl).both.either_matches (.either ?_))
  exact (Matches.text ['[', '"'] t).both h

theorem matches_choice_place {digits : List Char} (hne : digits ≠ [])
    (hdigits : ∀ d ∈ digits, d.isDigit = true) (h : Matches body place (']' :: t) rest) :
    Matches body (accessChoice point single double place last) ('[' :: (digits ++ ']' :: t))
      rest := by
  have hquote : ∀ {q : Char}, q.isDigit = false → q ∉ digits := by
    intro q hq hmem
    rw [hdigits q hmem] at hq
    cases hq
  refine (Fails.text rfl).both.either_matches ?_
  refine (Fails.text (dropFront?_bracket hne (hquote rfl))).both.either_matches ?_
  refine (Fails.text (dropFront?_bracket hne (hquote rfl))).both.either_matches (.either ?_)
  exact (Matches.text ['['] _).both ((matches_digits hne hdigits).both h)

theorem matches_choice_named {name : List Char} (hname : IsAsciiName name)
    (h : Matches body last ('[' :: (name ++ t)) rest) :
    Matches body (accessChoice point single double place last) ('[' :: (name ++ t)) rest := by
  have hdigits : Fails body (plus (.one Char.isDigit)) (name ++ t) := by
    cases name with
    | nil => exact hname.elim
    | cons c name => exact (Fails.one (by simpa using isDigit_of_isWordStart hname.1)).both
  refine (Fails.text rfl).both.either_matches ?_
  refine (Fails.text (dropFront?_bracket hname.ne_nil (hname.not_mem rfl))).both.either_matches ?_
  refine (Fails.text (dropFront?_bracket hname.ne_nil (hname.not_mem rfl))).both.either_matches ?_
  exact ((Matches.text ['['] _).both_fails hdigits.both).either_matches h

theorem fails_opened (hs : ∀ c ∈ s.head?, isPathBlank c = true) {c : Char} {cs : List Char}
    (hc : isPathBlank c = false) (p : Pattern ρ) : Fails body (.both (.text (c :: cs)) p) s := by
  refine (Fails.text (dropFront?_eq_none fun d hd => ?_)).both
  rintro rfl
  rw [hs c hd] at hc
  cases hc

theorem matches_choice_last (hs : ∀ c ∈ s.head?, isPathBlank c = true)
    (h : Matches body last s rest) :
    Matches body (accessChoice point single double place last) s rest := by
  refine (fails_opened hs rfl _).either_matches ((fails_opened hs rfl _).either_matches ?_)
  exact (fails_opened hs rfl _).either_matches ((fails_opened hs rfl _).either_matches h)

theorem fails_choice (hs : ∀ c ∈ s.head?, isPathBlank c = true) (h : Fails body last s) :
    Fails body (accessChoice point single double place last) s := by
  refine (fails_opened hs rfl _).either ((fails_opened hs rfl _).either ?_)
  exact (fails_opened hs rfl _).either ((fails_opened hs rfl _).either h)

end Choice

/-! ## The grammar of paths -/

def pathOrderly : pathGrammar.Orderly where
  empty r := r == .tail
  nest r := match r with
    | .path => 40
    | .bareName => 10
    | .name => 5
    | .tail => 30
    | .singleQuoted => 10
    | .doubleQuoted => 10
  empty_body r := by cases r <;> decide
  nest_body r := by cases r <;> decide
  nest_lt r := by cases r <;> decide
  tame_body r := by cases r <;> decide

theorem exists_of_matches_quotedRest {close : String} {again : PathRule}
    (hagain : PathRule.pattern again = PathRule.quotedRest close again)
    (h : Matches PathRule.pattern (.rule again) s rest) :
    ∃ content t, (∀ c ∈ content, isLineEnd c = false) ∧ s = content ++ (close.toList ++ t) ∧
      Matches PathRule.pattern (.rule .tail) t rest := by
  induction s with
  | nil => 
    rcases (hagain ▸ h.of_rule).of_either with h | h
    · obtain ⟨t, hclose, htail⟩ := h.of_both
      exact ⟨[], t, by simp, hclose.of_text, htail⟩
    · obtain ⟨t, hone, -⟩ := h.of_both
      obtain ⟨c, -, hc⟩ := hone.of_one
      cases hc
  | cons c s ih =>
    rcases (hagain ▸ h.of_rule).of_either with h | h
    · obtain ⟨t, hclose, htail⟩ := h.of_both
      exact ⟨[], t, by simp, hclose.of_text, htail⟩
    · obtain ⟨t, hone, hmore⟩ := h.of_both
      obtain ⟨c, hc, heq⟩ := hone.of_one
      cases heq
      obtain ⟨content, t, hcontent, rfl, htail⟩ := ih hmore
      refine ⟨c :: content, t, List.forall_mem_cons.2 ⟨by simpa using hc, hcontent⟩, rfl, htail⟩

theorem isPathTail_of_matches_tail {n : Nat} (hn : s.length ≤ n)
    (h : Matches PathRule.pattern (.rule .tail) s rest) : IsPathTail s ∧ rest = [] := by
  induction n generalizing s with
  | zero =>
    obtain rfl := List.length_eq_zero_iff.1 (Nat.le_zero.1 hn)
    exact ⟨⟨[], [], by simp, by simp, rfl⟩, List.suffix_nil.1 h.suffix⟩
  | succ n ih =>
    have haccess : ∀ {a : Access} {u}, a.WellFormed → s = a.spelling ++ u →
        Matches PathRule.pattern (.rule .tail) u rest → IsPathTail s ∧ rest = [] := by
      rintro a u ha rfl htail
      have hpos : 0 < a.spelling.length := by cases a <;> simp [Access.spelling]
      obtain ⟨hu, hrest⟩ := ih (by rw [List.length_append] at hn; omega) htail
      exact ⟨hu.cons ha, hrest⟩
    rcases h.of_rule.of_either with h | h
    · obtain ⟨t, hpoint, h⟩ := h.of_both
      obtain ⟨u, hname, htail⟩ := h.of_both
      obtain ⟨name, hascii, rfl⟩ := exists_of_matches_asciiName hname.of_rule
      exact haccess (a := .point name) hascii hpoint.of_text htail
    rcases h.of_either with h | h
    · obtain ⟨t, hopen, h⟩ := h.of_both
      obtain ⟨content, u, hcontent, rfl, htail⟩ := exists_of_matches_quotedRest rfl h
      exact haccess (a := .single content) hcontent
        (hopen.of_text.trans (by simp [Access.spelling])) htail
    rcases h.of_either with h | h
    · obtain ⟨t, hopen, h⟩ := h.of_both
      obtain ⟨content, u, hcontent, rfl, htail⟩ := exists_of_matches_quotedRest rfl h
      exact haccess (a := .double content) hcontent
        (hopen.of_text.trans (by simp [Access.spelling])) htail
    rcases h.of_either with h | h
    · obtain ⟨t, hopen, h⟩ := h.of_both
      obtain ⟨u, hplace, h⟩ := h.of_both
      obtain ⟨v, hclose, htail⟩ := h.of_both
      obtain ⟨digits, hne, hdigits, rfl⟩ := exists_of_matches_digits hplace
      obtain rfl := hclose.of_text
      exact haccess (a := .place digits) ⟨hne, hdigits⟩
        (hopen.of_text.trans (by simp [Access.spelling])) htail
    rcases h.of_either with h | h
    · obtain ⟨t, hopen, h⟩ := h.of_both
      obtain ⟨u, hname, h⟩ := h.of_both
      obtain ⟨v, hclose, htail⟩ := h.of_both
      obtain ⟨name, hascii, rfl⟩ := exists_of_matches_asciiName hname.of_rule
      obtain rfl := hclose.of_text
      exact haccess (a := .named name) hascii
        (hopen.of_text.trans (by simp [Access.spelling])) htail
    · obtain ⟨t, hspace, hend⟩ := h.of_both
      obtain ⟨after, hafter, rfl⟩ := hspace.of_star_one
      obtain ⟨rfl, rfl⟩ := hend.of_atEnd
      exact ⟨⟨[], after, by simp, hafter, by simp⟩, rfl⟩

/-- A quoted text with a closing mark and a tail behind it is read to the end, though perhaps by
an earlier closing mark. -/
theorem matches_quotedRest (close : String) (again : PathRule)
    (hagain : PathRule.pattern again = PathRule.quotedRest close again)
    (htame : (Pattern.both (lit close) (.rule .tail)).isTame pathOrderly.empty pathOrderly.nest
      pathGrammar.depth = true)
    {content : List Char} (hcontent : ∀ c ∈ content, isLineEnd c = false)
    (htail : Matches PathRule.pattern (.rule .tail) t []) :
    Matches PathRule.pattern (.rule again) (content ++ (close.toList ++ t)) [] := by
  induction content with
  | nil =>
    refine .rule ?_
    rw [hagain]
    exact .either ((Matches.text close.toList t).both htail)
  | cons c content ih =>
    obtain ⟨hc, hcontent⟩ := List.forall_mem_cons.1 hcontent
    refine .rule ?_
    rw [hagain]
    rcases pathOrderly.matches_or_fails htame (c :: (content ++ (close.toList ++ t))) with
      ⟨rest, h⟩ | h
    · obtain ⟨u, -, hu⟩ := h.of_both
      obtain ⟨-, rfl⟩ := isPathTail_of_matches_tail (Nat.le_refl _) hu
      exact .either h
    · exact h.either_matches ((Matches.one (by simpa using hc) _).both (ih hcontent))

theorem matches_tail_of_isPathTail (h : IsPathTail s) :
    Matches PathRule.pattern (.rule .tail) s [] := by
  obtain ⟨accesses, after, haccesses, hafter, rfl⟩ := h
  induction accesses with
  | nil =>
    have hblank : ∀ c ∈ after.head?, isPathBlank c = true := fun c hc =>
      hafter c (List.mem_of_mem_head? hc)
    refine .rule (matches_choice_last hblank ?_)
    exact (fails_opened hblank rfl _).either_matches (matches_pathBlanks hafter)
  | cons a accesses ih =>
    obtain ⟨ha, haccesses⟩ := List.forall_mem_cons.1 haccesses
    have htail := ih haccesses
    have hhead : ∀ c ∈ (accesses.flatMap Access.spelling ++ after).head?, isWordRest c = false :=
      IsPathTail.isWordRest_head ⟨accesses, after, haccesses, hafter, rfl⟩
    rw [List.flatMap_cons, List.append_assoc]
    generalize accesses.flatMap Access.spelling ++ after = t at htail hhead
    have hclose : Matches PathRule.pattern (.both (lit "]") (.rule .tail)) ([']'] ++ t) [] :=
      (Matches.text [']'] t).both htail
    refine .rule ?_
    cases a with
    | point name => exact matches_choice_point ((matches_asciiName ha hhead).rule.both htail)
    | single content =>
      have hrest := matches_quotedRest "']" .singleQuoted rfl (by decide) ha htail
      rw [Access.spelling, List.cons_append, List.cons_append, List.append_assoc]
      exact matches_choice_single hrest
    | double content =>
      have hrest := matches_quotedRest "\"]" .doubleQuoted rfl (by decide) ha htail
      rw [Access.spelling, List.cons_append, List.cons_append, List.append_assoc]
      exact matches_choice_double hrest
    | place digits =>
      rw [Access.spelling, List.cons_append, List.append_assoc]
      exact matches_choice_place ha.1 ha.2 hclose
    | named name =>
      have hname : Matches PathRule.pattern (.rule .name) (name ++ ([']'] ++ t)) ([']'] ++ t) :=
        (matches_asciiName ha (by simp; decide)).rule
      rw [Access.spelling, List.cons_append, List.append_assoc]
      exact matches_choice_named ha (.either ((Matches.text ['['] _).both (hname.both hclose)))

/-! ## Looking ahead -/

/-- The parts of a path as the second grammar has them. -/
inductive LookRule where
  | path
  | access
  | tail
  deriving DecidableEq, Repr

namespace LookRule

/-- A text between quotes. It ends at the first closing mark with the rest of a path behind it. -/
def quotedRest (close : String) : Pattern LookRule :=
  .both
    (.star (joined [.notAhead (.both (lit close) (.rule .tail)), .notAhead (.one isLineEnd),
      anyChar]))
    (lit close)

def pattern : LookRule → Pattern LookRule
  | .path => joined [.star (.one isPathBlank), asciiName, .rule .tail]
  | .access =>
    accessChoice asciiName (quotedRest "']") (quotedRest "\"]") (lit "]")
      (joined [lit "[", asciiName, lit "]"])
  | .tail => joined [.star (.rule .access), .star (.one isPathBlank), .atEnd]

end LookRule

/-- The grammar of paths that looks ahead. -/
def lookGrammar : Grammar LookRule where
  body := LookRule.pattern
  depth := 100

def lookOrderly : lookGrammar.Orderly where
  empty r := r == .tail
  nest r := match r with
    | .path => 60
    | .access => 20
    | .tail => 40
  empty_body r := by cases r <;> decide
  nest_body r := by cases r <;> decide
  nest_lt r := by cases r <;> decide
  tame_body r := by cases r <;> decide

theorem exists_of_matches_star_anyBut {closing : Pattern LookRule}
    (h : Matches LookRule.pattern
      (.star (joined [.notAhead closing, .notAhead (.one isLineEnd), anyChar])) s rest) :
    ∃ content, (∀ c ∈ content, isLineEnd c = false) ∧ s = content ++ rest := by
  induction s with
  | nil => exact ⟨[], by simp, (List.suffix_nil.1 h.suffix).symm⟩
  | cons c s ih =>
    rcases matches_star_iff.1 h with ⟨t, hpiece, hmore⟩ | ⟨-, rfl⟩
    · obtain ⟨u, hclosing, hpiece⟩ := hpiece.of_both
      obtain ⟨v, hline, hany⟩ := hpiece.of_both
      obtain rfl := hclosing.of_notAhead.2
      obtain ⟨hfails, rfl⟩ := hline.of_notAhead
      obtain ⟨d, -, hd⟩ := hany.of_one
      cases hd
      obtain ⟨content, hcontent, rfl⟩ := ih hmore
      have hc : isLineEnd c = false := by
        rw [Bool.eq_false_iff]
        exact fun hc => (Matches.one hc _).not_fails hfails
      exact ⟨c :: content, List.forall_mem_cons.2 ⟨hc, hcontent⟩, rfl⟩
    · exact ⟨[], by simp, rfl⟩

theorem exists_of_matches_access (h : Matches LookRule.pattern (.rule .access) s rest) :
    ∃ a : Access, a.WellFormed ∧ s = a.spelling ++ rest := by
  have hquoted : ∀ {close : String} {t},
      Matches LookRule.pattern (LookRule.quotedRest close) t rest →
      ∃ content, (∀ c ∈ content, isLineEnd c = false) ∧ t = content ++ (close.toList ++ rest) := by
    intro close t h
    obtain ⟨u, hcontent, hclose⟩ := h.of_both
    obtain ⟨content, hline, rfl⟩ := exists_of_matches_star_anyBut hcontent
    exact ⟨content, hline, by rw [hclose.of_text]⟩
  rcases h.of_rule.of_either with h | h
  · obtain ⟨t, hpoint, hname⟩ := h.of_both
    obtain ⟨name, hascii, rfl⟩ := exists_of_matches_asciiName hname
    exact ⟨.point name, hascii, hpoint.of_text⟩
  rcases h.of_either with h | h
  · obtain ⟨t, hopen, h⟩ := h.of_both
    obtain ⟨content, hline, rfl⟩ := hquoted h
    exact ⟨.single content, hline, hopen.of_text.trans (by simp [Access.spelling])⟩
  rcases h.of_either with h | h
  · obtain ⟨t, hopen, h⟩ := h.of_both
    obtain ⟨content, hline, rfl⟩ := hquoted h
    exact ⟨.double content, hline, hopen.of_text.trans (by simp [Access.spelling])⟩
  rcases h.of_either with h | h
  · obtain ⟨t, hopen, h⟩ := h.of_both
    obtain ⟨u, hplace, hclose⟩ := h.of_both
    obtain ⟨digits, hne, hdigits, rfl⟩ := exists_of_matches_digits hplace
    obtain rfl := hclose.of_text
    exact ⟨.place digits, ⟨hne, hdigits⟩, hopen.of_text.trans (by simp [Access.spelling])⟩
  · obtain ⟨t, hopen, h⟩ := h.of_both
    obtain ⟨u, hname, hclose⟩ := h.of_both
    obtain ⟨name, hascii, rfl⟩ := exists_of_matches_asciiName hname
    obtain rfl := hclose.of_text
    exact ⟨.named name, hascii, hopen.of_text.trans (by simp [Access.spelling])⟩

theorem isPathTail_of_matches_star_access {n : Nat} (hn : s.length ≤ n)
    (h : Matches LookRule.pattern (.star (.rule .access)) s rest) (hrest : IsPathTail rest) :
    IsPathTail s := by
  induction n generalizing s with
  | zero =>
    obtain rfl := List.length_eq_zero_iff.1 (Nat.le_zero.1 hn)
    rwa [List.suffix_nil.1 h.suffix] at hrest
  | succ n ih =>
    rcases matches_star_iff.1 h with ⟨t, haccess, hmore⟩ | ⟨-, rfl⟩
    · obtain ⟨a, ha, rfl⟩ := exists_of_matches_access haccess
      have hpos : 0 < a.spelling.length := by cases a <;> simp [Access.spelling]
      exact (ih (by rw [List.length_append] at hn; omega) hmore).cons ha
    · exact hrest

theorem isPathTail_of_matches_lookTail (h : Matches LookRule.pattern (.rule .tail) s rest) :
    IsPathTail s ∧ rest = [] := by
  obtain ⟨t, haccesses, h⟩ := h.of_rule.of_both
  obtain ⟨u, hspace, hend⟩ := h.of_both
  obtain ⟨after, hafter, rfl⟩ := hspace.of_star_one
  obtain ⟨rfl, rfl⟩ := hend.of_atEnd
  exact ⟨isPathTail_of_matches_star_access (Nat.le_refl _) haccesses
    ⟨[], after, by simp, hafter, by simp⟩, rfl⟩

/-- A quoted text ends at the first closing mark with the rest of a path behind it, which is no
later than the one that ends it in a cut. -/
theorem exists_of_lookQuoted (close : String)
    (htame : (Pattern.both (lit close) (.rule .tail)).isTame lookOrderly.empty lookOrderly.nest
      lookGrammar.depth = true)
    {content : List Char} (hcontent : ∀ c ∈ content, isLineEnd c = false)
    (htail : Matches LookRule.pattern (.rule .tail) t []) :
    ∃ u, Matches LookRule.pattern (LookRule.quotedRest close) (content ++ (close.toList ++ t)) u ∧
      Matches LookRule.pattern (.rule .tail) u [] := by
  have hstop : ∀ {s u}, s = close.toList ++ u → Matches LookRule.pattern (.rule .tail) u [] →
      Matches LookRule.pattern (LookRule.quotedRest close) s u := by
    rintro _ u rfl hu
    have hclose : Matches LookRule.pattern (lit close) (close.toList ++ u) u :=
      Matches.text close.toList u
    exact (hclose.both hu).notAhead.both.enough.both hclose
  induction content with
  | nil => exact ⟨t, hstop rfl htail, htail⟩
  | cons c content ih =>
    obtain ⟨hc, hcontent⟩ := List.forall_mem_cons.1 hcontent
    rcases lookOrderly.matches_or_fails htame (c :: (content ++ (close.toList ++ t))) with
      ⟨rest, h⟩ | h
    · obtain ⟨u, hclose, hu⟩ := h.of_both
      obtain ⟨-, rfl⟩ := isPathTail_of_matches_lookTail hu
      exact ⟨u, hstop hclose.of_text hu, hu⟩
    · obtain ⟨u, hmore, hu⟩ := ih hcontent
      obtain ⟨v, hstar, hclose⟩ := hmore.of_both
      have hline :
          Fails LookRule.pattern (.one isLineEnd) (c :: (content ++ (close.toList ++ t))) :=
        Fails.one (by simpa using hc)
      have hany : Matches LookRule.pattern anyChar (c :: (content ++ (close.toList ++ t)))
          (content ++ (close.toList ++ t)) :=
        Matches.one rfl _
      exact ⟨u, ((h.notAhead.both (hline.notAhead.both hany)).more hstar).both hclose, hu⟩

theorem matches_lookTail_of_isPathTail (h : IsPathTail s) :
    Matches LookRule.pattern (.rule .tail) s [] := by
  obtain ⟨accesses, after, haccesses, hafter, rfl⟩ := h
  induction accesses with
  | nil =>
    have hblank : ∀ c ∈ after.head?, isPathBlank c = true := fun c hc =>
      hafter c (List.mem_of_mem_head? hc)
    have hnone : Fails LookRule.pattern (.rule .access) after :=
      .rule (fails_choice hblank (fails_opened hblank rfl _))
    exact .rule (hnone.enough.both (matches_pathBlanks hafter))
  | cons a accesses ih =>
    obtain ⟨ha, haccesses⟩ := List.forall_mem_cons.1 haccesses
    have htail := ih haccesses
    have hhead : ∀ c ∈ (accesses.flatMap Access.spelling ++ after).head?, isWordRest c = false :=
      IsPathTail.isWordRest_head ⟨accesses, after, haccesses, hafter, rfl⟩
    rw [List.flatMap_cons, List.append_assoc]
    generalize accesses.flatMap Access.spelling ++ after = t at htail hhead
    -- The access that is taken may be longer than in the cut, but a tail follows it all the same.
    obtain ⟨u, haccess, hu⟩ : ∃ u, Matches LookRule.pattern (.rule .access) (a.spelling ++ t) u ∧
        Matches LookRule.pattern (.rule .tail) u [] := by
      cases a with
      | point name => exact ⟨t, .rule (matches_choice_point (matches_asciiName ha hhead)), htail⟩
      | single content =>
        obtain ⟨u, hrest, hu⟩ := exists_of_lookQuoted "']" (by decide) ha htail
        rw [Access.spelling, List.cons_append, List.cons_append, List.append_assoc]
        exact ⟨u, .rule (matches_choice_single hrest), hu⟩
      | double content =>
        obtain ⟨u, hrest, hu⟩ := exists_of_lookQuoted "\"]" (by decide) ha htail
        rw [Access.spelling, List.cons_append, List.cons_append, List.append_assoc]
        exact ⟨u, .rule (matches_choice_double hrest), hu⟩
      | place digits =>
        rw [Access.spelling, List.cons_append, List.append_assoc]
        exact ⟨t, .rule (matches_choice_place ha.1 ha.2 (Matches.text [']'] t)), htail⟩
      | named name =>
        have hname : Matches LookRule.pattern asciiName (name ++ ([']'] ++ t)) ([']'] ++ t) :=
          matches_asciiName ha (by simp; decide)
        rw [Access.spelling, List.cons_append, List.append_assoc]
        exact ⟨t, .rule (matches_choice_named ha
          ((Matches.text ['['] _).both (hname.both (Matches.text [']'] t)))), htail⟩
    obtain ⟨v, hmore, hend⟩ := hu.of_rule.of_both
    exact .rule ((haccess.more hmore).both hend)

/-! ## Paths -/

theorem nonempty_pathCut_iff {s : List Char} :
    Nonempty (PathCut s) ↔ ∃ before name tail, (∀ c ∈ before, isPathBlank c = true) ∧
      IsAsciiName name ∧ IsPathTail tail ∧ s = before ++ (name ++ tail) := by
  constructor
  · rintro ⟨before, name, accesses, after, hbefore, hname, haccesses, hafter, rfl⟩
    exact ⟨before, name, _, hbefore, hname, ⟨accesses, after, haccesses, hafter, rfl⟩, rfl⟩
  · rintro ⟨before, name, _, hbefore, hname, ⟨accesses, after, haccesses, hafter, rfl⟩, rfl⟩
    exact ⟨⟨before, name, accesses, after, hbefore, hname, haccesses, hafter, rfl⟩⟩

/-- Blanks, a name and a tail match exactly the texts that can be cut, if a tail matches exactly
what can be cut into accesses and blanks. -/
theorem exists_matches_iff_pathCut {r : ρ} {name tail : Pattern ρ}
    (hr : body r = joined [.star (.one isPathBlank), name, tail])
    (hname : ∀ {s rest}, Matches body name s rest ↔ Matches body asciiName s rest)
    (htail : ∀ {s rest}, Matches body tail s rest ↔ IsPathTail s ∧ rest = []) :
    (∃ rest, Matches body (.rule r) s rest) ↔ Nonempty (PathCut s) := by
  rw [nonempty_pathCut_iff]
  constructor
  · rintro ⟨rest, h⟩
    obtain ⟨t, hspace, hmore⟩ := (hr ▸ h.of_rule).of_both
    obtain ⟨u, hfirst, hend⟩ := hmore.of_both
    obtain ⟨before, hbefore, rfl⟩ := hspace.of_star_one
    obtain ⟨first, hascii, rfl⟩ := exists_of_matches_asciiName (hname.1 hfirst)
    exact ⟨before, first, u, hbefore, hascii, (htail.1 hend).1, rfl⟩
  · rintro ⟨before, first, u, hbefore, hascii, hu, rfl⟩
    have hhead : ∀ c ∈ (first ++ u).head?, isPathBlank c = false := by
      cases first with
      | nil => exact hascii.elim
      | cons c first =>
        rintro _ ⟨⟩
        rw [Bool.eq_false_iff]
        intro hblank
        have hword := isWordRest_of_isWordStart hascii.1
        rw [isWordRest_of_isPathBlank hblank] at hword
        cases hword
    refine ⟨[], .rule ?_⟩
    rw [hr]
    exact (matches_star_one_append hbefore hhead).both
      ((hname.2 (matches_asciiName hascii hu.isWordRest_head)).both (htail.2 ⟨hu, rfl⟩))

theorem isPath_eq_true_iff {text : String} :
    isPath text = true ↔ Nonempty (PathCut text.toList) := by
  refine pathOrderly.isMatch_run_iff.trans
    (exists_matches_iff_pathCut rfl matches_rule_iff ⟨?_, ?_⟩)
  · exact isPathTail_of_matches_tail (Nat.le_refl _)
  · rintro ⟨h, rfl⟩
    exact matches_tail_of_isPathTail h

theorem isMatch_lookGrammar_iff :
    (lookGrammar.run .path s).isMatch = true ↔ Nonempty (PathCut s) := by
  refine lookOrderly.isMatch_run_iff.trans (exists_matches_iff_pathCut rfl Iff.rfl ⟨?_, ?_⟩)
  · exact isPathTail_of_matches_lookTail
  · rintro ⟨h, rfl⟩
    exact matches_lookTail_of_isPathTail h

/-- The paths are the texts that can be cut into blanks, a name, accesses and blanks; and so are
the texts that are accepted by looking ahead. -/
theorem isPath_iff_pathCut (text : String) :
    (isPath text = true ↔ Nonempty (PathCut text.toList)) ∧
      ((lookGrammar.run .path text.toList).isMatch = true ↔ Nonempty (PathCut text.toList)) :=
  ⟨isPath_eq_true_iff, isMatch_lookGrammar_iff⟩

/-- The first mark that closes a quoted text with the rest of a path behind it ends it. -/
example : isPath "a['b']c']" = true ∧ isPath "a['b']c" = false := by decide +kernel

end EventMarkup.Script
