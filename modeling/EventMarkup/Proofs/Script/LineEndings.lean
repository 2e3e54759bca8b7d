import EventMarkup.Proofs.Script.Exchange
import EventMarkup.Proofs.Script.Foresight

/-!
# Line endings

Whether lines end with a line feed, or with a carriage return and a line feed, does not matter to a
function body, as long as no line feed has a backslash in front of it (`isBody_withReturns`). Gaps
and comments of several lines go over line breaks of both kinds, and so does template text; all
other tokens stop in front of them. A backslash takes only one character with it, so it may take a
line feed, but of the two characters it leaves the second, which a string does not go on with
(`exists_line_feed_that_matters`).
-/

namespace EventMarkup.Script

open Peg Text

variable {s t : List Char} {a p : Pattern Rule}

/-- The text with a carriage return in front of each line feed. -/
def withReturns (s : List Char) : List Char := filled '\n' ['\r', '\n'] s

namespace LineEndings

/-- Line feeds that have no backslash in front of them, and carriage returns to go with them. -/
def exchange : Exchange where
  mark := '\n'
  first := ['\n']
  second := ['\r', '\n']
  first_ne_nil := nofun
  second_ne_nil := nofun
  blank := .inl ⟨List.all_eq_true.1 (by decide), rfl⟩
  semicolon := by decide
  Admits s := s.IsChain fun c d => ¬(c = '\\' ∧ d = '\n')
  admits_of_append h := h.right_of_append
  admits_semicolon h := isChain_semicolon h (fun _ h => nomatch h.2) fun _ h => nomatch h.1

theorem left_eq (s : List Char) : exchange.left s = s := filled_singleton s

theorem right_feed (s : List Char) :
    exchange.right ('\n' :: s) = '\r' :: '\n' :: exchange.right s :=
  filled_mark s

/-! ## Tokens on one line -/

theorem parallels_text {w : List Char} (hfeed : '\n' ∉ w) (hreturn : '\r' ∉ w) :
    exchange.Parallels (.text w) :=
  Exchange.parallels_of_shuns (reads_text w) (by simpa [Pattern.shuns, exchange] using hfeed)
    (by simpa [Pattern.shuns, exchange] using hreturn)

theorem parallels_one (ok : Char → Bool) (hfeed : ok '\n' = false) (hreturn : ok '\r' = false) :
    exchange.Parallels (.one ok) :=
  Exchange.parallels_of_shuns (reads_one ok) (by simpa [Pattern.shuns, exchange] using hfeed)
    (by simpa [Pattern.shuns, exchange] using hreturn)

theorem parallels_escape : exchange.Parallels escape := by
  intro s hs
  refine Exchange.together_of_reads reads_escape ?_
  have hnone : ∀ {c : Char} (u : List Char), c ≠ '\\' → escape? (c :: u) = none :=
    fun u hc => escape?_eq_none fun _ _ h _ => hc h
  rcases s with _ | ⟨c, s⟩
  · exact .inl ⟨rfl, rfl⟩
  by_cases hfeed : c = '\n'
  · subst hfeed
    exact .inl ⟨hnone _ (by decide), hnone _ (by decide)⟩
  have hfeed : c ≠ exchange.mark := hfeed
  rw [Exchange.left, Exchange.right, filled_cons hfeed, filled_cons hfeed]
  by_cases hbackslash : c = '\\'
  · subst hbackslash
    cases s with
    | nil => exact .inl ⟨rfl, rfl⟩
    | cons d s =>
      have hd : d ≠ exchange.mark := fun h => (List.isChain_cons_cons.1 hs).1 ⟨rfl, h⟩
      rw [filled_cons hd, filled_cons hd]
      exact .inr ⟨['\\', d], s, rfl, rfl, rfl⟩
  · exact .inl ⟨hnone _ hbackslash, hnone _ hbackslash⟩

theorem parallels_enclosed (opening closing : Char) (stop : Char → Bool)
    (hopening : isBlank opening = false) (hclosing : isBlank closing = false)
    (hfeed : stop '\n' = true) (hreturn : stop '\r' = true) :
    exchange.Parallels (.both (.text [opening])
      (.both (.star (.either escape (.one fun c => !stop c))) (.text [closing]))) := by
  have hmark : ∀ {c : Char}, isBlank c = false → exchange.Parallels (.text [c]) := by
    intro c hc
    refine parallels_text ?_ ?_ <;> rw [List.mem_singleton] <;> rintro rfl <;> cases hc
  have hinside : exchange.Parallels (.one fun c => !stop c) :=
    parallels_one _ (by simpa using hfeed) (by simpa using hreturn)
  exact (hmark hopening).both (((parallels_escape.either hinside).star rfl).both (hmark hclosing))

theorem parallels_string : exchange.Parallels stringLiteral :=
  ((parallels_enclosed '\'' '\'' (stopsString '\'') rfl rfl rfl rfl).either
    (parallels_enclosed '"' '"' (stopsString '"') rfl rfl rfl rfl)).token

theorem parallels_regex : exchange.Parallels regexLiteral := by
  have hslash : exchange.Parallels (.lit "/") := parallels_text (by decide) (by decide)
  have hstar : exchange.Parallels (.lit "*") := parallels_text (by decide) (by decide)
  have hinside := parallels_escape.either
    ((parallels_enclosed '[' ']' stopsClass rfl rfl rfl rfl).either
      (parallels_one (fun c => !(c == '/' || isLineEnd c)) rfl rfl))
  have hflags := (parallels_one isNameRest (by decide) (by decide)).star rfl
  exact (hslash.both ((hslash.either hstar).notAhead.both
    ((hinside.plus (by decide)).both (hslash.both hflags)))).token

/-! ## Tokens that go over line breaks -/

theorem parallels_star_break (ha : a.isSolid = true) (hfeed : ∀ t, Takes a ('\n' :: t) t)
    (hreturn : ∀ t, Takes a ('\r' :: '\n' :: t) ('\n' :: t))
    (h : ∀ s, exchange.Admits s → s.head? ≠ some '\n' → exchange.Together a s) :
    exchange.Parallels (.star a) := by
  refine Exchange.parallels_star_of_leads fun s hs => ?_
  by_cases hhead : s.head? = some '\n'
  · obtain ⟨t, rfl⟩ := List.head?_eq_some_iff.1 hhead
    refine .inr ⟨['\n'], t, nofun, rfl, ?_, ?_⟩
    · rw [left_eq, left_eq]
      exact Exchange.leads_of_takes (hfeed t)
    · rw [right_feed]
      exact fun rest ht => (hreturn _).more ((hfeed _).more ht)
  · exact (h s hs hhead).leads ha

theorem parallels_plus_break (ha : a.isSolid = true) (hfeed : ∀ t, Takes a ('\n' :: t) t)
    (hreturn : ∀ t, Takes a ('\r' :: '\n' :: t) ('\n' :: t))
    (h : ∀ s, exchange.Admits s → s.head? ≠ some '\n' → exchange.Together a s) :
    exchange.Parallels (.plus a) := by
  have hstar := parallels_star_break ha hfeed hreturn h
  intro s hs
  by_cases hhead : s.head? = some '\n'
  · obtain ⟨t, rfl⟩ := List.head?_eq_some_iff.1 hhead
    rcases hstar t hs.tail with ⟨hl, -⟩ | ⟨y, r, rfl, hl, hr⟩
    · exact absurd hl not_refuses_star
    · refine .inr ⟨'\n' :: y, r, rfl, ?_, ?_⟩
      · rw [left_eq] at hl ⊢
        exact (hfeed _).both hl
      · rw [right_feed]
        exact (hreturn _).both ((hfeed _).more hr)
  · exact (h s hs hhead).both hstar hs

theorem parallels_blanks : exchange.Parallels (.star (.one isGapBlank)) :=
  parallels_star_break rfl (fun _ => (reads_one _).takes rfl) (fun _ => (reads_one _).takes rfl)
    fun _ _ hhead => Exchange.together_one _ hhead

theorem parallels_commentInside : exchange.Parallels (.star (.anyBut (.lit "*/"))) := by
  have hclose : exchange.Parallels (.lit "*/") := parallels_text (by decide) (by decide)
  have hstep : ∀ {c : Char} (t : List Char), c ≠ '*' → Takes (.anyBut (.lit "*/")) (c :: t) t := by
    intro c t hc
    have hopen : dropFront? "*/".toList (c :: t) = none := if_neg hc.symm
    exact ((reads_text _).refuses hopen).notAhead.both ((reads_one _).takes rfl)
  refine parallels_star_break (by decide) (fun t => hstep t (by decide))
    (fun t => hstep _ (by decide)) fun s hs hhead => ?_
  rcases hclose s hs with ⟨hl, hr⟩ | ⟨y, r, -, hl, hr⟩
  · rcases Exchange.together_one (E := exchange) (fun _ => true) hhead with ⟨hl', hr'⟩ | ⟨y, r, hsplit, hl', hr'⟩
    · exact .inl ⟨hl.notAhead.both_refuses hl', hr.notAhead.both_refuses hr'⟩
    · exact .inr ⟨y, r, hsplit, hl.notAhead.both hl', hr.notAhead.both hr'⟩
  · exact .inl ⟨hl.notAhead.both, hr.notAhead.both⟩

theorem parallels_comment : exchange.Parallels comment := by
  have htext : ∀ {w : String}, w ∈ ["/*", "*/", "//"] → exchange.Parallels (.lit w) := by
    intro w hw
    have hall : ∀ w ∈ ["/*", "*/", "//"], '\n' ∉ w.toList ∧ '\r' ∉ w.toList := by decide
    exact parallels_text (hall w hw).1 (hall w hw).2
  have hblock := (htext (w := "/*") (by simp)).both
    (parallels_commentInside.both (htext (w := "*/") (by simp)))
  have hline := (htext (w := "//") (by simp)).both
    ((parallels_one (fun c => !isLineEnd c) rfl rfl).star rfl)
  exact hblock.either hline

theorem parallels_gap : exchange.Parallels gap :=
  parallels_blanks.both ((parallels_comment.both parallels_blanks).star (by decide))

theorem parallels_templateText : exchange.Parallels templateChars := by
  have hdollar : exchange.Parallels (.both (.lit "$") (.notAhead (.lit "\x7b"))) :=
    (parallels_text (by decide) (by decide)).both
      (parallels_text (by decide) (by decide)).notAhead
  have hstep : ∀ {c : Char} (t : List Char), c ≠ '\\' → c ≠ '$' → c ≠ '\x60' →
      Takes (.either escape (.either (.both (.lit "$") (.notAhead (.lit "\x7b")))
        (.one fun c => !(c == '\x60' || c == '\\' || c == '$')))) (c :: t) t := by
    intro c t hbackslash hdollar hquote
    have hescape : escape? (c :: t) = none := escape?_eq_none fun _ _ h _ => hbackslash h
    have hone : dropFront? "$".toList (c :: t) = none := if_neg hdollar.symm
    refine (reads_escape.refuses hescape).either_takes
      (((reads_text _).refuses hone).both.either_takes ((reads_one _).takes (if_pos ?_)))
    simp [hbackslash, hdollar, hquote]
  refine (parallels_plus_break (by decide) (fun t => ?_) (fun t => ?_) fun s hs hhead => ?_).token
  · exact hstep t (by decide) (by decide) (by decide)
  · exact hstep _ (by decide) (by decide) (by decide)
  · exact (parallels_escape s hs).either ((hdollar s hs).either (Exchange.together_one _ hhead))

/-! ## Bodies -/

theorem together_leaf {l : Leaf} (hl : l.isSpelledSolid = true) {x : Reply Rule}
    (hs : exchange.Admits s) (h : Runs Rule.pattern l.pattern (exchange.left s) x) :
    exchange.Together l.pattern s := by
  cases hplain : l.isPlainToken with
  | true =>
    exact Exchange.together_of_shuns (shuns_blank hplain hl (by decide))
      (shuns_blank hplain hl (by decide)) h
  | false =>
    cases l with
    | string => exact parallels_string s hs
    | regex => exact parallels_regex s hs
    | templateText => exact parallels_templateText s hs
    | gap => exact parallels_gap s hs
    | pause => exact Exchange.parallels_pause (by decide) s hs
    | _ => cases hplain

def vocabulary : exchange.lockstep.Vocabulary :=
  exchange.vocabulary Leaf.isSpelledSolid (fun _ => true) (fun _ hl _ _ => together_leaf hl)
    isSpelledSolid_gap (fun r _ => .inr (consistsOf_ofRule_solid r)) consistsOf_bodyParts_solid

end LineEndings

/-- A text in which no line feed is escaped is a function body if and only if it is one with a
carriage return in front of each line feed. -/
theorem isBody_withReturns (h : ¬ ['\\', '\n'] <:+: s) :
    isBody (String.ofList (withReturns s)) = isBody (String.ofList s) := by
  have hchain : LineEndings.exchange.Admits s := by
    refine List.isChain_iff_forall_rel_of_append_cons_cons.2 ?_
    rintro c d u v rfl ⟨rfl, rfl⟩
    exact h ⟨u, v, by simp⟩
  have hsame := Exchange.isBody_eq LineEndings.vocabulary rfl hchain
  rw [LineEndings.left_eq] at hsame
  exact hsame.symm

/-- Of a carriage return and a line feed a backslash takes the first only, and the string has no
end. -/
theorem exists_line_feed_that_matters :
    ¬ ∀ s : List Char, '\r' ∉ s →
      isBody (String.ofList (withReturns s)) = isBody (String.ofList s) := by
  intro h
  have hsame := h ['\'', 'a', '\\', '\n', 'b', '\''] (by decide)
  exact absurd hsame (by decide +kernel)

end EventMarkup.Script
