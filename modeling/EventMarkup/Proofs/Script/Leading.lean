import EventMarkup.Proofs.Script.Rounds
import EventMarkup.Proofs.TextRun

/-!
# What stands in front of a body

The grammar passes over blanks and comments in front of the first token, so they move the place
where it stops and change nothing else (`verdict_append`). A body stays one behind them
(`isBody_append_of_leading`), and blanks alone change no answer, unless a byte order mark is among
them (`isBody_append_of_blanks`). Other texts may become bodies: `startsLine` takes a comment, or a
byte order mark, for a token that the line follows, and so there is a round before the first token
(`exists_leading_that_matters`).
-/

namespace EventMarkup.Script

open Peg Text

variable {p s rest : List Char} {k n : Nat}

/-- Blanks of the gap and complete comments. A comment of several lines ends with the first closing
mark behind its opening mark, one that ends its line takes the line break with it. -/
inductive IsLeading : List Char → Prop where
  | nil : IsLeading []
  | blank {c : Char} {p : List Char} (hc : isGapBlank c = true) (h : IsLeading p) :
    IsLeading (c :: p)
  | block {inside p : List Char} (hinside : ¬ ['*', '/'] <:+: inside ++ ['*']) (h : IsLeading p) :
    IsLeading ('/' :: '*' :: (inside ++ '*' :: '/' :: p))
  | line {inside p : List Char} {e : Char} (hinside : ∀ c ∈ inside, isLineEnd c = false)
    (he : isLineEnd e = true) (h : IsLeading p) : IsLeading ('/' :: '/' :: (inside ++ e :: p))

/-! ## The gap -/

theorem cutAt?_close {inside : List Char} (h : ¬ ['*', '/'] <:+: inside ++ ['*'])
    (rest : List Char) :
    cutAt? ['*', '/'] (inside ++ '*' :: '/' :: rest) = some (inside, rest) := by
  refine Markup.cutAt?_eq_some_iff.2 ⟨by simp, fun front back heq => ?_⟩
  by_contra hlt
  have hfront : front ++ ['*', '/'] <+: inside ++ ['*'] :=
    List.prefix_of_prefix_length_le ⟨back, heq.symm⟩ ⟨'/' :: rest, by simp⟩ (by simp; omega)
  exact h ((List.suffix_append front _).isInfix.trans hfront.isInfix)

theorem skipGap_comment {t : List Char} (h : comment? ('/' :: t) = some rest) :
    skipGap ('/' :: t) = skipGap rest :=
  skipGap_of_comment? ((congrArg comment? (List.dropWhile_cons_of_neg (by decide))).trans h)

theorem IsLeading.skipGap_append (h : IsLeading p) (s : List Char) :
    skipGap (p ++ s) = skipGap s := by
  induction h with
  | nil => rfl
  | blank hc _ ih => exact (skipGap_blank hc _).trans ih
  | @block inside p hinside _ ih =>
    have hcomment : comment? ('/' :: '*' :: (inside ++ '*' :: '/' :: p) ++ s) = some (p ++ s) := by
      show (cutAt? ['*', '/'] (inside ++ '*' :: '/' :: p ++ s)).map Prod.snd = some (p ++ s)
      rw [List.append_assoc]
      exact congrArg (Option.map Prod.snd) (cutAt?_close hinside (p ++ s))
    exact (skipGap_comment hcomment).trans ih
  | @line inside p e hinside he _ ih =>
    have hcomment : comment? ('/' :: '/' :: (inside ++ e :: p) ++ s) = some (e :: (p ++ s)) := by
      show some ((inside ++ e :: p ++ s).dropWhile fun c => !isLineEnd c) = some (e :: (p ++ s))
      rw [List.append_assoc]
      exact congrArg some (dropWhile_front (fun c hc => by simp [hinside c hc]) (by simp [he]))
    exact (skipGap_comment hcomment).trans ((skipGap_blank (isGapBlank_of_isLineEnd he) _).trans ih)

/-! ## Verdicts -/

def Verdict.behind (n : Nat) : Verdict → Verdict
  | .accepted => .accepted
  | .stopped place => .stopped (n + place)

/-- What a body has behind the gap at its front. -/
def bodyRest : Pattern Rule :=
  row [.optional (.rule .expression), .optional (row [.lit ";", many (.rule .statement)]),
    endOfScript]

theorem tells_bodyRest : bodyRest.tellsFailing told = true := by decide +kernel

theorem verdict_append (h : skipGap (p ++ s) = skipGap s) :
    verdict (p ++ s) = (verdict s).behind p.length := by
  obtain ⟨ts, w, far, hgap⟩ := reads_gap.takes (rfl : some (skipGap s) = _)
  obtain ⟨ts', w', far', hgap'⟩ := reads_gap.takes (congrArg some h)
  obtain rfl : far = none := hgap.reach_of_isMute rfl
  obtain rfl : far' = none := hgap'.reach_of_isMute rfl
  have hw := hgap.length_eq
  have hw' := hgap'.length_eq
  rw [List.length_append] at hw'
  obtain rfl : w' = p.length + w := by omega
  obtain ⟨x, hrest⟩ : ∃ x, Runs Rule.pattern bodyRest (skipGap s) x := by
    cases orderly.runs_run .body s with
    | rule hbody _ =>
      cases (hbody : Runs Rule.pattern (.both gap bodyRest) s _) with
      | both ha hb _ =>
        cases ha.unique hgap
        exact ⟨_, hb⟩
      | bothFails ha => cases ha.unique hgap
  have hrun : Runs Rule.pattern (.rule .body) s _ := .rule (.both hgap hrest rfl) rfl
  have hrun' : Runs Rule.pattern (.rule .body) (p ++ s) _ := .rule (.both hgap' hrest rfl) rfl
  rw [verdict, verdict, orderly.run_eq_iff.2 hrun, orderly.run_eq_iff.2 hrun']
  cases x with
  | matched => rfl
  | exhausted => exact absurd rfl hrest.ne_exhausted
  | failed far =>
    obtain ⟨k, rfl⟩ := Option.ne_none_iff_exists'.1 (hrest.tells told_sound tells_bodyRest)
    exact congrArg Verdict.stopped (Nat.add_assoc p.length w k)

theorem withSemicolon_append (p s : List Char) (k : Nat) :
    withSemicolon (p ++ s) (p.length + k) = p ++ withSemicolon s k := by
  rw [withSemicolon, List.take_length_add_append, List.drop_length_add_append, List.append_assoc]
  rfl

theorem blanks_append {r : List Char} (h : (r.dropWhile isBlank).isEmpty = false) (q : List Char) :
    (r ++ q).takeWhile isBlank = r.takeWhile isBlank ∧
      (r ++ q).dropWhile isBlank = r.dropWhile isBlank ++ q := by
  have hhead : ∀ c ∈ (r.dropWhile isBlank ++ q).head?, isBlank c = false := by
    have hfirst := List.head?_dropWhile_not isBlank r
    cases hdrop : r.dropWhile isBlank with
    | nil => simp [hdrop] at h
    | cons d x =>
      rw [hdrop] at hfirst
      exact fun c hc => Option.some.inj hc ▸ hfirst
  have hall : ∀ c ∈ r.takeWhile isBlank, isBlank c = true := List.all_eq_true.1 List.all_takeWhile
  have hsplit : r ++ q = r.takeWhile isBlank ++ (r.dropWhile isBlank ++ q) := by
    rw [← List.append_assoc, List.takeWhile_append_dropWhile]
  rw [hsplit]
  exact ⟨takeWhile_front hall hhead, dropWhile_front hall hhead⟩

theorem startsLine_append (h : startsLine s k = true) (p : List Char) :
    startsLine (p ++ s) (p.length + k) = true := by
  unfold startsLine at h ⊢
  simp only [List.take_length_add_append, List.drop_length_add_append, List.reverse_append,
    Bool.and_eq_true, Bool.not_eq_true'] at h ⊢
  obtain ⟨⟨hfollows, hbreaks⟩, hbehind⟩ := h
  obtain ⟨htake, hdrop⟩ := blanks_append hbehind p.reverse
  rw [htake, hdrop]
  refine ⟨⟨hfollows, hbreaks⟩, ?_⟩
  cases hempty : ((s.take k).reverse.dropWhile isBlank) with
  | nil => simp [hempty] at hbehind
  | cons c x => rfl

theorem startsLine_append_blanks (hp : ∀ c ∈ p, isBlank c = true) (s : List Char) (k : Nat) :
    startsLine (p ++ s) (p.length + k) = startsLine s k := by
  cases hline : startsLine s k with
  | true => exact startsLine_append hline p
  | false =>
    unfold startsLine at hline ⊢
    simp only [List.take_length_add_append, List.drop_length_add_append, List.reverse_append]
      at hline ⊢
    cases hempty : ((s.take k).reverse.dropWhile isBlank).isEmpty with
    | true =>
      have hblank := List.dropWhile_eq_nil_iff.1 (List.isEmpty_iff.1 hempty)
      have hnone : ((s.take k).reverse ++ p.reverse).dropWhile isBlank = [] :=
        List.dropWhile_eq_nil_iff.2 (List.forall_mem_append.2
          ⟨hblank, fun c hc => hp c (List.mem_reverse.1 hc)⟩)
      rw [hnone]
      exact Bool.and_false _
    | false =>
      obtain ⟨htake, hdrop⟩ := blanks_append hempty p.reverse
      rw [hempty, Bool.not_false, Bool.and_true] at hline
      rw [htake, hline, Bool.false_and]

/-! ## Bodies -/

/-- What leads a text does not change a judgement in its favour, and none at all if it is blank. -/
theorem Judged.append {answer : Bool} (h : Judged s answer) (hp : IsLeading p)
    (hblank : answer = true ∨ ∀ c ∈ p, isBlank c = true) : Judged (p ++ s) answer := by
  have hverdict : ∀ {s v}, verdict s = v → verdict (p ++ s) = v.behind p.length := fun h =>
    (verdict_append (hp.skipGap_append _)).trans (congrArg _ h)
  induction h with
  | accepted h => exact .accepted (hverdict h)
  | refused h hline =>
    refine .refused (hverdict h) ?_
    rw [startsLine_append_blanks (hblank.resolve_left nofun), hline]
  | again h hline _ ih =>
    refine .again (hverdict h) (startsLine_append hline p) ?_
    rw [withSemicolon_append]
    exact ih hblank

theorem isBody_append (e : List Char) (hp : IsLeading p)
    (hblank : isBody (String.ofList e) = true ∨ ∀ c ∈ p, isBlank c = true) :
    isBody (String.ofList (p ++ e)) = isBody (String.ofList e) := by
  refine (judged_iff.1 ?_).symm
  have hjudged := judged_isBody (String.ofList e)
  rw [String.toList_ofList] at hjudged ⊢
  exact hjudged.append hp hblank

theorem isBody_append_of_leading {e : List Char} (hp : IsLeading p)
    (h : isBody (String.ofList e) = true) : isBody (String.ofList (p ++ e)) = true :=
  (isBody_append e hp (.inl h)).trans h

theorem isBody_append_of_blanks (hp : ∀ c ∈ p, isGapBlank c = true ∧ isBlank c = true)
    (e : List Char) : isBody (String.ofList (p ++ e)) = isBody (String.ofList e) := by
  refine isBody_append e ?_ (.inr fun c hc => (hp c hc).2)
  induction p with
  | nil => exact .nil
  | cons c p ih => exact .blank (hp c (by simp)).1 (ih fun d hd => hp d (by simp [hd]))

/-- With a comment in front, the first token stands on a new line behind something: `if` is behind a
semicolon then, where a statement may stand. -/
theorem exists_leading_that_matters :
    ¬ ∀ p e, IsLeading p → isBody (String.ofList (p ++ e)) = isBody (String.ofList e) := by
  intro h
  have hleading : IsLeading "/*c*/\n".toList :=
    @IsLeading.block ['c'] ['\n'] (by decide) (.blank (by decide) .nil)
  exact absurd (h _ "if (a) b".toList hleading) (by decide +kernel)

/-- So do a comment that ends its line and a byte order mark on a line of its own. -/
example : isBody "//c\nif (a) b" = true ∧ isBody "\uFEFF\nif (a) b" = true ∧
    isBody "\n if (a) b" = false := by
  decide +kernel

end EventMarkup.Script
