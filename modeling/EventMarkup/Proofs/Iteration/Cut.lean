import EventMarkup.Iteration
import EventMarkup.Proofs.Peg.Parting

/-!
# How iterations are cut

An iteration is cut at the first `in` or `of` that has blanks on both sides: `FirstCut` is that cut,
with all the blanks on either side of the word. What stands before it may in turn be cut into the
two or three items of a list (`ListCut`). Neither cut mentions the grammar. There is an iteration
exactly if the text has a separator, its source stands behind the first one, and what it binds
depends on what stands before it without the blanks around (`read?_splits_at_first_separator`).
-/

namespace EventMarkup.Iteration

open Peg Peg.Pattern Text

/-! ## Cuts -/

def IsBlanks (w : List Char) : Prop := w ≠ [] ∧ ∀ c ∈ w, isBlank c = true

def separatorWords : List (List Char) := [['i', 'n'], ['o', 'f']]

/-- A word between names and source, with blanks on both sides. -/
def IsSeparator (w : List Char) : Prop :=
  ∃ before word after, IsBlanks before ∧ word ∈ separatorWords ∧ IsBlanks after ∧
    w = before ++ (word ++ after)

def StartsSeparator (s : List Char) : Prop := ∃ w, IsSeparator w ∧ w <+: s

/-- No separator starts in the front of a text with the given rest. -/
def FreeBefore (rest front : List Char) : Prop :=
  ∀ u v, front = u ++ v → v ≠ [] → ¬ StartsSeparator (v ++ rest)

/-- A text cut at the first separator in it. -/
structure FirstCut (s : List Char) where
  /-- What stands before the separator. -/
  left : List Char
  /-- The blanks before the word. -/
  before : List Char
  word : List Char
  /-- The blanks behind the word. -/
  after : List Char
  /-- What stands behind the separator. -/
  right : List Char
  before_blanks : IsBlanks before
  word_mem : word ∈ separatorWords
  after_blanks : IsBlanks after
  /-- The separator takes all blanks on its left. -/
  left_last : ∀ c ∈ left.getLast?, isBlank c = false
  /-- The separator takes all blanks on its right. -/
  right_head : ∀ c ∈ right.head?, isBlank c = false
  eq_append : s = left ++ (before ++ (word ++ (after ++ right)))
  free : FreeBefore (before ++ (word ++ (after ++ right))) left

/-- An item of a list in front of the rest of the list: a pattern up to the first closing brace, if
there is one, or else what stands before the next comma or parenthesis. -/
inductive IsItem : List Char → List Char → Prop where
  | braced {inner rest : List Char} (h : '\x7d' ∉ inner) :
    IsItem ('\x7b' :: (inner ++ ['\x7d'])) rest
  | plain {item rest : List Char} (hitem : ∀ c ∈ item, c ≠ ',' ∧ c ≠ ')')
    (hopen : item.head? = some '\x7b' → '\x7d' ∉ item ++ rest) : IsItem item rest

/-- What stands behind the second item of a list. -/
def listEnd (third : Option (List Char)) : List Char :=
  match third with
  | none => [')']
  | some item => ',' :: (item ++ [')'])

/-- A text cut into the items of a list in parentheses. -/
structure ListCut (s : List Char) where
  first : List Char
  second : List Char
  third : Option (List Char)
  eq_append : s = '(' :: (first ++ ',' :: (second ++ listEnd third))
  first_isItem : IsItem first (',' :: (second ++ listEnd third))
  second_isItem : IsItem second (listEnd third)
  third_isItem : ∀ item ∈ third, IsItem item [')']

/-- What an iteration binds, by what stands before the separator. A third item that is empty binds
nothing, but one that is blank does. -/
def Binds (left : List Char) (i : Iteration) : Prop :=
  (∃ cut : ListCut left, i.item = String.ofList (trim cut.first) ∧
    i.iterator1 = some (String.ofList (trim cut.second)) ∧
    i.iterator2 = (cut.third.filter (!·.isEmpty)).map fun item => String.ofList (trim item)) ∨
  ¬ Nonempty (ListCut left) ∧ i.item = String.ofList left ∧ i.iterator1 = none ∧ i.iterator2 = none

variable {s t u v w rest : List Char}

/-! ## The grammar ends -/

def orderly : grammar.Orderly where
  empty r := r matches .left | .right | .item
  nest r := if r matches .iteration | .list then 40 else if r matches .left then 20 else 10
  empty_body r := by cases r <;> decide +kernel
  nest_body r := by cases r <;> decide +kernel
  nest_lt r := by cases r <;> decide +kernel
  tame_body r := by cases r <;> decide +kernel

/-! ## Separators -/

theorem head?_trimStart (s : List Char) : ∀ c ∈ (trimStart s).head?, isBlank c = false := by
  intro c hc
  have hdrop := List.head?_dropWhile_not isBlank s
  rw [Option.mem_def, trimStart] at hc
  rw [hc] at hdrop
  exact hdrop

theorem isBlank_takeWhile (s : List Char) : ∀ c ∈ s.takeWhile isBlank, isBlank c = true :=
  List.all_eq_true.1 List.all_takeWhile

theorem IsBlanks.append_takeWhile (h : IsBlanks w) (t : List Char) :
    IsBlanks (w ++ t.takeWhile isBlank) :=
  ⟨by simp [h.1], List.forall_mem_append.2 ⟨h.2, isBlank_takeWhile t⟩⟩

theorem matches_blanks_iff :
    Matches grammar.body (plus (.one isBlank)) s rest ↔
      ∃ w, IsBlanks w ∧ (∀ c ∈ rest.head?, isBlank c = false) ∧ s = w ++ rest := by
  constructor
  · intro h
    obtain ⟨t, hfirst, hmore⟩ := h.of_both
    obtain ⟨c, hc, rfl⟩ := hfirst.of_one
    obtain rfl := hmore.unique (matches_star_one isBlank t)
    exact ⟨c :: t.takeWhile isBlank,
      ⟨by simp, List.forall_mem_cons.2 ⟨hc, isBlank_takeWhile t⟩⟩, head?_trimStart t, by simp⟩
  · rintro ⟨w, ⟨hne, hw⟩, hrest, rfl⟩
    obtain ⟨c, w, rfl⟩ := List.exists_cons_of_ne_nil hne
    obtain ⟨hc, hw⟩ := List.forall_mem_cons.1 hw
    exact (Matches.one hc _).both (matches_star_one_append hw hrest)

theorem matches_word_iff :
    Matches grammar.body (.either (lit "in") (lit "of")) s rest ↔
      ∃ word ∈ separatorWords, s = word ++ rest := by
  constructor
  · intro h
    rcases h.of_either with h | h
    · exact ⟨['i', 'n'], by decide, h.of_text⟩
    · exact ⟨['o', 'f'], by decide, h.of_text⟩
  · rintro ⟨word, hword, rfl⟩
    simp only [separatorWords, List.mem_cons, List.not_mem_nil, or_false] at hword
    rcases hword with rfl | rfl
    · exact (Matches.text _ rest).either
    · exact (Fails.text rfl).either_matches (Matches.text _ rest)

theorem head?_word {word : List Char} (h : word ∈ separatorWords) :
    ∀ c ∈ (word ++ rest).head?, isBlank c = false := by
  simp only [separatorWords, List.mem_cons, List.not_mem_nil, or_false] at h
  rcases h with rfl | rfl <;> rintro _ ⟨⟩ <;> rfl

/-- A separator takes all the blanks behind its word. -/
theorem matches_separator_iff :
    Matches grammar.body (.rule .separator) s rest ↔
      ∃ before word after, IsBlanks before ∧ word ∈ separatorWords ∧ IsBlanks after ∧
        (∀ c ∈ rest.head?, isBlank c = false) ∧ s = before ++ (word ++ (after ++ rest)) := by
  rw [matches_rule_iff]
  constructor
  · intro h
    obtain ⟨t, hfirst, h⟩ := h.of_both
    obtain ⟨u, hsecond, hthird⟩ := h.of_both
    obtain ⟨before, hbefore, -, rfl⟩ := matches_blanks_iff.1 hfirst
    obtain ⟨word, hword, rfl⟩ := matches_word_iff.1 hsecond
    obtain ⟨after, hafter, hrest, rfl⟩ := matches_blanks_iff.1 hthird
    exact ⟨before, word, after, hbefore, hword, hafter, hrest, rfl⟩
  · rintro ⟨before, word, after, hbefore, hword, hafter, hrest, rfl⟩
    exact (matches_blanks_iff.2 ⟨before, hbefore, head?_word hword, rfl⟩).both
      ((matches_word_iff.2 ⟨word, hword, rfl⟩).both
        (matches_blanks_iff.2 ⟨after, hafter, hrest, rfl⟩))

theorem startsSeparator_iff_exists_matches :
    StartsSeparator s ↔ ∃ rest, Matches grammar.body (.rule .separator) s rest := by
  constructor
  · rintro ⟨_, ⟨before, word, after, hbefore, hword, hafter, rfl⟩, t, rfl⟩
    -- the blanks that follow the given ones belong to the separator as well
    exact ⟨trimStart t, matches_separator_iff.2 ⟨before, word, after ++ t.takeWhile isBlank,
      hbefore, hword, hafter.append_takeWhile t, head?_trimStart t, by simp [trimStart]⟩⟩
  · rintro ⟨rest, h⟩
    obtain ⟨before, word, after, hbefore, hword, hafter, -, rfl⟩ := matches_separator_iff.1 h
    exact ⟨_, ⟨before, word, after, hbefore, hword, hafter, rfl⟩, rest, by simp⟩

theorem fails_separator_iff :
    Fails grammar.body (.rule .separator) s ↔ ¬ StartsSeparator s := by
  rw [startsSeparator_iff_exists_matches]
  refine ⟨fun h ⟨rest, hmatch⟩ => hmatch.not_fails h, fun h => ?_⟩
  exact (orderly.matches_or_fails (orderly.rule_tame .separator) s).resolve_left h

theorem not_startsSeparator_nil : ¬ StartsSeparator [] := by
  rintro ⟨_, ⟨before, word, after, hbefore, -, -, rfl⟩, h⟩
  exact hbefore.1 (List.append_eq_nil_iff.1 (List.prefix_nil.1 h)).1

theorem StartsSeparator.cons_blank {c : Char} (hc : isBlank c = true) (h : StartsSeparator s) :
    StartsSeparator (c :: s) := by
  obtain ⟨_, ⟨before, word, after, hbefore, hword, hafter, rfl⟩, hprefix⟩ := h
  exact ⟨_, ⟨c :: before, word, after, ⟨by simp, List.forall_mem_cons.2 ⟨hc, hbefore.2⟩⟩, hword,
    hafter, rfl⟩, (List.prefix_cons_inj c).2 hprefix⟩

/-! ## Up to the first separator -/

theorem freeBefore_nil : FreeBefore rest [] := by
  intro u v huv hv
  exact absurd (List.append_eq_nil_iff.1 huv.symm).2 hv

theorem freeBefore_cons_iff {c : Char} :
    FreeBefore rest (c :: s) ↔ ¬ StartsSeparator (c :: (s ++ rest)) ∧ FreeBefore rest s := by
  constructor
  · intro h
    exact ⟨h [] (c :: s) rfl (by simp), fun u v huv hv => h (c :: u) v (by simp [huv]) hv⟩
  · rintro ⟨hfirst, hmore⟩ u v huv hv
    cases u with
    | nil =>
      rw [List.nil_append] at huv
      exact huv ▸ hfirst
    | cons d u =>
      cases huv
      exact hmore u v rfl hv

theorem exists_freeBefore (s : List Char) :
    ∃ front rest, s = front ++ rest ∧ FreeBefore rest front ∧ (rest = [] ∨ StartsSeparator rest) := by
  induction s with
  | nil => exact ⟨[], [], rfl, freeBefore_nil, .inl rfl⟩
  | cons c s ih =>
    by_cases hstarts : StartsSeparator (c :: s)
    · exact ⟨[], c :: s, rfl, freeBefore_nil, .inr hstarts⟩
    · obtain ⟨front, rest, rfl, hfree, hrest⟩ := ih
      exact ⟨c :: front, rest, rfl, freeBefore_cons_iff.2 ⟨hstarts, hfree⟩, hrest⟩

theorem FreeBefore.matches {front : List Char} (h : FreeBefore rest front)
    (hrest : rest = [] ∨ StartsSeparator rest) :
    Matches grammar.body (.star (anyBut (.rule .separator))) (front ++ rest) rest := by
  induction front with
  | nil =>
    refine Fails.enough ?_
    rcases hrest with rfl | hstarts
    · exact (fails_separator_iff.2 not_startsSeparator_nil).notAhead.both_fails
        (Fails.one (by simp))
    · obtain ⟨t, ht⟩ := startsSeparator_iff_exists_matches.1 hstarts
      exact ht.notAhead.both
  | cons c front ih =>
    obtain ⟨hfirst, hmore⟩ := freeBefore_cons_iff.1 h
    exact ((fails_separator_iff.2 hfirst).notAhead.both (Matches.one rfl _)).more (ih hmore)

theorem FreeBefore.exists_firstCut {front : List Char} (hfree : FreeBefore (w ++ t) front)
    (hw : IsSeparator w) :
    ∃ cut : FirstCut (front ++ (w ++ t)), cut.left = front ∧ cut.right = trimStart t := by
  have hstarts : StartsSeparator (w ++ t) := ⟨w, hw, List.prefix_append w t⟩
  obtain ⟨before, word, after, hbefore, hword, hafter, rfl⟩ := hw
  have heq : before ++ (word ++ after) ++ t =
      before ++ (word ++ (after ++ t.takeWhile isBlank ++ trimStart t)) := by
    simp [trimStart]
  refine ⟨⟨front, before, word, after ++ t.takeWhile isBlank, trimStart t, hbefore, hword,
    hafter.append_takeWhile t, fun c hc => ?_, head?_trimStart t, by rw [heq], heq ▸ hfree⟩, rfl, rfl⟩
  rw [Bool.eq_false_iff]
  intro hblank
  obtain ⟨u, rfl⟩ := List.getLast?_eq_some_iff.1 hc
  exact hfree u [c] rfl (by simp) (hstarts.cons_blank hblank)

theorem nonempty_firstCut_or_free (s : List Char) : Nonempty (FirstCut s) ∨ FreeBefore [] s := by
  obtain ⟨front, rest, rfl, hfree, rfl | hstarts⟩ := exists_freeBefore s
  · exact .inr (by simpa using hfree)
  · obtain ⟨w, hw, t, rfl⟩ := hstarts
    obtain ⟨cut, -⟩ := hfree.exists_firstCut hw
    exact .inl ⟨cut⟩

theorem FirstCut.startsSeparator (cut : FirstCut s) :
    StartsSeparator (cut.before ++ (cut.word ++ (cut.after ++ cut.right))) :=
  ⟨_, ⟨_, _, _, cut.before_blanks, cut.word_mem, cut.after_blanks, rfl⟩, cut.right, by simp⟩

theorem FirstCut.exists_separator (cut : FirstCut s) :
    ∃ u w v, IsSeparator w ∧ s = u ++ (w ++ v) := by
  refine ⟨cut.left, cut.before ++ (cut.word ++ cut.after), cut.right, ?_, ?_⟩
  · exact ⟨_, _, _, cut.before_blanks, cut.word_mem, cut.after_blanks, rfl⟩
  · simpa using cut.eq_append

/-! ## Parts of an iteration -/

theorem FirstCut.picks (cut : FirstCut s) {wanted : Rule → Bool}
    (hwhole : wanted .iteration = false) (hseparator : wanted .separator = false)
    {leftParts rightParts : List (List Char)}
    (hleft : Picks grammar.body wanted (.rule .left) s leftParts
      (cut.before ++ (cut.word ++ (cut.after ++ cut.right))))
    (hright : Picks grammar.body wanted (.rule .right) cut.right rightParts []) :
    Picks grammar.body wanted (.rule .iteration) s (leftParts ++ rightParts) [] := by
  have hmiddle : Matches grammar.body (.rule .separator)
      (cut.before ++ (cut.word ++ (cut.after ++ cut.right))) cut.right :=
    matches_separator_iff.2 ⟨_, _, _, cut.before_blanks, cut.word_mem, cut.after_blanks,
      cut.right_head, rfl⟩
  have hpicks : Picks grammar.body wanted (.rule .separator)
      (cut.before ++ (cut.word ++ (cut.after ++ cut.right))) [] cut.right :=
    (picks_unwanted_iff hseparator).2
      ((picks_isRuleFree_iff rfl).2 ⟨hmiddle.of_rule, rfl⟩)
  refine (picks_unwanted_iff hwhole).2 (picks_both_iff.2 ⟨_, leftParts, rightParts, hleft, ?_, rfl⟩)
  refine picks_both_iff.2 ⟨_, [], rightParts, hpicks, ?_, rfl⟩
  exact picks_both_iff.2 ⟨[], rightParts, [], hright, picks_atEnd_iff.2 ⟨rfl, rfl, rfl⟩, by simp⟩

theorem FirstCut.matches_left (cut : FirstCut s) :
    Matches grammar.body Rule.left.pattern s
      (cut.before ++ (cut.word ++ (cut.after ++ cut.right))) := by
  have h := cut.free.matches (.inr cut.startsSeparator)
  rwa [← cut.eq_append] at h

theorem matches_right (s : List Char) : Matches grammar.body Rule.right.pattern s [] := by
  have h : Matches grammar.body (.star (.one fun _ => true)) (s ++ []) [] :=
    matches_star_one_append (fun _ _ => rfl) (by simp)
  rwa [List.append_nil] at h

theorem FirstCut.partsOf_left (cut : FirstCut s) :
    partsOf .iteration .left s = some [cut.left] := by
  have hleft : Picks grammar.body (· == .left) (.rule .left) s [cut.left] _ :=
    (picks_wanted_iff rfl).2 ⟨cut.left, rfl, cut.eq_append, cut.matches_left⟩
  have hright : Picks grammar.body (· == .left) (.rule .right) cut.right [] [] :=
    (picks_unwanted_iff rfl).2 ((picks_isRuleFree_iff rfl).2 ⟨matches_right _, rfl⟩)
  exact orderly.trees?_run_eq_some_iff.2 ⟨[], cut.picks rfl rfl hleft hright⟩

theorem FirstCut.partsOf_right (cut : FirstCut s) :
    partsOf .iteration .right s = some [cut.right] := by
  have hleft : Picks grammar.body (· == .right) (.rule .left) s [] _ :=
    (picks_unwanted_iff rfl).2 ((picks_isRuleFree_iff rfl).2 ⟨cut.matches_left, rfl⟩)
  have hright : Picks grammar.body (· == .right) (.rule .right) cut.right [cut.right] [] :=
    (picks_wanted_iff rfl).2 ⟨cut.right, rfl, by simp, matches_right _⟩
  exact orderly.trees?_run_eq_some_iff.2 ⟨[], cut.picks rfl rfl hleft hright⟩

theorem FreeBefore.partsOf_left (h : FreeBefore [] s) : partsOf .iteration .left s = none := by
  rw [Option.eq_none_iff_forall_ne_some]
  intro parts hparts
  obtain ⟨rest, hpicks⟩ := orderly.trees?_run_eq_some_iff.1 hparts
  obtain ⟨t, hleft, hmore⟩ := hpicks.matches.of_rule.of_both
  obtain ⟨u, hseparator, -⟩ := hmore.of_both
  have hall : Matches grammar.body Rule.left.pattern (s ++ []) [] := h.matches (.inl rfl)
  rw [List.append_nil] at hall
  obtain rfl := hleft.of_rule.unique hall
  exact hseparator.not_fails (fails_separator_iff.2 not_startsSeparator_nil)

/-! ## Items -/

def inBraces : Pattern Rule := joined [lit "\x7b", .star (.one (· != '\x7d')), lit "\x7d"]

theorem matches_inBraces_iff :
    Matches grammar.body inBraces s rest ↔
      ∃ inner, '\x7d' ∉ inner ∧ s = '\x7b' :: (inner ++ '\x7d' :: rest) := by
  constructor
  · intro h
    obtain ⟨t, hopen, h⟩ := h.of_both
    obtain ⟨u, hinner, hclose⟩ := h.of_both
    obtain ⟨inner, hin, rfl⟩ := hinner.of_star_one
    refine ⟨inner, fun hmem => bne_iff_ne.1 (hin _ hmem) rfl, ?_⟩
    rw [hopen.of_text, hclose.of_text]
    rfl
  · rintro ⟨inner, hinner, rfl⟩
    refine (Matches.text ['\x7b'] (inner ++ '\x7d' :: rest)).both ?_
    refine (matches_star_one_append (fun c hc => ?_) ?_).both (Matches.text ['\x7d'] rest)
    · exact bne_iff_ne.2 fun heq => hinner (heq ▸ hc)
    · rintro _ ⟨⟩
      rfl

theorem isItem_of_matches (h : Matches grammar.body Rule.item.pattern s rest) :
    ∃ item, s = item ++ rest ∧ IsItem item rest := by
  rcases matches_either_iff.1 h with h | ⟨hfails, h⟩
  · obtain ⟨inner, hinner, rfl⟩ := matches_inBraces_iff.1 h
    exact ⟨'\x7b' :: (inner ++ ['\x7d']), by simp, .braced hinner⟩
  · obtain ⟨item, hitem, rfl⟩ := h.of_star_one
    refine ⟨item, rfl, .plain (fun c hc => by simpa using hitem c hc) fun hopen hmem => ?_⟩
    -- were there a closing brace, the first alternative would have matched
    obtain ⟨front, rfl⟩ := List.head?_eq_some_iff.1 hopen
    rw [List.cons_append, List.mem_cons] at hmem
    obtain ⟨inner, t, heq, hinner⟩ :=
      List.eq_append_cons_of_mem (hmem.resolve_left (by decide))
    have hbraced : Matches grammar.body inBraces ('\x7b' :: front ++ rest) t :=
      matches_inBraces_iff.2 ⟨inner, hinner, congrArg ('\x7b' :: ·) heq⟩
    exact hbraced.not_fails hfails

theorem IsItem.matches {item : List Char} (h : IsItem item rest)
    (hrest : ∀ c ∈ rest.head?, c = ',' ∨ c = ')') :
    Matches grammar.body Rule.item.pattern (item ++ rest) rest := by
  cases h with
  | @braced inner _ hinner =>
    exact (matches_inBraces_iff.2 ⟨inner, hinner, by simp⟩).either
  | plain hitem hopen =>
    have hfails : Fails grammar.body inBraces (item ++ rest) := by
      refine (orderly.matches_or_fails (by decide +kernel) _).resolve_left ?_
      rintro ⟨t, hbraced⟩
      obtain ⟨inner, -, heq⟩ := matches_inBraces_iff.1 hbraced
      cases item with
      | nil => exact absurd (hrest '\x7b' (by rw [← List.nil_append rest, heq]; rfl)) (by decide)
      | cons c item =>
        obtain ⟨rfl, -⟩ := List.cons.inj heq
        exact hopen rfl (heq ▸ by simp)
    refine hfails.either_matches (matches_star_one_append (fun c hc => ?_) fun c hc => ?_)
    · simpa using hitem c hc
    · rcases hrest c hc with rfl | rfl <;> rfl

theorem picks_item_iff {parts : List (List Char)} :
    Picks grammar.body (· == .item) (.rule .item) s parts rest ↔
      ∃ item, parts = [item] ∧ s = item ++ rest ∧ Matches grammar.body Rule.item.pattern s rest :=
  picks_wanted_iff rfl

theorem IsItem.picks {item : List Char} (h : IsItem item rest)
    (hrest : ∀ c ∈ rest.head?, c = ',' ∨ c = ')') :
    Picks grammar.body (· == .item) (.rule .item) (item ++ rest) [item] rest :=
  picks_item_iff.2 ⟨item, rfl, rfl, h.matches hrest⟩

theorem isItem_of_picks {parts : List (List Char)}
    (h : Picks grammar.body (· == .item) (.rule .item) s parts rest) :
    ∃ item, parts = [item] ∧ s = item ++ rest ∧ IsItem item rest := by
  obtain ⟨item, rfl, rfl, hmatch⟩ := picks_item_iff.1 h
  obtain ⟨_, heq, hitem⟩ := isItem_of_matches hmatch
  exact ⟨item, rfl, rfl, List.append_cancel_right heq ▸ hitem⟩

/-! ## Lists -/

theorem head?_listEnd (third : Option (List Char)) :
    ∀ c ∈ (listEnd third).head?, c = ',' ∨ c = ')' := by
  cases third <;> rintro _ ⟨⟩
  · exact .inr rfl
  · exact .inl rfl

theorem ListCut.picks (cut : ListCut s) :
    Picks grammar.body (· == .item) Rule.list.pattern s
      (cut.first :: cut.second :: cut.third.toList) [] := by
  have hclosed : Picks grammar.body (· == .item) (.both (lit ")") .atEnd) [')'] [] [] :=
    picks_both_iff.2 ⟨[], [], [], picks_text_iff.2 ⟨rfl, rfl⟩, picks_atEnd_iff.2 ⟨rfl, rfl, rfl⟩, rfl⟩
  have hthird : Picks grammar.body (· == .item)
      (.both (optional (.both (lit ",") (.rule .item))) (.both (lit ")") .atEnd))
      (listEnd cut.third) cut.third.toList [] := by
    cases h : cut.third with
    | none =>
      refine picks_both_iff.2 ⟨_, [], [], picks_optional_iff.2 (.inr ⟨?_, rfl, rfl⟩), hclosed, rfl⟩
      exact (Fails.text rfl).both
    | some item =>
      have hitem := (cut.third_isItem item h).picks (by rintro _ ⟨⟩; exact .inr rfl)
      exact picks_both_iff.2 ⟨_, [item], [], picks_optional_iff.2 (.inl
        (picks_both_iff.2 ⟨_, [], [item], picks_text_iff.2 ⟨rfl, rfl⟩, hitem, rfl⟩)), hclosed, rfl⟩
  have hsecond := cut.second_isItem.picks (head?_listEnd cut.third)
  have hfirst := cut.first_isItem.picks (by rintro _ ⟨⟩; exact .inl rfl)
  refine picks_both_iff.2 ⟨_, [], _, picks_text_iff.2 ⟨cut.eq_append, rfl⟩, ?_, rfl⟩
  refine picks_both_iff.2 ⟨_, [cut.first], _, hfirst, ?_, rfl⟩
  refine picks_both_iff.2 ⟨_, [], _, picks_text_iff.2 ⟨rfl, rfl⟩, ?_, rfl⟩
  exact picks_both_iff.2 ⟨_, [cut.second], _, hsecond, hthird, rfl⟩

theorem exists_listCut_of_picks {parts : List (List Char)}
    (h : Picks grammar.body (· == .item) Rule.list.pattern s parts rest) :
    ∃ cut : ListCut s, parts = cut.first :: cut.second :: cut.third.toList := by
  obtain ⟨_, _, _, hopen, hitems, rfl⟩ := picks_both_iff.1 h
  obtain ⟨rfl, rfl⟩ := picks_text_iff.1 hopen
  obtain ⟨_, _, _, hfirst, hbehindFirst, rfl⟩ := picks_both_iff.1 hitems
  obtain ⟨first, rfl, rfl, hfirstItem⟩ := isItem_of_picks hfirst
  obtain ⟨_, _, _, hcomma, hmore, rfl⟩ := picks_both_iff.1 hbehindFirst
  obtain ⟨rfl, rfl⟩ := picks_text_iff.1 hcomma
  obtain ⟨_, _, _, hsecond, hbehindSecond, rfl⟩ := picks_both_iff.1 hmore
  obtain ⟨second, rfl, rfl, hsecondItem⟩ := isItem_of_picks hsecond
  obtain ⟨_, _, _, hthird, hclosing, rfl⟩ := picks_both_iff.1 hbehindSecond
  obtain ⟨_, _, _, hclose, hend, rfl⟩ := picks_both_iff.1 hclosing
  obtain ⟨rfl, rfl⟩ := picks_text_iff.1 hclose
  obtain ⟨rfl, rfl, rfl⟩ := picks_atEnd_iff.1 hend
  rcases picks_optional_iff.1 hthird with hmore | ⟨-, rfl, rfl⟩
  · obtain ⟨_, _, _, hcomma, hlast, rfl⟩ := picks_both_iff.1 hmore
    obtain ⟨rfl, rfl⟩ := picks_text_iff.1 hcomma
    obtain ⟨third, rfl, rfl, hthirdItem⟩ := isItem_of_picks hlast
    refine ⟨⟨first, second, some third, rfl, hfirstItem, hsecondItem, ?_⟩, rfl⟩
    rintro _ ⟨⟩
    exact hthirdItem
  · exact ⟨⟨first, second, none, rfl, hfirstItem, hsecondItem, by simp⟩, rfl⟩

theorem partsOf_list_eq_some_iff {parts : List (List Char)} :
    partsOf .list .item s = some parts ↔
      ∃ cut : ListCut s, parts = cut.first :: cut.second :: cut.third.toList := by
  refine orderly.trees?_run_eq_some_iff.trans ⟨fun ⟨rest, h⟩ => ?_, fun ⟨cut, h⟩ => ?_⟩
  · exact exists_listCut_of_picks ((picks_unwanted_iff rfl).1 h)
  · exact ⟨[], (picks_unwanted_iff rfl).2 (h ▸ cut.picks)⟩

theorem ListCut.bind_eq (cut : ListCut s) (source : String) :
    bind source s = {
      source
      item := String.ofList (trim cut.first)
      iterator1 := some (String.ofList (trim cut.second))
      iterator2 := (cut.third.filter (!·.isEmpty)).map fun item => String.ofList (trim item) } := by
  unfold bind
  rw [partsOf_list_eq_some_iff.2 ⟨cut, rfl⟩]
  cases cut.third <;> rfl

theorem bind_eq_of_no_listCut (h : ¬ Nonempty (ListCut s)) (source : String) :
    bind source s =
      { source, item := String.ofList s, iterator1 := none, iterator2 := none } := by
  have hnone : partsOf .list .item s = none := by
    rw [Option.eq_none_iff_forall_ne_some]
    intro parts hparts
    obtain ⟨cut, -⟩ := partsOf_list_eq_some_iff.1 hparts
    exact h ⟨cut⟩
  unfold bind
  rw [hnone]

theorem eq_bind_iff_binds {source : String} {i : Iteration} :
    i = bind source s ↔ i.source = source ∧ Binds s i := by
  constructor
  · rintro rfl
    by_cases hcut : Nonempty (ListCut s)
    · obtain ⟨cut⟩ := hcut
      rw [cut.bind_eq]
      exact ⟨rfl, .inl ⟨cut, rfl, rfl, rfl⟩⟩
    · rw [bind_eq_of_no_listCut hcut]
      exact ⟨rfl, .inr ⟨hcut, rfl, rfl, rfl⟩⟩
  · obtain ⟨_, _, _, _⟩ := i
    rintro ⟨rfl, ⟨cut, rfl, rfl, rfl⟩ | ⟨hcut, rfl, rfl, rfl⟩⟩
    · exact (cut.bind_eq _).symm
    · exact (bind_eq_of_no_listCut hcut _).symm

/-! ## Reading -/

theorem FirstCut.read?_eq {text : String} (cut : FirstCut s) (hs : text.toList = s) :
    read? text = some (bind (String.ofList (trim cut.right)) (trim cut.left)) := by
  unfold read?
  dsimp only
  rw [hs, cut.partsOf_left, cut.partsOf_right]

theorem FreeBefore.read?_eq {text : String} (h : FreeBefore [] text.toList) :
    read? text = none := by
  unfold read?
  dsimp only
  rw [h.partsOf_left]

/-- An iteration is cut at the first separator and nothing of it is lost. There is none exactly if
the text has no separator. Otherwise the source is what stands behind the first separator, and what
is bound depends on what stands before it alone, each without the blanks around. -/
theorem read?_splits_at_first_separator (text : String) :
    (read? text = none ↔ ¬ ∃ u w v, IsSeparator w ∧ text.toList = u ++ (w ++ v)) ∧
      ∀ i, read? text = some i ↔ ∃ cut : FirstCut text.toList,
        i.source = String.ofList (trim cut.right) ∧ Binds (trim cut.left) i := by
  rcases nonempty_firstCut_or_free text.toList with ⟨⟨cut⟩⟩ | hfree
  · constructor
    · rw [cut.read?_eq rfl]
      exact iff_of_false (by simp) (not_not_intro cut.exists_separator)
    · intro i
      constructor
      · intro h
        rw [cut.read?_eq rfl, Option.some_inj, eq_comm, eq_bind_iff_binds] at h
        exact ⟨cut, h⟩
      · rintro ⟨other, h⟩
        rw [other.read?_eq rfl, ← eq_bind_iff_binds.2 h]
  · have hnone : ¬ ∃ u w v, IsSeparator w ∧ text.toList = u ++ (w ++ v) := by
      rintro ⟨u, w, v, hw, heq⟩
      refine hfree u (w ++ v) heq ?_ ⟨w, hw, by simp⟩
      obtain ⟨before, word, after, hbefore, -, -, rfl⟩ := hw
      simp [hbefore.1]
    constructor
    · exact iff_of_true hfree.read?_eq hnone
    · intro i
      rw [hfree.read?_eq]
      refine iff_of_false (by simp) ?_
      rintro ⟨cut, -⟩
      exact hnone cut.exists_separator

end EventMarkup.Iteration
