import EventMarkup.Markup.Interpolation
import EventMarkup.Markup.Node
import EventMarkup.Markup.Tag

/-!
# Steps

A template is read as a sequence of steps: a tag opens an element, a closing tag closes one, an
element without content or a text is added. Comments and declarations are no steps. A tag starts
at `<` when a letter, `/` or `!` follows; everything else is text, up to the next start of a tag
that stands outside every interpolation. How the steps fit together is no matter here.

Every reader gives back what follows, which is a suffix of the text, and each step takes at least
one character; so `Step.read` ends.
-/

namespace EventMarkup.Markup

open Text

/-- What one part of a template does to the tree. -/
inductive Step where
  /-- Opens an element, whose content follows. -/
  | opens (element : Element)
  /-- Adds an element without content. -/
  | empty (element : Element)
  /-- Adds a text or an interpolation. -/
  | text (node : Node)
  /-- Adds a space, if an element is open. -/
  | blank
  /-- Closes the innermost open element of this name and all elements opened in it. -/
  | closes (tag : String)
  deriving Repr

def voidTags : List String :=
  ["area", "base", "br", "col", "embed", "hr", "img", "input", "link", "meta", "source", "track",
    "wbr"]

/-- Whether a tag, a comment or a declaration starts at the front of a text. -/
def isTagStart : List Char → Bool
  | '<' :: c :: _ => c.isAlpha || c == '/' || c == '!'
  | _ => false

/-! ## Text runs -/

/-- Reads a text run: up to the end, or to a start of a tag that stands outside every
interpolation and, unless the run has `begun` already, behind its first character. -/
def readRun (begun : Bool) (s : List Char) : Except Fault (List Char × List Char) :=
  if begun && isTagStart s then .ok ([], s)
  else
    match _mark : dropFront? openMark s with
    | some after =>
      match _cut : cutAt? closeMark after with
      | some (inside, rest) =>
        match readRun true rest with
        | .ok (run, rest) => .ok (openMark ++ inside ++ closeMark ++ run, rest)
        | .error fault => .error fault
      | none => .error (.interpolation s)
    | none =>
      match s with
      | [] => .ok ([], [])
      | c :: rest =>
        match readRun true rest with
        | .ok (run, rest) => .ok (c :: run, rest)
        | .error fault => .error fault
termination_by s.length
decreasing_by
  · have h := length_le_of_cutAt? _cut
    have e := congrArg List.length (eq_append_of_dropFront? _mark)
    simp [openMark] at e
    omega
  · simp

/-- The step of a text run. -/
def stepOfRun (run : List Char) : Step :=
  if allBlank run then .blank
  else
    let text := String.ofList run
    match expressionOf? text with
    | some expression => .text (.interpolation expression text)
    | none => .text (.text text)

theorem append_of_readRun {begun : Bool} {s run rest : List Char}
    (h : readRun begun s = .ok (run, rest)) : run ++ rest = s := by
  fun_induction readRun begun s generalizing run with
  | case1 => cases h; rfl
  | case2 b s hb after hm inside r hc run' rest' hr ih =>
    cases h
    rw [eq_append_of_dropFront? hm, eq_append_of_cutAt? hc, ← ih hr]
    simp
  | case3 => cases h
  | case4 => cases h
  | case5 => cases h; rfl
  | case6 b c r hm run' rest' hr hb ih =>
    cases h
    rw [← ih hr]
    simp
  | case7 => cases h

theorem length_lt_of_readRun {c : Char} {s run rest : List Char}
    (h : readRun false (c :: s) = .ok (run, rest)) : rest.length < (c :: s).length := by
  have happ := append_of_readRun h
  rw [← happ]
  rw [readRun] at h
  simp only [Bool.false_and, Bool.false_eq_true, if_false] at h
  split at h
  · split at h
    · split at h
      · cases h
        simp only [openMark, List.length_append, List.length_cons]
        omega
      · cases h
    · cases h
  · split at h
    · cases h
      simp only [List.length_append, List.length_cons]
      omega
    · cases h

/-! ## Tags -/

/-- What follows the first occurrence of a mark, or nothing. -/
def skipPast (mark s : List Char) : List Char :=
  match cutAt? mark s with
  | some (_, rest) => rest
  | none => []

def readClosingTag (s : List Char) : Step × List Char :=
  (.closes (String.ofList (s.takeWhile isTagChar)),
    skipEnd (skipBlanks (s.dropWhile isTagChar)))

def stepOfElement (e : Element) : Step :=
  if e.selfClosing || voidTags.contains e.tag then .empty e else .opens e

def readOpeningTag (s : List Char) : Except Fault (Step × List Char) :=
  let tag := String.ofList (s.takeWhile isTagChar)
  match readTagEnd (s.dropWhile isTagChar) with
  | .ok e => .ok (stepOfElement (.ofAttributes tag e.attributes e.selfClosing), e.rest)
  | .error fault => .error fault

/-- Reads one part of a template: a step, or something that is none, and what follows. -/
def readStep (s : List Char) : Except Fault (Option Step × List Char) :=
  if isTagStart s then
    match s with
    | '<' :: '!' :: '-' :: '-' :: rest => .ok (none, skipPast ['-', '-', '>'] rest)
    | '<' :: '!' :: rest => .ok (none, skipPast ['>'] rest)
    | '<' :: '/' :: rest => let (step, rest) := readClosingTag rest; .ok (some step, rest)
    | _ :: rest =>
      match readOpeningTag rest with
      | .ok (step, rest) => .ok (some step, rest)
      | .error fault => .error fault
    | [] => .ok (none, [])
  else
    match readRun false s with
    | .ok (run, rest) => .ok (some (stepOfRun run), rest)
    | .error fault => .error fault

theorem skipPast_suffix (mark s : List Char) : skipPast mark s <:+ s := by
  unfold skipPast
  split
  · rename_i h
    exact cutAt?_suffix h
  · exact List.nil_suffix

theorem readTagEnd_suffix {s : List Char} {e : TagEnd} (h : readTagEnd s = .ok e) :
    e.rest <:+ s := by
  fun_induction readTagEnd s generalizing e with
  | case1 => cases h; exact List.nil_suffix
  | case2 s rest hs =>
    cases h
    exact ((skipEnd_suffix _).trans (skipBlanks_suffix _)).trans
      ((List.suffix_cons _ rest).trans (hs ▸ skipBlanks_suffix s))
  | case3 s rest hs =>
    cases h
    exact (List.suffix_cons _ rest).trans (hs ▸ skipBlanks_suffix s)
  | case4 s c rest hs h1 h2 hc a after ha tag ht ih =>
    cases h
    have hsuf := (readAttribute_suffix ha).trans (List.dropWhile_suffix _)
    exact (ih ht).trans (hsuf.trans (hs ▸ skipBlanks_suffix s))
  | case5 => cases h
  | case6 => cases h
  | case7 s c rest hs h1 h2 hc ih =>
    exact (ih h).trans ((List.suffix_cons _ rest).trans (hs ▸ skipBlanks_suffix s))

theorem length_lt_of_readStep {c : Char} {s rest : List Char} {step : Option Step}
    (h : readStep (c :: s) = .ok (step, rest)) : rest.length < (c :: s).length := by
  unfold readStep at h
  split at h
  · split at h
    · rename_i r heq
      cases h
      have := (skipPast_suffix ['-', '-', '>'] r).length_le
      simp only [List.cons.injEq] at heq
      simp only [heq.2, List.length_cons]
      omega
    · rename_i r _ heq
      cases h
      have := (skipPast_suffix ['>'] r).length_le
      simp only [List.cons.injEq] at heq
      simp only [heq.2, List.length_cons]
      omega
    · rename_i r heq
      cases h
      have h1 := (skipEnd_suffix (skipBlanks (r.dropWhile isTagChar))).length_le
      have h2 := (skipBlanks_suffix (r.dropWhile isTagChar)).length_le
      have h3 := (r.dropWhile_suffix isTagChar).length_le
      simp only [List.cons.injEq] at heq
      simp only [heq.2, List.length_cons]
      omega
    · rename_i r _ _ _ heq
      split at h
      · rename_i step' rest' ho
        cases h
        unfold readOpeningTag at ho
        dsimp only at ho
        split at ho
        · rename_i e he
          cases ho
          have h1 := (readTagEnd_suffix he).length_le
          have h2 := (r.dropWhile_suffix isTagChar).length_le
          simp only [List.cons.injEq] at heq
          simp only [heq.2, List.length_cons]
          omega
        · cases ho
      · cases h
    · cases h; simp
  · split at h
    · rename_i run rest' hr
      cases h
      exact length_lt_of_readRun hr
    · cases h

/-- Reads a template as a sequence of steps. -/
def Step.read : List Char → Except Fault (List Step)
  | [] => .ok []
  | c :: s =>
    match _read : readStep (c :: s) with
    | .ok (step, rest) =>
      match Step.read rest with
      | .ok steps => .ok (step.toList ++ steps)
      | .error fault => .error fault
    | .error fault => .error fault
termination_by s => s.length
decreasing_by exact length_lt_of_readStep _read

end EventMarkup.Markup
