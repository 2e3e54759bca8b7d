import EventMarkup.Proofs.Command.Access
import EventMarkup.Proofs.Command.Names
import EventMarkup.Proofs.Fragments

/-!
# What the commands leave behind

`check` and `build` run on a file tree, on which some operations may be denied (`accessUnless`).
`Compiling`, `Checking` and `Building` list the ways in which a command can end, with its outcome
and the tree that it leaves, and every run ends in one of them (`check_accessUnless`,
`build_accessUnless`). What follows is read off these lists: which files a command changes, where
the code of a template is to be found, and when a command succeeds (`files_after_command`).

Until a build writes its file it makes directories at most, so a failure on the way leaves every
file as it was, though perhaps not every directory. The file that a build writes never stands where
the template does. It is the template all the same if it has been given this other name before, and
then the build writes over its own template (`exists_build_over_template`).
-/

namespace EventMarkup.Command

open FileTree

/-! ## The ways to end -/

/-- The ways in which a template is read and compiled. -/
inductive Compiling (denied : Denial) (t : FileTree) (input : Octets) :
    Except Outcome Template → Prop where
  | unreadable {e : FileError} (h : ∀ source, ¬ t.Readable denied input source) :
    Compiling denied t input (.error (.failureTo ("read " ++ shown input) e.message))
  | unparsed {source : String} {e : ReadError} (h : t.Readable denied input source)
    (hcompile : Template.compile source = .error e) :
    Compiling denied t input (.error (.failureTo ("parse " ++ shown input) e.message))
  | compiled {source : String} {template : Template} (h : t.Readable denied input source)
    (hcompile : Template.compile source = .ok template) : Compiling denied t input (.ok template)

/-- The ways in which a template is checked, each with its outcome. -/
inductive Checking (denied : Denial) (t : FileTree) (input : Octets) : Outcome → Prop where
  | stopped {outcome : Outcome} (h : Compiling denied t input (.error outcome)) :
    Checking denied t input outcome
  | clean {template : Template} (h : Compiling denied t input (.ok template))
    (hclean : template.diagnostics = []) :
    Checking denied t input (.success ("No problems found in " ++ shown input ++ "\n"))
  | problems {template : Template} (h : Compiling denied t input (.ok template))
    (hproblems : template.diagnostics ≠ []) :
    Checking denied t input
      (.failure (problemList input template.diagnostics) (problemCount template.diagnostics))

/-- The ways in which the code of a template is built, each with its outcome and the tree that it
leaves behind. -/
inductive Building (denied : Denial) (t : FileTree) (input directory : Octets)
    (denyProblems : Bool) : Outcome → FileTree → Prop where
  | stopped {outcome : Outcome} (h : Compiling denied t input (.error outcome)) :
    Building denied t input directory denyProblems outcome t
  | refused {template : Template} (h : Compiling denied t input (.ok template))
    (hdeny : denyProblems = true) (hproblems : template.diagnostics ≠ []) :
    Building denied t input directory denyProblems
      (.failure "" (problemCount template.diagnostics ++ " in " ++ shown input)) t
  | noDirectory {template : Template} {e : FileError} {t' : FileTree}
    (h : Compiling denied t input (.ok template))
    (hdeny : denyProblems = true → template.diagnostics = [])
    (hmade : makeDirectories (accessUnless denied) directory (parentPaths directory) t =
      (.error e, t')) :
    Building denied t input directory denyProblems
      (.failureTo ("create " ++ shown directory) e.message) t'
  | noFile {template : Template} {e : FileError} {t' : FileTree}
    (h : Compiling denied t input (.ok template))
    (hdeny : denyProblems = true → template.diagnostics = [])
    (hmade : makeDirectories (accessUnless denied) directory (parentPaths directory) t =
      (.ok (), t'))
    (hwrite : (accessUnless denied).write (pathIn directory (codeFileName input))
      (codeFileText template.fragments) t' = (.error e, t')) :
    Building denied t input directory denyProblems
      (.failureTo ("write " ++ shown (pathIn directory (codeFileName input))) e.message) t'
  | written {template : Template} {t' t'' : FileTree} (h : Compiling denied t input (.ok template))
    (hdeny : denyProblems = true → template.diagnostics = [])
    (hmade : makeDirectories (accessUnless denied) directory (parentPaths directory) t =
      (.ok (), t'))
    (hwrite : (accessUnless denied).write (pathIn directory (codeFileName input))
      (codeFileText template.fragments) t' = (.ok (), t'')) :
    Building denied t input directory denyProblems
      (.success ("Generated: " ++ shown (pathIn directory (codeFileName input)) ++ "\n")) t''

section Access

variable (denied : Denial) (t : FileTree) (input : Octets)

theorem bind_apply {α β : Type} (x : StateM FileTree α) (f : α → StateM FileTree β) :
    (x >>= f) t = f (x t).1 (x t).2 :=
  rfl

theorem exists_compileFile_accessUnless :
    ∃ result, compileFile (accessUnless denied) input t = (result, t) ∧
      Compiling denied t input result := by
  obtain ⟨reading, hread, hreadable⟩ := read_accessUnless denied input t
  rw [compileFile, bind_apply, hread]
  cases reading with
  | error e => exact ⟨_, rfl, .unreadable fun source h => nomatch (hreadable source).2 h⟩
  | ok source =>
    have h := (hreadable source).1 rfl
    dsimp only
    cases hcompile : Template.compile source with
    | error e => exact ⟨_, rfl, .unparsed h hcompile⟩
    | ok template => exact ⟨_, rfl, .compiled h hcompile⟩

theorem check_accessUnless :
    (check (accessUnless denied) input t).2 = t ∧
      Checking denied t input (check (accessUnless denied) input t).1 := by
  obtain ⟨result, hcompile, h⟩ := exists_compileFile_accessUnless denied t input
  rw [check, bind_apply, hcompile]
  cases result with
  | error outcome => exact ⟨rfl, .stopped h⟩
  | ok template =>
    dsimp only
    cases hproblems : template.diagnostics with
    | nil => exact ⟨rfl, .clean h hproblems⟩
    | cons d ds =>
      have hcheck := Checking.problems h (by simp [hproblems])
      rw [hproblems] at hcheck
      exact ⟨rfl, hcheck⟩

theorem build_accessUnless (directory : Option Octets) (denyProblems : Bool) :
    Building denied t input (directory.getD defaultDirectory) denyProblems
      (build (accessUnless denied) input directory denyProblems t).1
      (build (accessUnless denied) input directory denyProblems t).2 := by
  obtain ⟨result, hcompile, h⟩ := exists_compileFile_accessUnless denied t input
  rw [build, bind_apply, hcompile]
  cases result with
  | error outcome => exact .stopped h
  | ok template =>
    dsimp only
    split
    next hrefused =>
      rw [Bool.and_eq_true, Bool.not_eq_true', List.isEmpty_eq_false_iff] at hrefused
      exact .refused h hrefused.1 hrefused.2
    next hrefused =>
      have hdeny : denyProblems = true → template.diagnostics = [] := by
        simpa using hrefused
      generalize directory.getD defaultDirectory = directory
      rw [bind_apply]
      rcases hmade : makeDirectories (accessUnless denied) directory (parentPaths directory) t
        with ⟨made, t'⟩
      cases made with
      | error e => exact .noDirectory h hdeny hmade
      | ok _ =>
        dsimp only
        rw [bind_apply]
        rcases write_accessUnless denied (pathIn directory (codeFileName input))
          (codeFileText template.fragments) t' with ⟨t'', hwrite, -⟩ | ⟨e, hwrite⟩
        · rw [hwrite]
          exact .written h hdeny hmade hwrite
        · rw [hwrite]
          exact .noFile h hdeny hmade hwrite

end Access

/-! ## What is left behind -/

/-- The name of the code of a template, whose name has the given stem: the stem, or `component`
where the stem is no text, and an extension. -/
def codeName (stem : Octets) : Octets :=
  (if (textOf? stem).isSome then stem else octetsOf "component") ++ octetsOf ".handlers.js"

/-- A build has gone through: the code of a template, element by element in the order of the
document, stands in the directory that a path leads to, under the name that the stem of the name of
the template gives. No other file has changed. The code does not stand where the template does, and
it is in the same file only if the template had both names before. -/
def Built (t t' : FileTree) (input directory : Octets) (template : Template) : Prop :=
  ∃ name stem place origin number,
    LastName input name ∧ IsStem name stem ∧
    t'.IsPlace directory place ∧ t'.entry? place = some .directory ∧
    Rewrites t t' (place ++ [codeName stem]) number
      (String.join (template.fragments.map fun f =>
        "// " ++ f.path ++ "\n\x7b" ++ f.code ++ "\x7d\n")).toUTF8 ∧
    template.fragments.map (·.code) = (elementsOf template.roots).filterMap Element.code? ∧
    (∃ l, t.locate input = .ok l ∧ t.numberAt l = some origin ∧ l ≠ place ++ [codeName stem]) ∧
    (number = origin ↔ t.numberAt (place ++ [codeName stem]) = some origin)

theorem map_code_of_compile {source : String} {template : Template}
    (h : Template.compile source = .ok template) :
    template.fragments.map (·.code) = (elementsOf template.roots).filterMap Element.code? := by
  obtain ⟨forest, -, rfl⟩ := Template.compile_eq_ok_iff.1 h
  exact Fragment.map_code_ofForest forest

section Outcomes

variable {denied : Denial} {t t' : FileTree} {input directory : Octets} {source : String}
  {template : Template} {denyProblems : Bool} {outcome : Outcome} {result : Except Outcome Template}

theorem Compiling.exit_ne_zero (h : Compiling denied t input (.error outcome)) :
    outcome.exit ≠ 0 := by
  cases h <;> exact Nat.one_ne_zero

theorem Compiling.eq_ok (h : t.Readable denied input source)
    (hcompile : Template.compile source = .ok template)
    (hresult : Compiling denied t input result) : result = .ok template := by
  cases hresult with
  | unreadable hread => exact absurd h (hread source)
  | unparsed hother herror =>
    rw [← h.unique hother, hcompile] at herror
    cases herror
  | compiled hother hsame =>
    rw [← h.unique hother, hcompile] at hsame
    cases hsame
    rfl

theorem Checking.exit_eq_zero_iff (h : Checking denied t input outcome) :
    outcome.exit = 0 ↔ ∃ source template, t.Readable denied input source ∧
      Template.compile source = .ok template ∧ template.diagnostics = [] := by
  cases h with
  | stopped h =>
    refine ⟨fun hexit => absurd hexit h.exit_ne_zero, ?_⟩
    rintro ⟨source, template, hread, hcompile, -⟩
    cases h.eq_ok hread hcompile
  | clean h hclean =>
    cases h with
    | compiled hread hcompile => exact ⟨fun _ => ⟨_, _, hread, hcompile, hclean⟩, fun _ => rfl⟩
  | problems h hproblems =>
    refine ⟨fun hexit => absurd hexit Nat.one_ne_zero, ?_⟩
    rintro ⟨source, template, hread, hcompile, hclean⟩
    cases h.eq_ok hread hcompile
    exact absurd hclean hproblems

theorem Building.exit_eq_zero_iff
    (h : Building denied t input directory denyProblems outcome t') :
    outcome.exit = 0 ↔ ∃ source template, t.Readable denied input source ∧
      Template.compile source = .ok template ∧
      (denyProblems = true → template.diagnostics = []) ∧
      t.Writable denied directory (codeFileName input) (codeFileText template.fragments) := by
  cases h with
  | stopped h =>
    refine ⟨fun hexit => absurd hexit h.exit_ne_zero, ?_⟩
    rintro ⟨source, template, hread, hcompile, -⟩
    cases h.eq_ok hread hcompile
  | refused h hdeny hproblems =>
    refine ⟨fun hexit => absurd hexit Nat.one_ne_zero, ?_⟩
    rintro ⟨source, template, hread, hcompile, hclean, -⟩
    cases h.eq_ok hread hcompile
    exact absurd (hclean hdeny) hproblems
  | noDirectory h hdeny hmade =>
    refine ⟨fun hexit => absurd hexit Nat.one_ne_zero, ?_⟩
    rintro ⟨source, template, hread, hcompile, -, made, -, hmade', -⟩
    cases hmade.symm.trans hmade'
  | noFile h hdeny hmade hwrite =>
    refine ⟨fun hexit => absurd hexit Nat.one_ne_zero, ?_⟩
    rintro ⟨source, template, hread, hcompile, -, made, written, hmade', hwrite'⟩
    cases h.eq_ok hread hcompile
    cases hmade.symm.trans hmade'
    cases hwrite.symm.trans hwrite'
  | written h hdeny hmade hwrite =>
    cases h with
    | compiled hread hcompile =>
      exact ⟨fun _ => ⟨_, _, hread, hcompile, hdeny, _, _, hmade, hwrite⟩, fun _ => rfl⟩

/-- A build that fails leaves every file as it was. -/
theorem Building.sameFiles (h : Building denied t input directory denyProblems outcome t')
    (hexit : outcome.exit ≠ 0) : SameFiles t t' := by
  cases h with
  | stopped => exact SameFiles.refl t
  | refused => exact SameFiles.refl t
  | noDirectory _ _ hmade => exact (grows_of_makeDirectories hmade).sameFiles
  | noFile _ _ hmade => exact (grows_of_makeDirectories hmade).sameFiles
  | written => exact absurd rfl hexit

theorem Building.wellFormed (h : Building denied t input directory denyProblems outcome t')
    (ht : t.WellFormed) : t'.WellFormed := by
  cases h with
  | stopped => exact ht
  | refused => exact ht
  | noDirectory _ _ hmade => exact (grows_of_makeDirectories hmade).wellFormed ht
  | noFile _ _ hmade => exact (grows_of_makeDirectories hmade).wellFormed ht
  | written _ _ hmade hwrite =>
    exact wellFormed_of_write ((grows_of_makeDirectories hmade).wellFormed ht)
      (write_of_accessUnless hwrite)

theorem codeFileName_of_lastName {name : Octets} (hlast : LastName input name)
    (hname : IsProperName name) : codeFileName input = codeName (nameStem name) := by
  rw [codeFileName, fileStem?_of_lastName hlast hname, Option.bind_some, octetsOf_append, codeName]
  cases htext : textOf? (nameStem name) with
  | none => rfl
  | some text => exact congrArg (· ++ octetsOf ".handlers.js") (textOf?_eq_some_iff.1 htext).symm

theorem isProperName_codeName (stem : Octets) : IsProperName (codeName stem) := by
  have hlong : 2 < (codeName stem).length := by
    rw [codeName, List.length_append]
    exact Nat.lt_of_lt_of_le (by decide) (Nat.le_add_left _ _)
  refine ⟨?_, ?_, ?_⟩ <;>
  · intro h
    rw [h] at hlong
    simp at hlong

theorem slash_not_mem_codeName {stem : Octets} (h : slash ∉ stem) : slash ∉ codeName stem := by
  rw [codeName, List.mem_append, not_or]
  refine ⟨?_, by decide⟩
  split
  · exact h
  · decide

theorem codeName_ne (name : Octets) : codeName (nameStem name) ≠ name := by
  rw [codeName]
  split
  next => exact (isStem_nameStem name).append_ne
  next hnone =>
    -- The stem of `component.handlers.js` would have been a text.
    rintro rfl
    exact hnone (by decide)

/-- A build that succeeds has gone through. -/
theorem Building.built (ht : t.WellFormed)
    (h : Building denied t input directory denyProblems outcome t') (hexit : outcome.exit = 0) :
    ∃ source template, t.Readable denied input source ∧ Template.compile source = .ok template ∧
      Built t t' input directory template := by
  cases h with
  | stopped h => exact absurd hexit h.exit_ne_zero
  | refused => exact absurd hexit Nat.one_ne_zero
  | noDirectory => exact absurd hexit Nat.one_ne_zero
  | noFile => exact absurd hexit Nat.one_ne_zero
  | @written template made _ h _ hmade hwrite =>
    cases h with
    | @compiled source _ hread hcompile =>
      refine ⟨source, template, hread, hcompile, ?_⟩
      obtain ⟨name, hlast⟩ := exists_lastName input
      obtain ⟨-, l, origin, hlocate, horigin, -⟩ := hread
      have hinput : t.entry? l ≠ some .directory := by
        rw [entry?_eq_file_iff.2 horigin]
        simp
      obtain ⟨hname, outer, -, rfl⟩ := exists_of_locate ht hlocate hinput hlast
      have hstem := isStem_nameStem name
      have hgrows := grows_of_makeDirectories hmade
      rw [codeFileName_of_lastName hlast hname] at hwrite
      obtain ⟨l, number, hplace, hrewrites, hdirectories, hhere⟩ :=
        exists_rewrites_of_write (hgrows.wellFormed ht) (write_of_accessUnless hwrite)
      obtain ⟨place, hdirectory, hentry, rfl⟩ := exists_of_locate_pathIn
        (slash_not_mem_codeName (not_mem_of_isStem hstem hlast.not_mem))
        (isProperName_codeName _) hplace
      have hwritten := hgrows.sameFiles.rewrites hrewrites
      refine ⟨name, nameStem name, place, origin, number, hlast, hstem,
        hdirectory.congr hdirectories hhere, (entry?_eq_directory_congr hdirectories).2 hentry,
        hwritten, map_code_of_compile hcompile, ⟨_, hlocate, horigin, fun hsame => ?_⟩,
        hwritten.number_eq_iff ht horigin⟩
      have hnames := (List.append_inj' hsame rfl).2
      exact codeName_ne name (List.cons.inj hnames).1.symm

theorem Outcome.success_ne_failure (output before reason : String) :
    Outcome.success output ≠ .failure before reason := by
  intro h
  exact Nat.zero_ne_one (congrArg Outcome.exit h)

/-- A failure to do something is told apart from problems by its first letter. -/
theorem failureTo_ne_problemCount (deed cause : String) (more : String) :
    Outcome.failureTo deed cause ≠ .failure "" (problemCount [] ++ more) := by
  intro h
  have herrors := congrArg (·.errors.toList[7]?) h
  simp [Outcome.failureTo, Outcome.failure, problemCount] at herrors

theorem Checking.eq_failure_iff (h : t.Readable denied input source)
    (hcompile : Template.compile source = .ok template) (hcheck : Checking denied t input outcome) :
    outcome = .failure (problemList input template.diagnostics)
        (problemCount template.diagnostics) ↔ template.diagnostics ≠ [] := by
  cases hcheck with
  | stopped hstopped => cases hstopped.eq_ok h hcompile
  | clean hcompiled hclean =>
    cases hcompiled.eq_ok h hcompile
    exact iff_of_false (Outcome.success_ne_failure _ _ _) (not_not_intro hclean)
  | problems hcompiled hproblems =>
    cases hcompiled.eq_ok h hcompile
    exact iff_of_true rfl hproblems

theorem Building.eq_failure_iff (h : t.Readable denied input source)
    (hcompile : Template.compile source = .ok template)
    (hbuild : Building denied t input directory true outcome t') :
    outcome = .failure "" (problemCount template.diagnostics ++ " in " ++ shown input) ↔
      template.diagnostics ≠ [] := by
  cases hbuild with
  | stopped hstopped => cases hstopped.eq_ok h hcompile
  | refused hcompiled _ hproblems =>
    cases hcompiled.eq_ok h hcompile
    exact iff_of_true rfl hproblems
  | noDirectory hcompiled hdeny =>
    cases hcompiled.eq_ok h hcompile
    rw [hdeny rfl, String.append_assoc]
    exact iff_of_false (failureTo_ne_problemCount _ _ _) (not_not_intro rfl)
  | noFile hcompiled hdeny =>
    cases hcompiled.eq_ok h hcompile
    rw [hdeny rfl, String.append_assoc]
    exact iff_of_false (failureTo_ne_problemCount _ _ _) (not_not_intro rfl)
  | written hcompiled hdeny =>
    cases hcompiled.eq_ok h hcompile
    exact iff_of_false (Outcome.success_ne_failure _ _ _) (not_not_intro (hdeny rfl))

end Outcomes

theorem wellFormed_after_run (denied : Denial) (t : FileTree) (ht : t.WellFormed)
    (arguments : List String) : (run (accessUnless denied) arguments t).2.WellFormed := by
  rw [run]
  cases Request.read? arguments with
  | none => exact ht
  | some request =>
    cases request with
    | check input => exact (check_accessUnless denied t input).1.symm ▸ ht
    | build input directory denyProblems =>
      exact (build_accessUnless denied t input directory denyProblems).wellFormed ht
    | version => exact ht
    | help => exact ht

/-- What a command leaves behind on a file tree, whatever operations are denied on it. A check
changes nothing, and it succeeds exactly if the template is a readable text in UTF-8 that can be
turned into a forest and has no problems. A build succeeds exactly if there is such a template,
without problems if these are denied, and its code can be written; one that fails leaves every file
as it was, and one that succeeds has written the code of the template and nothing else. A build that
denies problems is refused for them exactly if a check of the same template reports them. -/
theorem files_after_command (denied : Denial) (t : FileTree) (ht : t.WellFormed) (input : Octets) :
    ∃ checked, check (accessUnless denied) input t = (checked, t) ∧
      (checked.exit = 0 ↔ ∃ source template, t.Readable denied input source ∧
        Template.compile source = .ok template ∧ template.diagnostics = []) ∧
      ∀ directory denyProblems, ∃ built t',
        build (accessUnless denied) input directory denyProblems t = (built, t') ∧
        (built.exit = 0 ↔ ∃ source template, t.Readable denied input source ∧
          Template.compile source = .ok template ∧
          (denyProblems = true → template.diagnostics = []) ∧
          t.Writable denied (directory.getD (octetsOf "target/velox-gen")) (codeFileName input)
            (codeFileText template.fragments)) ∧
        (built.exit ≠ 0 → SameFiles t t') ∧
        (built.exit = 0 → ∃ source template, t.Readable denied input source ∧
          Template.compile source = .ok template ∧
          Built t t' input (directory.getD (octetsOf "target/velox-gen")) template) ∧
        (denyProblems = true → ∀ source template, t.Readable denied input source →
          Template.compile source = .ok template →
          (built = .failure "" (problemCount template.diagnostics ++ " in " ++ shown input) ↔
            checked = .failure (problemList input template.diagnostics)
              (problemCount template.diagnostics))) := by
  obtain ⟨hunchanged, hchecking⟩ := check_accessUnless denied t input
  refine ⟨_, Prod.ext rfl hunchanged, hchecking.exit_eq_zero_iff, fun directory denyProblems => ?_⟩
  have hbuilding := build_accessUnless denied t input directory denyProblems
  rcases hbuilt : build (accessUnless denied) input directory denyProblems t with ⟨built, t'⟩
  rw [hbuilt] at hbuilding
  refine ⟨built, t', rfl, hbuilding.exit_eq_zero_iff, hbuilding.sameFiles, hbuilding.built ht, ?_⟩
  rintro rfl source template hread hcompile
  rw [hbuilding.eq_failure_iff hread hcompile, hchecking.eq_failure_iff hread hcompile]

def oneTemplate : FileTree :=
  (startingAt [octetsOf "work"]).withFile [octetsOf "work", octetsOf "App.html"]
    "<button @click=\"save\">ok</button>".toUTF8

theorem files_after_command_oneTemplate :
    oneTemplate.WellFormed ∧
      (check access (octetsOf "App.html") oneTemplate).2 = oneTemplate ∧
      ∃ t' template, build access (octetsOf "App.html") none true oneTemplate =
          (.success "Generated: target/velox-gen/App.handlers.js\n", t') ∧
        Built oneTemplate t' (octetsOf "App.html") (octetsOf "target/velox-gen") template := by
  have ht : oneTemplate.WellFormed := ⟨by decide, by decide, by decide⟩
  obtain ⟨checked, hcheck, -, hbuild⟩ :=
    files_after_command (fun _ _ => none) oneTemplate ht (octetsOf "App.html")
  obtain ⟨built, t', hbuilt, -, -, hwritten, -⟩ := hbuild none true
  rw [accessUnless_nothing] at hcheck hbuilt
  have hsuccess : (build access (octetsOf "App.html") none true oneTemplate).1 =
      .success "Generated: target/velox-gen/App.handlers.js\n" := by
    decide +kernel
  rw [hbuilt] at hsuccess
  subst hsuccess
  obtain ⟨-, template, -, -, hcode⟩ := hwritten rfl
  exact ⟨ht, by rw [hcheck], t', template, hbuilt, hcode⟩

/-- A tree in which the template has the name of its code as another one. -/
def linkedTemplate : FileTree where
  directories := [[octetsOf "work"]]
  names := [([octetsOf "work", octetsOf "App.html"], 0),
    ([octetsOf "work", octetsOf "App.handlers.js"], 0)]
  contents := ["<button @click=\"save\">ok</button>".toUTF8]
  here := [octetsOf "work"]

/-- A tree with a template whose name is no text. -/
def unreadableName : FileTree :=
  (startingAt [octetsOf "work"]).withFile [octetsOf "work", 0xFF :: octetsOf ".html"]
    "<button @click=\"save\">ok</button>".toUTF8

/-- Not every build that succeeds leaves its template as it was, and not every one leaves the code
under the stem of the name of the template. -/
theorem exists_build_over_template :
    (¬ ∀ (t : FileTree) (input : Octets) (directory : Option Octets) (source : String),
      t.WellFormed → t.Holds input source → (build access input directory false t).1.exit = 0 →
        (build access input directory false t).2.Holds input source) ∧
    ¬ ∀ (t : FileTree) (input name stem : Octets) (place : Location),
      t.WellFormed → LastName input name → IsStem name stem →
        (build access input none false t).1.exit = 0 →
        (build access input none false t).2.IsPlace (octetsOf "target/velox-gen") place →
        (build access input none false t).2.numberAt (place ++ [stem ++ octetsOf ".handlers.js"]) ≠
          none := by
  constructor
  · intro h
    have hholds := h linkedTemplate (octetsOf "App.html") (some [point])
      "<button @click=\"save\">ok</button>" ⟨by decide, by decide, by decide⟩
      (read_eq_ok_iff.1 (by decide +kernel)) (by decide +kernel)
    exact absurd (read_eq_ok_iff.2 hholds) (by decide +kernel)
  · intro h
    have hname : 0xFF :: octetsOf ".html" = [0xFF] ++ point :: octetsOf "html" := by decide
    refine h unreadableName (0xFF :: octetsOf ".html") (0xFF :: octetsOf ".html") [0xFF]
      [octetsOf "work", octetsOf "target", octetsOf "velox-gen"] ⟨by decide, by decide, by decide⟩
      ⟨[], rfl, .inl rfl, by decide⟩ (.front (by decide) (by decide) hname) (by decide +kernel) ?_
      (by decide +kernel)
    rw [IsPlace, if_neg (by decide)]
    decide +kernel

end EventMarkup.Command
