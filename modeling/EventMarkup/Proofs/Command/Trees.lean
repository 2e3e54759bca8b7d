import EventMarkup.Command.FileTree

/-!
# Changes of file trees

What an operation on a file tree does to the files of the tree. `numberAt` tells which file stands
at a location; this and the contents of the files are all of a tree but its directories. Making
directories leaves every file as it was (`Grows`), writing changes one file, whatever other names it
has (`Rewrites`), and following a path depends on the directories alone.
-/

namespace EventMarkup.Command

theorem fromUTF8?_eq_some_iff {content : ByteArray} {text : String} :
    String.fromUTF8? content = some text ↔ content = text.toUTF8 := by
  constructor
  · intro h
    rw [String.fromUTF8?] at h
    split at h
    next =>
      cases h
      rfl
    next => cases h
  · rintro rfl
    have hvalid : text.toUTF8.IsValidUTF8 := text.isValidUTF8
    rw [String.fromUTF8?, dif_pos hvalid]
    rfl

theorem ite_error_eq_ok_iff {ε α : Type} {c : Prop} [Decidable c] {e : ε} {x : Except ε α} {a : α} :
    (if c then .error e else x) = .ok a ↔ ¬ c ∧ x = .ok a := by
  by_cases h : c <;> simp [h]

namespace FileTree

/-- Everything stands in a directory, and every name of a file is the name of one. -/
structure WellFormed (t : FileTree) : Prop where
  directories : ∀ l ∈ t.directories, l.dropLast = [] ∨ l.dropLast ∈ t.directories
  names : ∀ f ∈ t.names, f.1.dropLast = [] ∨ f.1.dropLast ∈ t.directories
  numbers : ∀ f ∈ t.names, f.2 < t.contents.length

/-- The number of the file at a location, if a file stands there. -/
def numberAt (t : FileTree) (l : Location) : Option Nat :=
  match t.entry? l with
  | some (.file number) => some number
  | _ => none

/-- A path leads to a file that holds a text in UTF-8. -/
def Holds (t : FileTree) (path : Octets) (text : String) : Prop :=
  ∃ l number, t.locate path = .ok l ∧ t.numberAt l = some number ∧
    t.contents[number]? = some text.toUTF8

/-- Two trees have the same files, under the same names. -/
structure SameFiles (t t' : FileTree) : Prop where
  numberAt : ∀ l, t'.numberAt l = t.numberAt l
  contents : t'.contents = t.contents

/-- A tree has become another one by nothing but new directories. -/
structure Grows (t t' : FileTree) : Prop where
  sameFiles : SameFiles t t'
  wellFormed : t.WellFormed → t'.WellFormed

/-- A tree has become another one by nothing but the content of one file, which stands at the
location. The file stood there before, or both the file and its name are new. -/
structure Rewrites (t t' : FileTree) (l : Location) (number : Nat) (content : ByteArray) : Prop where
  numberAt : t'.numberAt l = some number
  content : t'.contents[number]? = some content
  others : ∀ n, n ≠ number → t'.contents[n]? = t.contents[n]?
  names : ∀ k, k ≠ l → t'.numberAt k = t.numberAt k
  before : t.numberAt l = some number ∨ t.numberAt l = none ∧ t.contents[number]? = none

variable {t t' u : FileTree} {k l m : Location} {path : Octets} {text : String} {part : Octets}
  {parts more : List Octets} {number : Nat}

theorem SameFiles.refl (t : FileTree) : SameFiles t t := ⟨fun _ => rfl, rfl⟩

theorem SameFiles.trans (h : SameFiles t u) (h' : SameFiles u t') : SameFiles t t' :=
  ⟨fun l => (h'.numberAt l).trans (h.numberAt l), h'.contents.trans h.contents⟩

theorem Grows.refl (t : FileTree) : Grows t t := ⟨SameFiles.refl t, id⟩

theorem Grows.trans (h : Grows t u) (h' : Grows u t') : Grows t t' :=
  ⟨h.sameFiles.trans h'.sameFiles, h'.wellFormed ∘ h.wellFormed⟩

theorem SameFiles.rewrites {content : ByteArray} (h : SameFiles t u)
    (h' : Rewrites u t' l number content) : Rewrites t t' l number content where
  numberAt := h'.numberAt
  content := h'.content
  others n hn := h.contents ▸ h'.others n hn
  names k hk := (h'.names k hk).trans (h.numberAt k)
  before := h.contents ▸ h.numberAt l ▸ h'.before

/-! ## Entries -/

theorem mem_of_lookup_eq_some {α β : Type} [BEq α] [LawfulBEq α] {a : α} {b : β}
    {table : List (α × β)} (h : table.lookup a = some b) : (a, b) ∈ table := by
  obtain ⟨before, after, rfl, -⟩ := List.lookup_eq_some_iff.1 h
  simp

theorem entry?_eq_directory_iff : t.entry? l = some .directory ↔ l = [] ∨ l ∈ t.directories := by
  unfold FileTree.entry?
  split
  next h => simp [h]
  next h => simp [h]

theorem entry?_eq_file_iff : t.entry? l = some (.file number) ↔ t.numberAt l = some number := by
  rw [numberAt]
  split
  next h => simp [h]
  next h =>
    constructor
    · intro hfile
      exact absurd hfile (h number)
    · simp

theorem numberAt_eq_some_iff :
    t.numberAt l = some number ↔
      ¬ (l = [] ∨ l ∈ t.directories) ∧ t.names.lookup l = some number := by
  rw [← entry?_eq_file_iff, entry?]
  split
  next h => simp [h]
  next h => simp [h]

theorem WellFormed.lt_length (h : t.WellFormed) (hl : t.numberAt l = some number) :
    number < t.contents.length :=
  h.numbers _ (mem_of_lookup_eq_some (numberAt_eq_some_iff.1 hl).2)

theorem WellFormed.entry?_dropLast (h : t.WellFormed) (hl : t.entry? l ≠ none) :
    t.entry? l.dropLast = some .directory := by
  rw [entry?_eq_directory_iff]
  unfold FileTree.entry? at hl
  split at hl
  next hdir =>
    rcases hdir with rfl | hdir
    · exact .inl rfl
    · exact h.directories l hdir
  next =>
    cases hfile : t.names.lookup l with
    | none => simp [hfile] at hl
    | some number => exact h.names (l, number) (mem_of_lookup_eq_some hfile)

theorem Rewrites.number_eq_iff {content : ByteArray} {origin : Nat}
    (h : Rewrites t t' l number content) (ht : t.WellFormed) (hk : t.numberAt k = some origin) :
    number = origin ↔ t.numberAt l = some origin := by
  rcases h.before with hold | ⟨hnone, hnew⟩
  · rw [hold, Option.some.injEq]
  · refine iff_of_false ?_ (by simp [hnone])
    rintro rfl
    exact absurd (ht.lt_length hk) (Nat.not_lt.2 (List.getElem?_eq_none_iff.1 hnew))

/-! ## Following paths -/

/-- A part of a path that stands for itself: a name, which leads from a directory to what it
holds under that name. -/
def IsProperName (part : Octets) : Prop := part ≠ [] ∧ part ≠ [point] ∧ part ≠ [point, point]

inductive Leads (l : Location) : Octets → Location → Prop where
  /-- Nowhere else. -/
  | stay {part : Octets} (h : part = [] ∨ part = [point]) : Leads l part l
  /-- To the directory around. -/
  | up : Leads l [point, point] l.dropLast
  /-- To what stands there under a name. -/
  | down {part : Octets} (h : IsProperName part) (hsize : part.length ≤ maxNameBytes) :
    Leads l part (l ++ [part])

theorem Leads.eq_of_stay (h : Leads l part k) (hpart : part = [] ∨ part = [point]) : k = l := by
  cases h with
  | stay => rfl
  | up => exact absurd hpart (by decide)
  | down hproper => exact absurd hpart (by simp [hproper.1, hproper.2.1])

theorem Leads.eq_of_proper (h : Leads l part k) (hpart : IsProperName part) : k = l ++ [part] := by
  cases h with
  | stay hstay => exact absurd hstay (by simp [hpart.1, hpart.2.1])
  | up => exact absurd rfl hpart.2.2
  | down => rfl

theorem follow_cons_iff :
    t.follow l (part :: more) = .ok m ↔
      t.entry? l = some .directory ∧ ∃ k, Leads l part k ∧ t.follow k more = .ok m := by
  rw [follow]
  cases hentry : t.entry? l with
  | none => simp
  | some entry =>
    cases entry with
    | file number => simp
    | directory =>
      simp only [true_and]
      by_cases hstay : part = [] ∨ part = [point]
      · rw [if_pos hstay]
        constructor
        · exact fun h => ⟨l, .stay hstay, h⟩
        · rintro ⟨k, hk, h⟩
          exact hk.eq_of_stay hstay ▸ h
      · rw [if_neg hstay]
        by_cases hup : part = [point, point]
        · subst hup
          rw [if_pos rfl]
          constructor
          · exact fun h => ⟨_, .up, h⟩
          · rintro ⟨k, hk, h⟩
            cases hk with
            | stay hpart => exact absurd hpart hstay
            | up => exact h
            | down hname => exact absurd rfl hname.2.2
        · rw [if_neg hup, ite_error_eq_ok_iff, Nat.not_lt]
          have hname : IsProperName part := ⟨fun h => hstay (.inl h), fun h => hstay (.inr h), hup⟩
          constructor
          · exact fun h => ⟨_, .down hname h.1, h.2⟩
          · rintro ⟨k, hk, h⟩
            cases hk with
            | stay hpart => exact absurd hpart hstay
            | up => exact absurd rfl hup
            | down _ hsize => exact ⟨hsize, h⟩

theorem follow_append_iff :
    t.follow l (parts ++ more) = .ok m ↔
      ∃ k, t.follow l parts = .ok k ∧ t.follow k more = .ok m := by
  induction parts generalizing l with
  | nil => simp [follow]
  | cons part parts ih =>
    simp only [List.cons_append, follow_cons_iff, ih]
    constructor
    · rintro ⟨hentry, k, hk, n, hn, hm⟩
      exact ⟨n, ⟨hentry, k, hk, hn⟩, hm⟩
    · rintro ⟨n, ⟨hentry, k, hk, hn⟩, hm⟩
      exact ⟨hentry, k, hk, n, hn, hm⟩

theorem follow_single_iff :
    t.follow l [part] = .ok m ↔ t.entry? l = some .directory ∧ Leads l part m := by
  rw [follow_cons_iff]
  simp only [follow, Except.ok.injEq, exists_eq_right]

theorem follow_of_directories
    (hdir : ∀ k, t.entry? k = some .directory → t'.entry? k = some .directory)
    (h : t.follow l parts = .ok m) : t'.follow l parts = .ok m := by
  induction parts generalizing l with
  | nil => exact h
  | cons part parts ih =>
    obtain ⟨hentry, k, hk, hmore⟩ := follow_cons_iff.1 h
    exact follow_cons_iff.2 ⟨hdir l hentry, k, hk, ih hmore⟩

theorem pathError?_eq_none_iff :
    pathError? path = none ↔ 0 ∉ path ∧ path.length ≤ maxPathBytes ∧ path ≠ [] := by
  rw [pathError?]
  by_cases hzero : 0 ∈ path <;> by_cases hsize : maxPathBytes < path.length <;>
    by_cases hnil : path = [] <;> simp [*] <;> omega

theorem locate_eq_ok_iff :
    t.locate path = .ok l ↔
      pathError? path = none ∧ t.follow (t.start path) (slashParts path) = .ok l := by
  rw [locate]
  cases pathError? path <;> simp

theorem entry?_eq_directory_congr (h : t'.directories = t.directories) :
    t'.entry? l = some .directory ↔ t.entry? l = some .directory := by
  rw [entry?_eq_directory_iff, entry?_eq_directory_iff, h]

theorem locate_congr (h : t'.directories = t.directories) (hhere : t'.here = t.here)
    (hpath : t.locate path = .ok l) : t'.locate path = .ok l := by
  obtain ⟨hnone, hfollow⟩ := locate_eq_ok_iff.1 hpath
  have hstart : t'.start path = t.start path := by rw [start, start, hhere]
  exact locate_eq_ok_iff.2 ⟨hnone, hstart ▸ follow_of_directories
    (fun k => (entry?_eq_directory_congr h).2) hfollow⟩

/-! ## Operations -/

theorem read_eq_ok_iff : t.read path = .ok text ↔ t.Holds path text := by
  rw [read, Holds]
  cases hlocate : t.locate path with
  | error e => simp
  | ok l =>
    simp only [Except.ok.injEq, exists_and_left, exists_eq_left', ← entry?_eq_file_iff]
    cases hentry : t.entry? l with
    | none => simp
    | some entry =>
      cases entry with
      | directory => simp
      | file number =>
        simp only [Option.some.injEq, Entry.file.injEq, exists_eq_left']
        cases hcontent : t.contents[number]? with
        | none => simp
        | some content =>
          simp only [Option.some.injEq, ← fromUTF8?_eq_some_iff]
          cases htext : String.fromUTF8? content <;> simp

theorem Holds.unique {other : String} (h : t.Holds path text) (h' : t.Holds path other) :
    text = other := by
  rw [← read_eq_ok_iff] at h h'
  exact Except.ok.inj (h.symm.trans h')

theorem exists_of_makeDirectory (h : t.makeDirectory path = .ok t') :
    ∃ outer name, t.entry? outer = some .directory ∧ t.entry? (outer ++ [name]) = none ∧
      t' = { t with directories := t.directories ++ [outer ++ [name]] } := by
  rw [makeDirectory] at h
  split at h
  next => cases h
  next =>
    split at h
    next => cases h
    next name _ =>
      split at h
      next => cases h
      next outer houter =>
        rw [ite_error_eq_ok_iff, ite_error_eq_ok_iff, ite_error_eq_ok_iff] at h
        obtain ⟨-, -, hthere, h⟩ := h
        obtain ⟨place, -, hpoint⟩ := follow_append_iff.1 houter
        obtain ⟨hplace, hleads⟩ := follow_single_iff.1 hpoint
        obtain rfl := hleads.eq_of_stay (.inr rfl)
        exact ⟨outer, name, hplace, by simpa using hthere, (Except.ok.inj h).symm⟩

/-- A tree stays well-formed when its directories become more and each of its names and of its new
directories stands in one of them. -/
theorem WellFormed.of_subset (h : t.WellFormed) (hold : t.directories ⊆ t'.directories)
    (hnew : ∀ l ∈ t'.directories, l ∈ t.directories ∨ l.dropLast = [] ∨ l.dropLast ∈ t.directories)
    (hnames : ∀ f ∈ t'.names, f ∈ t.names ∨
      (f.1.dropLast = [] ∨ f.1.dropLast ∈ t.directories) ∧ f.2 < t'.contents.length)
    (hlength : t.contents.length ≤ t'.contents.length) : t'.WellFormed where
  directories l hl :=
    ((hnew l hl).elim (h.directories l) id).imp_right fun h => hold h
  names f hf := ((hnames f hf).elim (h.names f) And.left).imp_right fun h => hold h
  numbers f hf :=
    (hnames f hf).elim (fun hmem => Nat.lt_of_lt_of_le (h.numbers f hmem) hlength) And.right

theorem grows_of_makeDirectory (h : t.makeDirectory path = .ok t') : Grows t t' := by
  obtain ⟨outer, name, houter, hnew, rfl⟩ := exists_of_makeDirectory h
  refine ⟨⟨fun l => ?_, rfl⟩, fun ht =>
    ht.of_subset (by simp) ?_ (fun f hf => .inl hf) (Nat.le_refl _)⟩
  · by_cases hl : l = outer ++ [name]
    · subst hl
      simp [numberAt, hnew, entry?_eq_directory_iff.2]
    · simp [numberAt, entry?, hl]
  · intro l hl
    rcases List.mem_append.1 hl with hl | hl
    · exact .inl hl
    · obtain rfl := List.mem_singleton.1 hl
      rw [List.dropLast_concat]
      exact .inr (entry?_eq_directory_iff.1 houter)

theorem exists_of_write (h : t.write path text = .ok t') :
    ∃ l, t.locate path = .ok l ∧ t.entry? l ≠ some .directory ∧
      ((∃ number, t.numberAt l = some number ∧
          t' = { t with contents := t.contents.set number text.toUTF8 }) ∨
        t.entry? l = none ∧ t' = t.newFile l text.toUTF8) := by
  rw [write] at h
  split at h
  next => cases h
  next l hlocate =>
    refine ⟨l, hlocate, ?_⟩
    split at h
    next => cases h
    next number hentry =>
      exact ⟨by simp [hentry], .inl ⟨number, entry?_eq_file_iff.1 hentry, (Except.ok.inj h).symm⟩⟩
    next hentry => exact ⟨by simp [hentry], .inr ⟨hentry, (Except.ok.inj h).symm⟩⟩

theorem lookup_concat {α β : Type} [BEq α] [LawfulBEq α] [DecidableEq α] {a : α} (b : β)
    {table : List (α × β)} (h : table.lookup a = none) (k : α) :
    (table ++ [(a, b)]).lookup k = if k = a then some b else table.lookup k := by
  by_cases hk : k = a
  · subst hk
    simp [List.lookup_append, h]
  · simp [List.lookup_append, List.lookup_cons, beq_eq_false_iff_ne.2 hk, hk]

theorem rewrites_of_set (ht : t.WellFormed) (hl : t.numberAt l = some number)
    (content : ByteArray) :
    Rewrites t { t with contents := t.contents.set number content } l number content where
  numberAt := hl
  content := by simp [ht.lt_length hl]
  others n hn := List.getElem?_set_ne (Ne.symm hn)
  names _ _ := rfl
  before := .inl hl

theorem rewrites_newFile (hl : t.entry? l = none) (content : ByteArray) :
    Rewrites t (t.newFile l content) l t.contents.length content := by
  have hdirectory : ¬ (l = [] ∨ l ∈ t.directories) := by
    rw [← entry?_eq_directory_iff, hl]
    simp
  have hlookup : t.names.lookup l = none := by
    unfold FileTree.entry? at hl
    rw [if_neg hdirectory] at hl
    simpa using hl
  have hnumber : ∀ k, (t.newFile l content).numberAt k =
      if k = l then some t.contents.length else t.numberAt k := by
    intro k
    by_cases hk : k = l
    · subst hk
      rw [if_pos rfl]
      exact numberAt_eq_some_iff.2 ⟨hdirectory, by simp [newFile, lookup_concat _ hlookup]⟩
    · simp [numberAt, entry?, newFile, lookup_concat _ hlookup, hk]
  refine ⟨by simp [hnumber], by simp [newFile], fun n hn => ?_, fun k hk => by simp [hnumber, hk],
    .inr ⟨by simp [numberAt, hl], by simp⟩⟩
  rcases Nat.lt_or_ge n t.contents.length with hlt | hge
  · exact List.getElem?_append_left hlt
  · have hlong : (t.newFile l content).contents.length ≤ n := by
      simp [newFile]
      omega
    rw [List.getElem?_eq_none hlong, List.getElem?_eq_none hge]

/-- Writing changes nothing but the content of one file, which is found where the path leads. -/
theorem exists_rewrites_of_write (ht : t.WellFormed) (h : t.write path text = .ok t') :
    ∃ l number, t.locate path = .ok l ∧ Rewrites t t' l number text.toUTF8 ∧
      t'.directories = t.directories ∧ t'.here = t.here := by
  obtain ⟨l, hlocate, -, ⟨number, hl, rfl⟩ | ⟨hl, rfl⟩⟩ := exists_of_write h
  · exact ⟨l, number, hlocate, rewrites_of_set ht hl _, rfl, rfl⟩
  · exact ⟨l, _, hlocate, rewrites_newFile hl _, rfl, rfl⟩

end FileTree

end EventMarkup.Command
