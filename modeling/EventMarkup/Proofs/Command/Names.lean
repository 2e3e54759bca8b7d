import EventMarkup.Proofs.Command.Trees
import Mathlib.Data.List.TakeWhile

/-!
# Names in paths

The last name of a path, its stem, and the path of a file in a directory. `LastName` and `IsStem`
say by the octets alone what they are, so that a name and its stem can be told from the way they are
computed. A path that leads to a file ends with a proper name, and this name is the one under which
the file stands.
-/

namespace EventMarkup.Command

open Text

/-- What stands behind the last slash of a path. -/
def LastName (path name : Octets) : Prop :=
  ∃ front, path = front ++ name ∧ (front = [] ∨ ∃ outer, front = outer ++ [slash]) ∧
    slash ∉ name

/-- The stem of a name: what stands before its last point, provided that something does, and
otherwise the whole name. -/
inductive IsStem (name : Octets) : Octets → Prop where
  /-- No point stands behind the first byte. -/
  | whole (h : point ∉ name.tail) : IsStem name name
  /-- The last point stands behind the stem. -/
  | front {stem extension : Octets} (hne : stem ≠ []) (hlast : point ∉ extension)
    (h : name = stem ++ point :: extension) : IsStem name stem

variable {path name stem directory file : Octets}

/-! ## Texts -/

theorem textOf?_eq_some_iff {o : Octets} {text : String} :
    textOf? o = some text ↔ o = octetsOf text := by
  rw [textOf?, fromUTF8?_eq_some_iff, octetsOf, ByteArray.ext_iff, ← Array.toList_inj]

theorem octetsOf_append (a b : String) : octetsOf (a ++ b) = octetsOf a ++ octetsOf b := by
  simp [octetsOf]

/-! ## Last names -/

theorem slashParts_of_not_mem (h : slash ∉ name) : slashParts name = [name] :=
  pieces_eq_singleton fun b hb => by
    rw [beq_eq_false_iff_ne]
    rintro rfl
    exact h hb

theorem slashParts_append (outer name : Octets) :
    slashParts (outer ++ slash :: name) = slashParts outer ++ slashParts name :=
  pieces_append rfl outer name

theorem exists_last_of_mem {α : Type} {a : α} {l : List α} (h : a ∈ l) :
    ∃ before after, l = before ++ a :: after ∧ a ∉ after := by
  obtain ⟨after, before, hl, hafter⟩ := List.eq_append_cons_of_mem (List.mem_reverse.2 h)
  refine ⟨before.reverse, after.reverse, ?_, by simpa using hafter⟩
  rw [← l.reverse_reverse, hl]
  simp

theorem exists_lastName (path : Octets) : ∃ name, LastName path name := by
  by_cases h : slash ∈ path
  · obtain ⟨before, after, rfl, hafter⟩ := exists_last_of_mem h
    exact ⟨after, before ++ [slash], by simp, .inr ⟨_, rfl⟩, hafter⟩
  · exact ⟨path, [], rfl, .inl rfl, h⟩

theorem LastName.not_mem (h : LastName path name) : slash ∉ name := by
  obtain ⟨-, -, -, hname⟩ := h
  exact hname

theorem LastName.slashParts (h : LastName path name) :
    ∃ outer, slashParts path = outer ++ [name] := by
  obtain ⟨front, rfl, rfl | ⟨outer, rfl⟩, hname⟩ := h
  · exact ⟨[], slashParts_of_not_mem hname⟩
  · refine ⟨Command.slashParts outer, ?_⟩
    rw [List.append_assoc, List.singleton_append, slashParts_append, slashParts_of_not_mem hname]

/-! ## Stems -/

theorem beforeLastPoint?_append {before after : Octets} (h : point ∉ after) :
    beforeLastPoint? (before ++ point :: after) = some before := by
  have hdrop : (before ++ point :: after).reverse.dropWhile (· != point) =
      point :: before.reverse := by
    rw [List.reverse_append, List.reverse_cons, List.append_assoc,
      List.dropWhile_append_of_pos fun b hb => ?_]
    · simp
    · rw [bne_iff_ne]
      rintro rfl
      exact h (List.mem_reverse.1 hb)
  rw [beforeLastPoint?, hdrop]
  simp

theorem beforeLastPoint?_of_not_mem {bs : Octets} (h : point ∉ bs) :
    beforeLastPoint? bs = none := by
  have hdrop : bs.reverse.dropWhile (· != point) = [] := by
    rw [List.dropWhile_eq_nil_iff]
    intro b hb
    rw [bne_iff_ne]
    rintro rfl
    exact h (List.mem_reverse.1 hb)
  rw [beforeLastPoint?, hdrop]

theorem isStem_nameStem (name : Octets) : IsStem name (nameStem name) := by
  rw [nameStem]
  by_cases h : point ∈ name
  · obtain ⟨before, after, rfl, hafter⟩ := exists_last_of_mem h
    rw [beforeLastPoint?_append hafter]
    cases before with
    | nil => exact .whole hafter
    | cons b before => exact .front (List.cons_ne_nil b before) hafter rfl
  · rw [beforeLastPoint?_of_not_mem h]
    exact .whole fun hmem => h (List.mem_of_mem_tail hmem)

theorem fileStem?_of_lastName (h : LastName path name) (hname : FileTree.IsProperName name) :
    fileStem? path = some (nameStem name) := by
  obtain ⟨outer, hparts⟩ := h.slashParts
  have hlast : (pathNames path).getLast? = some name := by
    rw [pathNames, hparts]
    cases outer with
    | nil => simp [hname.1]
    | cons first outer => simp [isName, hname.1, hname.2.1]
  rw [fileStem?, hlast]
  simp [hname.2.1, hname.2.2]

theorem IsStem.append_ne (h : IsStem name stem) : stem ++ octetsOf ".handlers.js" ≠ name := by
  have hcode : octetsOf ".handlers.js" = point :: octetsOf "handlers.js" := by decide
  intro heq
  cases h with
  | whole =>
    have hlength := congrArg List.length heq
    simp [hcode] at hlength
  | @front stem extension hne hlast h =>
    rw [h, hcode, List.append_cancel_left_eq, List.cons.injEq] at heq
    exact hlast (heq.2 ▸ by decide)

theorem not_mem_of_isStem (h : IsStem name stem) (hname : slash ∉ name) : slash ∉ stem := by
  cases h with
  | whole => exact hname
  | front _ _ h =>
    rw [h, List.mem_append, not_or] at hname
    exact hname.1

/-! ## Paths of files -/

theorem slashParts_pathIn (hdirectory : directory ≠ []) (hfile : slash ∉ file) :
    ∃ parts, slashParts (pathIn directory file) = parts ++ [file] ∧
      (slashParts directory = parts ∨ slashParts directory = parts ++ [[]]) := by
  by_cases hslash : directory.getLast? = some slash
  · obtain ⟨outer, rfl⟩ := List.getLast?_eq_some_iff.1 hslash
    refine ⟨slashParts outer, ?_, .inr (slashParts_append outer [])⟩
    rw [pathIn, if_pos (.inr hslash), List.append_assoc, List.singleton_append, slashParts_append,
      slashParts_of_not_mem hfile]
  · refine ⟨slashParts directory, ?_, .inl rfl⟩
    rw [pathIn, if_neg (by simp [hdirectory, hslash]), slashParts_append,
      slashParts_of_not_mem hfile]

theorem exists_pathIn_eq (directory file : Octets) :
    ∃ more, pathIn directory file = directory ++ more := by
  rw [pathIn]
  split
  · exact ⟨file, rfl⟩
  · exact ⟨slash :: file, rfl⟩

theorem isRooted_append (hpath : path ≠ []) (more : Octets) :
    isRooted (path ++ more) = isRooted path := by
  obtain ⟨b, bs, rfl⟩ := List.exists_cons_of_ne_nil hpath
  rfl

namespace FileTree

variable {t : FileTree} {l : Location} {text : String}

/-- A path that does not lead to a directory ends with a proper name, and leads to what a directory
holds under this name. -/
theorem exists_of_locate (ht : t.WellFormed) (hlocate : t.locate path = .ok l)
    (hl : t.entry? l ≠ some .directory) (hlast : LastName path name) :
    IsProperName name ∧ ∃ outer, t.entry? outer = some .directory ∧ l = outer ++ [name] := by
  obtain ⟨parts, hparts⟩ := hlast.slashParts
  obtain ⟨-, hfollow⟩ := locate_eq_ok_iff.1 hlocate
  rw [hparts, follow_append_iff] at hfollow
  obtain ⟨outer, -, hname⟩ := hfollow
  obtain ⟨hdirectory, hleads⟩ := follow_single_iff.1 hname
  cases hleads with
  | stay => exact absurd hdirectory hl
  | up => exact absurd (ht.entry?_dropLast (by simp [hdirectory])) hl
  | down hproper => exact ⟨hproper, outer, hdirectory, rfl⟩

theorem wellFormed_of_write {t' : FileTree} (ht : t.WellFormed) (h : t.write path text = .ok t') :
    t'.WellFormed := by
  obtain ⟨l, hlocate, hl, ⟨number, -, rfl⟩ | ⟨-, rfl⟩⟩ := exists_of_write h
  · exact ht.of_subset (List.Subset.refl _) (fun k hk => .inl hk) (fun f hf => .inl hf) (by simp)
  · obtain ⟨name, hlast⟩ := exists_lastName path
    obtain ⟨-, outer, houter, rfl⟩ := exists_of_locate ht hlocate hl hlast
    refine ht.of_subset (List.Subset.refl _) (fun k hk => .inl hk) (fun f hf => ?_) (by simp [newFile])
    refine (List.mem_append.1 hf).imp_right fun hmem => ?_
    obtain rfl := List.mem_singleton.1 hmem
    rw [List.dropLast_concat]
    exact ⟨entry?_eq_directory_iff.1 houter, by simp [newFile]⟩

/-- The directory that a path leads to; the empty path stands for the one that relative paths start
from. -/
def IsPlace (t : FileTree) (path : Octets) (place : Location) : Prop :=
  if path = [] then place = t.here else t.locate path = .ok place

theorem exists_of_locate_pathIn (hname : slash ∉ file) (hproper : IsProperName file)
    (h : t.locate (pathIn directory file) = .ok l) :
    ∃ place, t.IsPlace directory place ∧ t.entry? place = some .directory ∧
      l = place ++ [file] := by
  obtain ⟨hnone, hfollow⟩ := locate_eq_ok_iff.1 h
  by_cases hdirectory : directory = []
  · subst hdirectory
    have hpath : pathIn [] file = file := if_pos (.inl rfl)
    have hstart : t.start file = t.here := by
      refine if_neg fun hrooted => hname ?_
      exact List.mem_of_head? (beq_iff_eq.1 hrooted)
    rw [hpath, hstart, slashParts_of_not_mem hname, follow_single_iff] at hfollow
    refine ⟨t.here, ?_, hfollow.1, hfollow.2.eq_of_proper hproper⟩
    rw [IsPlace, if_pos rfl]
  · obtain ⟨parts, hparts, hdirParts⟩ := slashParts_pathIn hdirectory hname
    obtain ⟨more, hmore⟩ := exists_pathIn_eq directory file
    have hstart : t.start (pathIn directory file) = t.start directory := by
      rw [start, hmore, isRooted_append hdirectory, start]
    have hfront : pathError? directory = none := by
      rw [hmore, pathError?_eq_none_iff, List.length_append] at hnone
      exact pathError?_eq_none_iff.2 ⟨fun hmem => hnone.1 (List.mem_append_left more hmem),
        by omega, hdirectory⟩
    rw [hparts, hstart, follow_append_iff] at hfollow
    obtain ⟨place, hplace, hlast⟩ := hfollow
    obtain ⟨hentry, hleads⟩ := follow_single_iff.1 hlast
    refine ⟨place, ?_, hentry, hleads.eq_of_proper hproper⟩
    rw [IsPlace, if_neg hdirectory]
    refine locate_eq_ok_iff.2 ⟨hfront, ?_⟩
    rcases hdirParts with hdirParts | hdirParts
    · rwa [hdirParts]
    · rw [hdirParts, follow_append_iff]
      exact ⟨place, hplace, follow_single_iff.2 ⟨hentry, .stay (.inl rfl)⟩⟩

theorem IsPlace.congr {t' : FileTree} {place : Location} (h : t'.directories = t.directories)
    (hhere : t'.here = t.here) (hplace : t.IsPlace path place) : t'.IsPlace path place := by
  by_cases hpath : path = []
  · rw [IsPlace, if_pos hpath] at hplace ⊢
    rw [hplace, hhere]
  · rw [IsPlace, if_neg hpath] at hplace ⊢
    exact locate_congr h hhere hplace

end FileTree

end EventMarkup.Command
