import EventMarkup.Command.Run
import EventMarkup.Proofs.Command.Trees

/-!
# Denied operations

An operation on a file tree may be denied for reasons that the tree does not show. `accessUnless`
gives the operations with those that are denied: each of them does what it is for, or it fails and
leaves the tree as it is. Whatever is denied, making directories leaves every file as it was
(`keeps_makeDirectories`).
-/

namespace EventMarkup.Command

open FileTree

/-! ## Operations that are denied -/

inductive Operation where
  | read (path : Octets)
  | write (path : Octets) (text : String)
  | makeDirectory (path : Octets)
  | isDirectory (path : Octets)

/-- Which operations are denied on a tree, each with the reason. -/
abbrev Denial := Operation → FileTree → Option FileError

namespace FileTree

/-- Fails where the operation is denied, and leaves the tree as it is. -/
def unlessDenied {α : Type} (denied : Denial) (o : Operation)
    (x : StateM FileTree (Except FileError α)) : StateM FileTree (Except FileError α) :=
  fun t => (denied o t).elim (x t) fun e => (.error e, t)

/-- The operations on a tree, of which some are denied: by the permissions of a file, for want of
space, or for another reason that the tree does not show. -/
def accessUnless (denied : Denial) : FileAccess (StateM FileTree) where
  read path := unlessDenied denied (.read path) (access.read path)
  write path text := unlessDenied denied (.write path text) (access.write path text)
  makeDirectory path := unlessDenied denied (.makeDirectory path) (access.makeDirectory path)
  isDirectory path := fun t => ((denied (.isDirectory path) t).isNone && t.isDirectory path, t)

theorem accessUnless_nothing : accessUnless (fun _ _ => none) = access := rfl

/-- A text can be read from a path: the path leads to a file that holds it, and reading is not
denied. -/
def Readable (denied : Denial) (t : FileTree) (path : Octets) (text : String) : Prop :=
  denied (.read path) t = none ∧ t.Holds path text

theorem Readable.unique {denied : Denial} {t : FileTree} {path : Octets} {text other : String}
    (h : t.Readable denied path text) (h' : t.Readable denied path other) : text = other :=
  h.2.unique h'.2

theorem read_accessUnless (denied : Denial) (path : Octets) (t : FileTree) :
    ∃ result, (accessUnless denied).read path t = (result, t) ∧
      ∀ text, result = .ok text ↔ t.Readable denied path text := by
  cases h : denied (.read path) t with
  | none => exact ⟨t.read path, by simp [accessUnless, unlessDenied, access, h],
      fun text => read_eq_ok_iff.trans (by simp [Readable, h])⟩
  | some e => exact ⟨.error e, by simp [accessUnless, unlessDenied, h], by simp [Readable, h]⟩

/-- Writing does what it is for, or it fails and leaves the tree as it is. -/
theorem write_accessUnless (denied : Denial) (path : Octets) (text : String) (t : FileTree) :
    (∃ t', (accessUnless denied).write path text t = (.ok (), t') ∧
      t.write path text = .ok t') ∨
      ∃ e, (accessUnless denied).write path text t = (.error e, t) := by
  simp only [accessUnless, unlessDenied, access, update]
  cases denied (.write path text) t with
  | some e => exact .inr ⟨e, rfl⟩
  | none =>
    cases t.write path text with
    | error e => exact .inr ⟨e, rfl⟩
    | ok t' => exact .inl ⟨t', rfl, rfl⟩

theorem write_of_accessUnless {denied : Denial} {path : Octets} {text : String} {t t' : FileTree}
    (h : (accessUnless denied).write path text t = (.ok (), t')) : t.write path text = .ok t' := by
  rcases write_accessUnless denied path text t with ⟨u, hwrite, hu⟩ | ⟨e, hwrite⟩
  · cases h.symm.trans hwrite
    exact hu
  · cases h.symm.trans hwrite

/-- A text can be written to a file in a directory: the directory is there or can be made, and the
file can be written then. -/
def Writable (denied : Denial) (t : FileTree) (directory file : Octets) (text : String) : Prop :=
  ∃ made written,
    makeDirectories (accessUnless denied) directory (parentPaths directory) t = (.ok (), made) ∧
    (accessUnless denied).write (pathIn directory file) text made = (.ok (), written)

end FileTree

/-! ## Operations that keep every file -/

/-- Whatever the tree, nothing but new directories is in it afterwards. -/
def Keeps {α : Type} (x : StateM FileTree α) : Prop := ∀ t, Grows t (x t).2

section Keeps

variable {α β : Type} (denied : Denial)

theorem Keeps.pure (a : α) : Keeps (pure a : StateM FileTree α) := Grows.refl

theorem Keeps.bind {x : StateM FileTree α} {f : α → StateM FileTree β} (hx : Keeps x)
    (hf : ∀ a, Keeps (f a)) : Keeps (x >>= f) :=
  fun t => (hx t).trans (hf (x t).1 (x t).2)

theorem keeps_isDirectory (path : Octets) : Keeps ((accessUnless denied).isDirectory path) :=
  Grows.refl

theorem keeps_makeDirectory (path : Octets) : Keeps ((accessUnless denied).makeDirectory path) := by
  intro t
  simp only [accessUnless, unlessDenied, access, update]
  cases denied (.makeDirectory path) t with
  | some e => exact Grows.refl t
  | none =>
    cases h : t.makeDirectory path with
    | error e => simpa [h] using Grows.refl t
    | ok t' => simpa [h] using grows_of_makeDirectory h

theorem keeps_unlessDirectory (path : Octets) (e : FileError) :
    Keeps (do if ← (accessUnless denied).isDirectory path then return .ok () else return .error e :
      StateM FileTree (Except FileError Unit)) := by
  refine (keeps_isDirectory denied path).bind fun there => ?_
  split <;> exact Keeps.pure _

theorem keeps_makeDirectories (path : Octets) (around : List Octets) :
    Keeps (makeDirectories (accessUnless denied) path around) := by
  induction around generalizing path with
  | nil =>
    rw [makeDirectories]
    split
    · exact Keeps.pure _
    · refine (keeps_makeDirectory denied path).bind fun made => ?_
      split
      · exact Keeps.pure _
      · exact Keeps.pure _
      · exact keeps_unlessDirectory denied path _
  | cons outer around ih =>
    rw [makeDirectories]
    split
    · exact Keeps.pure _
    · refine (keeps_makeDirectory denied path).bind fun made => ?_
      split
      · exact Keeps.pure _
      · refine (ih outer).bind fun madeOuter => ?_
        split
        · exact Keeps.pure _
        · refine (keeps_makeDirectory denied path).bind fun madeAgain => ?_
          split
          · exact Keeps.pure _
          · exact keeps_unlessDirectory denied path _
      · exact keeps_unlessDirectory denied path _

end Keeps

theorem grows_of_makeDirectories {denied : Denial} {t t' : FileTree} {path : Octets}
    {around : List Octets} {made : Except FileError Unit}
    (h : makeDirectories (accessUnless denied) path around t = (made, t')) : Grows t t' := by
  have hkeeps := keeps_makeDirectories denied path around t
  rwa [h] at hkeeps

end EventMarkup.Command
