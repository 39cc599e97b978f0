import Mathlib.Data.List.Basic

/-!
# Bytewax.Lib.PosixPath — pure paths

`pathlib.PurePosixPath`: the root and the parts between the slashes.  A path that was taken relative
to a directory is found again by joining its text to the directory (`div_relativeTo`).
-/

/-- A part of a path is not empty, not a single period and has no slash. -/
def PosixPath.IsPart (part : List Char) : Prop := part ≠ [] ∧ part ≠ ['.'] ∧ '/' ∉ part

instance (part : List Char) : Decidable (PosixPath.IsPart part) :=
  inferInstanceAs (Decidable (_ ∧ _ ∧ _))

/-- `PurePosixPath`; the root is empty for a relative path. -/
@[ext]
structure PosixPath where
  root : String
  parts : List (List Char)
  isPart : ∀ part ∈ parts, PosixPath.IsPart part
  deriving DecidableEq

namespace PosixPath

/-- The root of a text, which keeps exactly two slashes. -/
def rootOf : List Char → String
  | '/' :: '/' :: '/' :: _ => "/"
  | '/' :: '/' :: _ => "//"
  | '/' :: _ => "/"
  | _ => ""

/-- `PurePosixPath(text)`. -/
def ofString (text : String) : PosixPath where
  root := rootOf text.toList
  parts := (text.toList.splitOn '/').filter fun part => IsPart part
  isPart part h := by simpa using (List.mem_filter.mp h).2

/-- `str(path)`. -/
def str (path : PosixPath) : String :=
  if path.root = "" ∧ path.parts = [] then "."
  else path.root ++ String.ofList (List.intercalate ['/'] path.parts)

/-- `path.parent`. -/
def parent (path : PosixPath) : PosixPath where
  root := path.root
  parts := path.parts.dropLast
  isPart part h := path.isPart part (List.dropLast_subset _ h)

/-- `path / other`, which is `other` if that is absolute. -/
def join (path other : PosixPath) : PosixPath :=
  if other.root = "" then
    { root := path.root
      parts := path.parts ++ other.parts
      isPart := fun part h => (List.mem_append.mp h).elim (path.isPart part) (other.isPart part) }
  else other

/-- `path / text`. -/
def div (path : PosixPath) (text : String) : PosixPath := path.join (ofString text)

/-- `path.relative_to(dir)`, which raises when the path is not under the directory. -/
def relativeTo (path dir : PosixPath) : Option PosixPath :=
  if path.root = dir.root ∧ dir.parts <+: path.parts then
    some {
      root := ""
      parts := path.parts.drop dir.parts.length
      isPart := fun part h => path.isPart part (List.mem_of_mem_drop h) }
  else none

variable {path dir rel : PosixPath}

theorem filter_isPart {parts : List (List Char)} (h : ∀ part ∈ parts, IsPart part) :
    parts.filter (fun part => IsPart part) = parts :=
  List.filter_eq_self.mpr fun part hpart => by simpa using h part hpart

/-- The first character of a part is no slash. -/
theorem rootOf_append {part : List Char} (h : IsPart part) (rest : List Char) :
    rootOf (part ++ rest) = "" := by
  obtain ⟨hne, -, hslash⟩ := h
  cases part with
  | nil => exact absurd rfl hne
  | cons c part =>
    have hc : c ≠ '/' := fun heq => hslash (by rw [heq]; exact List.mem_cons_self)
    show rootOf (c :: (part ++ rest)) = ""
    unfold rootOf
    split <;> simp_all

/-- A relative path is read from its text. -/
theorem ofString_str (h : path.root = "") : ofString path.str = path := by
  by_cases hnil : path.parts = []
  · have hstr : path.str = "." := if_pos ⟨h, hnil⟩
    rw [hstr]
    ext1
    · exact h.symm
    · rw [hnil]
      decide
  · have hstr : path.str.toList = List.intercalate ['/'] path.parts := by
      simp [str, h, hnil]
    have hsplit := List.splitOn_intercalate '/' (fun part hpart => (path.isPart part hpart).2.2) hnil
    ext1
    · show rootOf path.str.toList = _
      rw [hstr, h]
      obtain ⟨part, parts, hparts⟩ := List.exists_cons_of_ne_nil hnil
      rw [hparts]
      have hpart : IsPart part := path.isPart part (by rw [hparts]; exact List.mem_cons_self)
      cases parts with
      | nil => simpa using rootOf_append hpart []
      | cons part' parts =>
        rw [List.intercalate_cons_cons, List.append_assoc]
        exact rootOf_append hpart _
    · show (path.str.toList.splitOn '/').filter _ = _
      rw [hstr, hsplit]
      exact filter_isPart path.isPart

/-- **A relative path leads back.** -/
theorem div_relativeTo (h : path.relativeTo dir = some rel) : dir.div rel.str = path := by
  unfold relativeTo at h
  split at h
  · next hunder =>
    obtain ⟨hroot, rest, hrest⟩ := hunder
    cases h
    rw [div, ofString_str rfl, join, if_pos rfl]
    ext1
    · exact hroot.symm
    · show dir.parts ++ path.parts.drop dir.parts.length = path.parts
      rw [← hrest, List.drop_left]
  · cases h

end PosixPath
