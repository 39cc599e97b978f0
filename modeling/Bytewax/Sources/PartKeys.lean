import Bytewax.Lib.MapM
import Bytewax.Lib.PosixPath
import Mathlib.Data.Set.Insert

/-!
# Bytewax.Sources.PartKeys — the partition keys of file sources

A partition of `DirSource`, `FileSource` or `CSVSource` is named by the ID of a filesystem and a path,
with `::` between them; the constructors refuse an ID that contains `::`, and `build_part` splits the
name at the first `::`.
-/

namespace Bytewax

/-- `split("::", 1)`, where it gives two parts. -/
def splitOnce : List Char → Option (List Char × List Char)
  | ':' :: ':' :: rest => some ([], rest)
  | c :: rest => (splitOnce rest).map fun s => (c :: s.1, s.2)
  | [] => none

/-- `_fs_id, for_path = for_part.split("::", 1)`. -/
def splitKey (forPart : String) : Option (String × String) :=
  (splitOnce forPart.toList).map fun s => (String.ofList s.1, String.ofList s.2)

/-- The check of the result of `get_fs_id`. -/
def FsIdAccepted (fsId : String) : Prop := ¬ [':', ':'] <:+: fsId.toList

instance (fsId : String) : Decidable (FsIdAccepted fsId) :=
  inferInstanceAs (Decidable (¬ _))

def partKey (fsId path : String) : String := fsId ++ "::" ++ path

/-! ### The sources -/

/-- `DirSource`. -/
structure DirSource where
  dirPath : PosixPath
  fsId : String
  accepted : FsIdAccepted fsId

/-- `FileSource`. -/
structure FileSource where
  path : PosixPath
  fsId : String
  accepted : FsIdAccepted fsId

/-- `CSVSource`. -/
structure CSVSource where
  fileSource : FileSource

namespace DirSource

/-- `DirSource.__init__`. -/
def new (pathExists isDir : PosixPath → Bool) (getFsId : PosixPath → String) (dirPath : PosixPath) :
    Option DirSource :=
  if pathExists dirPath ∧ isDir dirPath then
    if h : FsIdAccepted (getFsId dirPath) then some ⟨dirPath, getFsId dirPath, h⟩ else none
  else none

/-- `list_parts`, where `glob` lists the files of the directory. -/
def listParts (source : DirSource) (pathExists : PosixPath → Bool) (glob : List PosixPath) :
    Option (List String) :=
  if pathExists source.dirPath then
    glob.mapM fun path => (path.relativeTo source.dirPath).map fun rel => partKey source.fsId rel.str
  else some []

/-- The path that `build_part` opens. -/
def buildPart (source : DirSource) (forPart : String) : Option PosixPath := do
  let (_, forPath) ← splitKey forPart
  return source.dirPath.div forPath

end DirSource

namespace FileSource

/-- `FileSource.__init__`. -/
def new (getFsId : PosixPath → String) (path : PosixPath) : Option FileSource :=
  if h : FsIdAccepted (getFsId path.parent) then some ⟨path, getFsId path.parent, h⟩ else none

/-- `list_parts`. -/
def listParts (source : FileSource) (pathExists : PosixPath → Bool) : List String :=
  if pathExists source.path then [partKey source.fsId source.path.str] else []

/-- The path that `build_part` opens. -/
def buildPart (source : FileSource) (forPart : String) : Option PosixPath := do
  let (_, path) ← splitKey forPart
  if path = source.path.str then return source.path else none

end FileSource

namespace CSVSource

/-- `list_parts`. -/
def listParts (source : CSVSource) (pathExists : PosixPath → Bool) : List String :=
  source.fileSource.listParts pathExists

/-- The path that `build_part` opens. -/
def buildPart (source : CSVSource) (forPart : String) : Option PosixPath := do
  let (_, path) ← splitKey forPart
  if path = source.fileSource.path.str then return source.fileSource.path else none

end CSVSource

/-- What the keys of the partitions on some filesystems are for. -/
structure KeysDecode (ids : Set String) : Prop where
  decodes : ∀ fsId ∈ ids, ∀ path, splitKey (partKey fsId path) = some (fsId, path)
  dir : ∀ source : DirSource, source.fsId ∈ ids → ∀ pathExists glob keys,
    pathExists source.dirPath → source.listParts pathExists glob = some keys →
      keys.mapM source.buildPart = some glob
  file : ∀ source : FileSource, source.fsId ∈ ids → ∀ pathExists,
    ∀ key ∈ source.listParts pathExists, source.buildPart key = some source.path
  csv : ∀ source : CSVSource, source.fileSource.fsId ∈ ids → ∀ pathExists,
    ∀ key ∈ source.listParts pathExists, source.buildPart key = some source.fileSource.path
  distinct : ∀ fsId ∈ ids, ∀ fsId' ∈ ids, ∀ path path',
    partKey fsId path = partKey fsId' path' → fsId = fsId' ∧ path = path'

/-- The ID ends in a colon. -/
def EndsInColon (fsId : String) : Prop := [':'] <:+ fsId.toList

instance (fsId : String) : Decidable (EndsInColon fsId) :=
  inferInstanceAs (Decidable (_ <:+ _))

/-! ### Splitting a key -/

/-- The first separator of a key is the one after the ID, unless the ID touches it. -/
theorem splitOnce_append {fsId : List Char} (path : List Char) (h : ¬ [':', ':'] <:+: fsId)
    (hend : ¬ [':'] <:+ fsId) : splitOnce (fsId ++ ':' :: ':' :: path) = some (fsId, path) := by
  induction fsId with
  | nil => rfl
  | cons c fsId ih =>
    have hrest := ih (fun hin => h (hin.trans (List.suffix_cons c fsId).isInfix))
      (fun hin => hend (hin.trans (List.suffix_cons c fsId)))
    have hsplit : splitOnce (c :: (fsId ++ ':' :: ':' :: path)) =
        (splitOnce (fsId ++ ':' :: ':' :: path)).map fun s => (c :: s.1, s.2) := by
      cases fsId with
      | nil =>
        have hc : c ≠ ':' := fun heq => hend (by simp [heq])
        show splitOnce (c :: ':' :: ':' :: path) = (splitOnce (':' :: ':' :: path)).map _
        have hfirst : ∀ rest, c = ':' → ':' :: ':' :: path = ':' :: rest → False :=
          fun _ heq _ => hc heq
        rw [splitOnce.eq_2 _ _ hfirst]
      | cons d fsId =>
        show splitOnce (c :: d :: (fsId ++ ':' :: ':' :: path)) = _
        rw [splitOnce.eq_2]
        · rfl
        · rintro rest rfl heq
          obtain ⟨rfl, -⟩ := List.cons.inj heq
          exact h ⟨[], fsId, rfl⟩
    rw [List.cons_append, hsplit, hrest]
    rfl

theorem splitKey_partKey {fsId : String} (path : String) (h : FsIdAccepted fsId)
    (hend : ¬ EndsInColon fsId) : splitKey (partKey fsId path) = some (fsId, path) := by
  have hkey : (partKey fsId path).toList = fsId.toList ++ ':' :: ':' :: path.toList := by
    simp [partKey]
  rw [splitKey, hkey, splitOnce_append path.toList h hend]
  simp

/-- A colon at the end of the ID becomes part of the separator. -/
theorem splitKey_of_endsInColon {fsId : String} (path : String) (h : FsIdAccepted fsId)
    (hend : EndsInColon fsId) : splitKey (partKey fsId path) ≠ some (fsId, path) := by
  obtain ⟨pre, hpre⟩ := hend
  have hkey : (partKey fsId path).toList = pre ++ ':' :: ':' :: (':' :: path.toList) := by
    simp [partKey, ← hpre]
  unfold FsIdAccepted at h
  rw [← hpre] at h
  have hsplit := splitOnce_append (':' :: path.toList)
    (fun hin => h (hin.trans (List.prefix_append pre [':']).isInfix))
    (fun ⟨pre', hpre'⟩ => h ⟨pre', [], by rw [← hpre']; simp⟩)
  rw [splitKey, hkey, hsplit]
  intro heq
  have hid : String.ofList pre = fsId := (Prod.mk.inj (Option.some.inj heq)).1
  rw [← hid, String.toList_ofList] at hpre
  simp at hpre

/-- **When partition keys decode**: just when no ID of a filesystem ends in a colon. -/
theorem keysDecode_iff (ids : Set String) (h : ∀ fsId ∈ ids, FsIdAccepted fsId) :
    KeysDecode ids ↔ ∀ fsId ∈ ids, ¬ EndsInColon fsId := by
  constructor
  · intro hdecode fsId hmem hend
    exact splitKey_of_endsInColon "" (h fsId hmem) hend (hdecode.decodes fsId hmem "")
  · intro hend
    have hsplit : ∀ fsId ∈ ids, ∀ path, splitKey (partKey fsId path) = some (fsId, path) :=
      fun fsId hmem path => splitKey_partKey path (h fsId hmem) (hend fsId hmem)
    have hfile : ∀ source : FileSource, source.fsId ∈ ids → ∀ pathExists,
        ∀ key ∈ source.listParts pathExists, source.buildPart key = some source.path := by
      intro source hmem pathExists key hkey
      unfold FileSource.listParts at hkey
      split at hkey
      · obtain rfl := List.mem_singleton.mp hkey
        simp [FileSource.buildPart, hsplit _ hmem]
      · cases hkey
    refine ⟨hsplit, ?_, ?_, ?_, ?_⟩
    · intro source hmem pathExists glob keys hexists hkeys
      unfold DirSource.listParts at hkeys
      rw [if_pos hexists] at hkeys
      refine MapM.decodes (fun path key hpath => ?_) hkeys
      obtain ⟨rel, hrel, rfl⟩ := Option.map_eq_some_iff.mp hpath
      simp only [DirSource.buildPart, hsplit _ hmem, PosixPath.div_relativeTo hrel,
        Option.bind_eq_bind, Option.bind_some, Option.pure_def]
    · exact fun source hmem pathExists key hkey => hfile source hmem pathExists key hkey
    · exact fun source hmem pathExists key hkey => hfile source.fileSource hmem pathExists key hkey
    · intro fsId hmem fsId' hmem' path path' heq
      have hboth := (hsplit fsId hmem path).symm.trans (heq ▸ hsplit fsId' hmem' path')
      exact Prod.mk.inj (Option.some.inj hboth)

/-- A constant ID. -/
theorem keysDecode_iff_shared : KeysDecode {"SHARED"} := by
  refine (keysDecode_iff {"SHARED"} ?_).mpr ?_
  · rintro fsId rfl
    decide
  · rintro fsId rfl
    decide

/-- The key of `data.txt` on `nfs:` names the file `:data.txt` on `nfs`. -/
theorem not_keysDecode_nfs : FsIdAccepted "nfs:" ∧
    splitKey (partKey "nfs:" "data.txt") = some ("nfs", ":data.txt") ∧ ¬ KeysDecode {"nfs:"} := by
  have hsplit : splitKey (partKey "nfs:" "data.txt") = some ("nfs", ":data.txt") := by decide
  refine ⟨by decide, hsplit, fun h => ?_⟩
  have hdecodes := h.decodes "nfs:" rfl "data.txt"
  rw [hsplit] at hdecodes
  revert hdecodes
  decide

end Bytewax
