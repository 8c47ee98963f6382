import CLite.Soundness.Dirent
import CLite.Spec.GlobPaths

/-! # The directories that `glob` reads

`glob` reads a directory with `opendir` and `readdir`. A kernel that serves the records of its directories makes a
file system as `glob` sees it: for each path, the names that `readdir` returns for it one after another.
-/

namespace CLite

/-- Directories that the kernel serves, and what `stat` and `lstat` say about a path. `system` is what `opendir` gets
for a path, its memory included. -/
structure Disk where
  records : CString → List DirRecord
  system : CString → DirSystem
  stat : CString → Option FileKind
  lstat : CString → Option FileKind
  serves : ∀ path, (system path).Serves (records path)
  names_distinct : ∀ path, ((liveEntries (records path)).map Prod.snd).Nodup
  names_plain : ∀ path, ∀ entry ∈ liveEntries (records path), chr '/' ∉ entry.2
  stat_of_lstat : ∀ path, lstat path = some .directory → stat path = some .directory
  stat_slash : ∀ path, stat path = some .directory → stat (path ++ [chr '/']) = some .directory

namespace Disk

variable (disk : Disk)

/-- The names of the live records that are in the buffer of an opened directory. -/
def names (path : CString) : List CString :=
  (liveEntries ((disk.system path).filled (disk.records path))).map Prod.snd

theorem names_front (path : CString) : disk.names path <+: (liveEntries (disk.records path)).map Prod.snd :=
  (filled_front _ _).map Prod.snd

/-- The file system that `glob` finds on the disk. -/
def fileSystem : FileSystem where
  opendir path := (opendir (disk.system path) path).map fun _ => disk.names path
  stat := disk.stat
  lstat := disk.lstat
  names_distinct path names listed := by
    obtain ⟨dirp, -, rfl⟩ := Option.map_eq_some_iff.mp listed
    exact (disk.names_distinct path).sublist (disk.names_front path).sublist
  names_plain path names listed name member := by
    obtain ⟨dirp, -, rfl⟩ := Option.map_eq_some_iff.mp listed
    obtain ⟨entry, found, rfl⟩ := List.mem_map.mp ((disk.names_front path).subset member)
    exact disk.names_plain path entry found
  stat_of_lstat := disk.stat_of_lstat
  stat_slash := disk.stat_slash

/-- The path by which `glob` opens a directory. -/
def openedPath (dir : CString) : CString := if dir = [] then [chr '.'] else dir

/-- `glob` considers in a directory the names that `readdir` returns for it, in their order, and none if it cannot be
opened. -/
theorem entries_fileSystem (dir : CString) :
    (opendir (disk.system (openedPath dir)) (openedPath dir) = none → entries disk.fileSystem dir = []) ∧
      ∀ dirp, opendir (disk.system (openedPath dir)) (openedPath dir) = some dirp →
        ∃ fuel found, readUntilNull fuel dirp = some found ∧
          found.map (fun entry => entry.seen.2) = (entries disk.fileSystem dir).map (List.map CChar.byte) := by
  have listed : entries disk.fileSystem dir = ((opendir (disk.system (openedPath dir)) (openedPath dir)).map
      fun _ => disk.names (openedPath dir)).getD [] := rfl
  constructor
  · intro refused
    rw [listed, refused]
    rfl
  · intro dirp opened
    obtain ⟨fuel, found, read, same⟩ := opendir_readUntilNull (disk.serves _) opened
    refine ⟨fuel, found, read, ?_⟩
    have seen := congrArg (List.map Prod.snd) same
    rw [List.map_map, List.map_map] at seen
    rw [listed, opened, Option.map_some, Option.getD_some, names, List.map_map]
    exact seen

end Disk

/-- A record without padding; a name that is too long is cut. -/
def namedRecord (ino : BitVec 32) (name : CString) : DirRecord where
  ino := ino
  name := name.take 255
  padding := []
  short := Nat.lt_succ_of_le (List.length_take_le 255 name)
  bounded := by
    have short := List.length_take_le 255 name
    rw [List.length_nil]
    omega

/-- The directories of `twoLevels`; a file has been deleted from the second one. -/
def levelRecords (path : CString) : List DirRecord :=
  if path = [chr '.'] then [namedRecord 2 [chr 'd']]
  else if path = [chr 'd'] then
    [namedRecord 2 [chr '.'], namedRecord 1 [chr '.', chr '.'], namedRecord 3 [chr 'b'], namedRecord 0 [],
      namedRecord 4 [chr '.', chr 'h'], namedRecord 5 [chr 'a']]
  else []

def levelDisk : Disk where
  records := levelRecords
  system path := { servingSystem (levelRecords path) with
    openFd := if path = [chr '.'] ∨ path = [chr 'd'] then 3 else -1 }
  stat := twoLevels.stat
  lstat := twoLevels.lstat
  serves path := servingSystem_serves _
  names_distinct path := by
    rw [levelRecords]
    split_ifs <;> decide
  names_plain path := by
    rw [levelRecords]
    split_ifs <;> decide
  stat_of_lstat := twoLevels.stat_of_lstat
  stat_slash := twoLevels.stat_slash

example : levelDisk.fileSystem = twoLevels := by
  have listed : levelDisk.fileSystem.opendir = twoLevels.opendir := by
    funext path
    by_cases current : path = [chr '.']
    · rw [current]
      decide +kernel
    by_cases below : path = [chr 'd']
    · rw [below]
      decide +kernel
    simp [Disk.fileSystem, levelDisk, opendir, twoLevels, current, below]
  rw [Disk.fileSystem] at listed ⊢
  congr

end CLite
