import CLite.Model.Dirent

/-! # Directory listings

A directory is a list of records, some of which are deleted. A record carries the bounds of its format, so
that every list of records has a layout. The listing that a program sees is a cursor over the live records.
-/

namespace CLite

open ByteMemory

/-- A record of `getdents`; a deleted one has an empty name. -/
structure DirRecord where
  ino : BitVec 32
  name : CString
  padding : List Byte
  short : name.length < 256
  bounded : 9 + name.length + padding.length < 2 ^ 32

namespace DirRecord

def reclen (record : DirRecord) : ℕ := 9 + record.name.length + record.padding.length

def nameBytes (record : DirRecord) : List Byte := record.name.map CChar.byte

/-- The bytes of a record: inode, record length, name with its terminator, padding. -/
def bytes (record : DirRecord) : List Byte :=
  word32 record.ino.toNat ++ (word32 record.reclen ++ (record.nameBytes ++ 0 :: record.padding))

/-- What a program is told of a record. -/
def entry (record : DirRecord) : BitVec 32 × CString := (record.ino, record.name)

theorem bytes_length (record : DirRecord) : record.bytes.length = record.reclen := by
  simp only [bytes, word32, nameBytes, reclen, List.length_append, List.length_cons, List.length_nil,
    List.length_map]
  omega

end DirRecord

/-- The layout of a list of records. -/
def recordBytes (records : List DirRecord) : List Byte := records.flatMap DirRecord.bytes

def recordSize (records : List DirRecord) : ℕ := (records.map DirRecord.reclen).sum

/-- The entries of a directory are the records that are not deleted. -/
def liveEntries (records : List DirRecord) : List (BitVec 32 × CString) :=
  (records.filter fun record => record.name ≠ []).map DirRecord.entry

theorem recordBytes_length (records : List DirRecord) : (recordBytes records).length = recordSize records := by
  induction records with
  | nil => rfl
  | cons record rest ih =>
    rw [recordBytes, List.flatMap_cons, List.length_append, record.bytes_length]
    exact congrArg (record.reclen + ·) ih

theorem recordSize_append (first second : List DirRecord) :
    recordSize (first ++ second) = recordSize first + recordSize second := by
  simp only [recordSize, List.map_append, List.sum_append]

/-- The whole records that `getdents` returns for a request of `size` bytes. -/
def fitting : ℕ → List DirRecord → List DirRecord
  | _, [] => []
  | size, record :: rest =>
    if record.reclen ≤ size then record :: fitting (size - record.reclen) rest else []

/-- The records that are left behind the ones returned. -/
def beyond : ℕ → List DirRecord → List DirRecord
  | _, [] => []
  | size, record :: rest =>
    if record.reclen ≤ size then beyond (size - record.reclen) rest else record :: rest

theorem fitting_append_beyond (size : ℕ) (records : List DirRecord) :
    fitting size records ++ beyond size records = records := by
  induction records generalizing size with
  | nil => rfl
  | cons record rest ih =>
    rw [fitting, beyond]
    split
    · rw [List.cons_append, ih]
    · rfl

theorem liveEntries_split (size : ℕ) (records : List DirRecord) :
    liveEntries records = liveEntries (fitting size records) ++ liveEntries (beyond size records) := by
  conv_lhs => rw [← fitting_append_beyond size records]
  simp only [liveEntries, List.filter_append, List.map_append]

theorem recordSize_fitting (size : ℕ) (records : List DirRecord) :
    recordSize (fitting size records) ≤ size := by
  induction records generalizing size with
  | nil => exact Nat.zero_le _
  | cons record rest ih =>
    rw [fitting]
    split
    · next fits =>
      have later := ih (size - record.reclen)
      simp only [recordSize, List.map_cons, List.sum_cons] at later ⊢
      omega
    · exact Nat.zero_le _

/-- The calls on a directory stream. -/
inductive DirCall where
  | readdir
  | rewinddir

/-- What the calls return when `left` of the listing has not been read: each `readdir` takes the next entry,
or answers that there is none; `rewinddir` starts over. -/
def listing {α : Type*} (whole : List α) : List α → List DirCall → List (Option α)
  | _, [] => []
  | [], .readdir :: calls => none :: listing whole [] calls
  | entry :: left, .readdir :: calls => some entry :: listing whole left calls
  | _, .rewinddir :: calls => listing whole whole calls

end CLite
