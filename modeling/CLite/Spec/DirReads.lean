import CLite.Lib.LoopTrace
import CLite.Model.Dirent

/-! # What `readdir` reads

The offsets in the buffer that a call reads, listed along the walk of `readdir`: eight bytes of a header, the first
byte of a name, and the bytes that `strncpy` reads of it. Beside them stands what the records of a buffer must be so
that the walk stays inside and comes to an end: each record length, with the wrapping of `unsigned int`, leads from
one record to the next.
-/

namespace CLite

open ByteMemory LoopTrace

/-- The offsets of the bytes that `strncpy` reads, if the first one is at `offset`. -/
def strncpyReads (src : ℕ → Byte) (offset : ℕ) : ℕ → List ℕ
  | 0 => []
  | n + 1 => offset :: if src 0 ≠ 0 then strncpyReads (fun i => src (i + 1)) (offset + 1) n else []

/-- The offsets that `readdir` reads in one round. -/
def recordReads (buf : Memory) (buflen pos : ℕ) : List ℕ :=
  if wrap (pos + 8) ≤ buflen then
    let reclen := read32 buf (pos + 4)
    let name := fun i => buf (pos + 8 + i)
    (List.range 8).map (pos + ·) ++
      if reclen = 0 then [] else (pos + 8) :: if name 0 = 0 then [] else strncpyReads name (pos + 8) 255
  else []

/-- The offsets that the walk of `readdir` reads from `pos` on. -/
def readdirReads (buf : Memory) (buflen : ℕ) : ℕ → ℕ → List ℕ
  | 0, _ => []
  | fuel + 1, pos =>
    recordReads buf buflen pos ++
      if wrap (pos + 8) ≤ buflen ∧ read32 buf (pos + 4) ≠ 0 ∧ buf (pos + 8) = 0 then
        readdirReads buf buflen fuel (wrap (pos + read32 buf (pos + 4)))
      else []

/-- The offsets that a call reads. -/
def DIR.reads (dirp : DIR) : List ℕ :=
  match dirp.buf with
  | none => []
  | some buf => readdirReads buf dirp.buflen walkFuel dirp.index

/-- The stream after a number of calls of `readdir`. -/
def afterReads : ℕ → DIR → Option DIR
  | 0, dirp => some dirp
  | calls + 1, dirp => (readdir dirp).bind fun result => afterReads calls result.2

/-- Every call returns and reads only below `buflen`, and after at most `buflen` calls one returns a null pointer. -/
def WalksSafely (dirp : DIR) : Prop :=
  (∀ calls, ∃ st, afterReads calls dirp = some st ∧ (readdir st).isSome = true ∧
    ∀ offset ∈ st.reads, offset < dirp.buflen) ∧
  ∃ calls ≤ dirp.buflen, ∃ st next, afterReads calls dirp = some st ∧ readdir st = some (none, next)

/-- The record behind the one at `pos`, if the header at `pos` is looked at and has a length. -/
def follow (buf : Memory) (buflen pos : ℕ) : Option ℕ :=
  if wrap (pos + 8) ≤ buflen ∧ read32 buf (pos + 4) ≠ 0 then some (wrap (pos + read32 buf (pos + 4))) else none

/-- A header that is looked at lies in the buffer, and so does the end of the name behind it or its first 255
bytes. -/
structure RecordInside (buf : Memory) (buflen pos : ℕ) : Prop where
  header : wrap (pos + 8) ≤ buflen → pos + 8 ≤ buflen
  name : wrap (pos + 8) ≤ buflen → read32 buf (pos + 4) ≠ 0 →
    (∃ i < 255, pos + 8 + i < buflen ∧ buf (pos + 8 + i) = 0) ∨ pos + 8 + 255 ≤ buflen

/-- The records that follow one another from the start of the buffer lie inside it, and none leads back to itself. -/
structure RecordsSound (buf : Memory) (buflen : ℕ) : Prop where
  inside : ∀ pos, Relation.ReflTransGen (Next (follow buf buflen)) 0 pos → RecordInside buf buflen pos
  forward : ∀ pos, Relation.ReflTransGen (Next (follow buf buflen)) 0 pos →
    ¬ Relation.TransGen (Next (follow buf buflen)) pos pos

end CLite
