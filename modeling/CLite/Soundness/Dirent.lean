import CLite.Spec.DirRecords

/-! # Directory streams list the records they hold

The index of a stream that holds a list of records is the size of the records already passed, so that one
call of `readdir` moves it over the deleted records and the next live one. `opendir` fills the buffer once:
the records that do not fit are never listed.
-/

namespace CLite

open ByteMemory

/-- What a program sees of an entry: the inode and the string in `d_name`. -/
def Dirent.seen (dirent : Dirent) : ℕ × List Byte := (dirent.dIno, dirent.dName.takeWhile (· ≠ 0))

/-- What a program sees of a record. -/
def seenEntry (entry : BitVec 32 × CString) : ℕ × List Byte := (entry.1.toNat, entry.2.map CChar.byte)

/-- The entry that `readdir` makes of a record. -/
def DirRecord.dirent (record : DirRecord) : Dirent :=
  ⟨record.ino.toNat, record.nameBytes ++ List.replicate (256 - record.name.length) 0⟩

theorem takeWhile_nameBytes (name : CString) (count : ℕ) :
    (name.map CChar.byte ++ List.replicate count 0).takeWhile (fun byte => decide (byte ≠ 0)) =
      name.map CChar.byte := by
  induction name with
  | nil => cases count <;> simp [List.replicate_succ]
  | cons c rest ih =>
    rw [List.map_cons, List.cons_append, List.takeWhile_cons_of_pos (by exact decide_eq_true c.nonzero), ih]

theorem DirRecord.dirent_seen (record : DirRecord) : record.dirent.seen = seenEntry record.entry := by
  rw [Dirent.seen, seenEntry, dirent, nameBytes, takeWhile_nameBytes, entry]

theorem strncpy_name (src : ℕ → Byte) {address : ℕ} {memory : Memory} (name : CString)
    (source : ∀ i, src i = memory (address + i)) {after : List Byte}
    (held : Holds memory address (name.map CChar.byte ++ 0 :: after)) {n : ℕ} (room : name.length ≤ n) :
    strncpy src n = name.map CChar.byte ++ List.replicate (n - name.length) 0 := by
  induction name generalizing src address n with
  | nil =>
    cases n with
    | zero => rfl
    | succ n =>
      have stop : src 0 = 0 := (source 0).trans held.1
      rw [strncpy, if_neg (not_not.mpr stop), List.map_nil, List.nil_append, List.length_nil, Nat.sub_zero]
  | cons c rest ih =>
    obtain ⟨n, rfl⟩ : ∃ m, n = m + 1 := Nat.exists_eq_succ_of_ne_zero (by simp at room; omega)
    have first : src 0 = c.byte := (source 0).trans held.1
    have moved : ∀ i, src (i + 1) = memory (address + 1 + i) := by
      intro i
      rw [source (i + 1)]
      congr 1
      omega
    rw [strncpy, if_pos (by rw [first]; exact c.nonzero), first,
      ih _ moved held.2 (by simpa using room), List.map_cons, List.cons_append, List.length_cons,
      Nat.add_sub_add_right]

section Walk

variable {buf : Memory} {pos : ℕ} {record : DirRecord}

theorem holds_record (held : Holds buf pos record.bytes) :
    read32 buf pos = record.ino.toNat ∧ read32 buf (pos + 4) = record.reclen ∧
      Holds buf (pos + 8) (record.nameBytes ++ 0 :: record.padding) := by
  obtain ⟨ino, later⟩ := holds_append.mp held
  obtain ⟨reclen, name⟩ := holds_append.mp later
  exact ⟨ino.read32.trans (Nat.mod_eq_of_lt record.ino.isLt),
    reclen.read32.trans (Nat.mod_eq_of_lt record.bounded), name⟩

/-- One round of the walk, at a record. -/
theorem readdirLoop_record (fuel index : ℕ) {buflen : ℕ} (held : Holds buf pos record.bytes)
    (inside : pos + record.reclen ≤ buflen) (small : buflen ≤ GETDENTS_BUFSZ) :
    readdirLoop buf buflen (fuel + 1) index pos =
      if record.name = [] then readdirLoop buf buflen fuel (pos + record.reclen) (pos + record.reclen)
      else some (pos + record.reclen, some record.dirent) := by
  obtain ⟨ino, reclen, name⟩ := holds_record held
  have positive : 9 ≤ record.reclen := by
    simp only [DirRecord.reclen]
    omega
  simp only [GETDENTS_BUFSZ] at small
  have within : wrap (pos + 8) ≤ buflen := by
    simp only [wrap]
    omega
  have next : wrap (pos + record.reclen) = pos + record.reclen := Nat.mod_eq_of_lt (by omega)
  rw [readdirLoop, if_pos within]
  simp only [ino, reclen, next, Nat.add_zero]
  rw [if_neg (by omega)]
  cases shape : record.name with
  | nil =>
    rw [DirRecord.nameBytes, shape] at name
    rw [if_pos name.1, if_pos rfl]
  | cons c rest =>
    have copied := strncpy_name (fun i => buf (pos + 8 + i)) record.name (fun _ => rfl) name
      (Nat.le_of_lt_succ record.short)
    rw [DirRecord.nameBytes, shape] at name
    have live : ¬buf (pos + 8) = 0 := by
      rw [name.1]
      exact c.nonzero
    have terminated : strncpy (fun i => buf (pos + 8 + i)) 255 ++ [0] = record.dirent.dName := by
      have last : 255 - record.name.length + 1 = 256 - record.name.length := by
        have short := record.short
        omega
      rw [copied, List.append_assoc, ← List.replicate_succ', last]
      rfl
    rw [if_neg live, if_neg (List.cons_ne_nil c rest), terminated]
    rfl

/-- The walk passes the deleted records and stops behind the first live one, or at the end. -/
theorem readdirLoop_records {buflen fuel : ℕ} {records : List DirRecord}
    (held : Holds buf pos (recordBytes records)) (whole : pos + recordSize records = buflen)
    (small : buflen ≤ GETDENTS_BUFSZ) (enough : records.length < fuel) :
    (liveEntries records = [] ∧ readdirLoop buf buflen fuel pos pos = some (buflen, none)) ∨
    ∃ before record left, records = before ++ record :: left ∧
      liveEntries records = record.entry :: liveEntries left ∧
      readdirLoop buf buflen fuel pos pos =
        some (pos + recordSize (before ++ [record]), some record.dirent) := by
  obtain ⟨fuel, rfl⟩ := Nat.exists_eq_succ_of_ne_zero (Nat.ne_zero_of_lt enough)
  induction records generalizing pos fuel with
  | nil =>
    obtain rfl : pos = buflen := whole
    simp only [GETDENTS_BUFSZ] at small
    have outside : ¬wrap (pos + 8) ≤ pos := by
      simp only [wrap]
      omega
    exact .inl ⟨rfl, by rw [readdirLoop, if_neg outside]⟩
  | cons record rest ih =>
    obtain ⟨first, later⟩ := holds_append.mp held
    rw [record.bytes_length] at later
    have sizes : pos + record.reclen + recordSize rest = buflen := by
      rw [← whole, Nat.add_assoc]
      rfl
    have round := readdirLoop_record fuel pos first (by omega) small
    rcases em (record.name = []) with deleted | live
    · obtain ⟨fuel, rfl⟩ := Nat.exists_eq_succ_of_ne_zero (Nat.ne_zero_of_lt (Nat.lt_of_succ_lt_succ enough))
      have same : liveEntries (record :: rest) = liveEntries rest := by simp [liveEntries, deleted]
      rw [if_pos deleted] at round
      rw [round, same]
      rcases ih later sizes fuel (Nat.lt_of_succ_lt_succ enough) with
        ended | ⟨before, found, left, rfl, listed, walked⟩
      · exact .inl ended
      · refine .inr ⟨record :: before, found, left, rfl, listed, ?_⟩
        rw [walked, Nat.add_assoc]
        rfl
    · rw [if_neg live] at round
      refine .inr ⟨[], record, rest, rfl, by simp [liveEntries, live], ?_⟩
      rw [round]
      simp [recordSize]

end Walk

/-! ## Any sequence of calls -/

/-- What the calls of `readdir` return, in order. -/
def runDir : DIR → List DirCall → Option (List (Option Dirent))
  | _, [] => some []
  | dirp, .readdir :: calls => do
    let (found, dirp) ← readdir dirp
    let later ← runDir dirp calls
    return found :: later
  | dirp, .rewinddir :: calls => runDir (rewinddir dirp) calls

/-- The stream holds the records in its buffer. -/
structure DIR.Holding (dirp : DIR) (records : List DirRecord) : Prop where
  small : recordSize records ≤ GETDENTS_BUFSZ
  buflen : dirp.buflen = recordSize records
  buffer : ∃ buf, dirp.buf = some buf ∧ Holds buf 0 (recordBytes records)

/-- The stream holds the records and has still to read the last ones of them. -/
structure DIR.At (dirp : DIR) (records left : List DirRecord) : Prop where
  holding : dirp.Holding records
  position : ∃ passed, records = passed ++ left ∧ dirp.index = recordSize passed

section Calls

variable {dirp : DIR} {records left : List DirRecord}

theorem DirRecord.length_le_recordSize (records : List DirRecord) : records.length ≤ recordSize records := by
  induction records with
  | nil => exact le_refl _
  | cons record rest ih =>
    simp only [recordSize, reclen, List.map_cons, List.sum_cons, List.length_cons] at ih ⊢
    omega

theorem DIR.Holding.start (holding : dirp.Holding records) (first : dirp.index = 0) : dirp.At records records :=
  ⟨holding, [], rfl, first⟩

theorem DIR.At.rewinddir (reading : dirp.At records left) : (CLite.rewinddir dirp).At records records :=
  ⟨⟨reading.holding.small, reading.holding.buflen, reading.holding.buffer⟩, [], rfl, rfl⟩

/-- One `readdir` takes the next live record, or finds none and stays at the end. -/
theorem DIR.At.readdir (reading : dirp.At records left) :
    (liveEntries left = [] ∧ ∃ dirp', CLite.readdir dirp = some (none, dirp') ∧ dirp'.At records []) ∨
    ∃ (record : DirRecord) (left' : List DirRecord) (dirp' : DIR),
      liveEntries left = record.entry :: liveEntries left' ∧
      CLite.readdir dirp = some (some record.dirent, dirp') ∧ dirp'.At records left' := by
  obtain ⟨⟨small, buflen, buf, allocated, held⟩, passed, rfl, index⟩ := reading
  rw [recordBytes, List.flatMap_append] at held
  have ahead := (holds_append.mp held).2
  rw [Nat.zero_add, ← recordBytes, recordBytes_length] at ahead
  have whole := recordSize_append passed left
  have few : left.length < walkFuel := by
    have counted := DirRecord.length_le_recordSize left
    simp only [GETDENTS_BUFSZ] at small
    simp only [walkFuel]
    omega
  rcases readdirLoop_records ahead whole.symm small few with
    ⟨none_left, walked⟩ | ⟨before, record, rest, rfl, listed, walked⟩
  · refine .inl ⟨none_left, { dirp with index := recordSize (passed ++ left) }, ?_, ?_⟩
    · simp only [CLite.readdir, allocated, buflen, index, walked]
    · exact ⟨⟨small, buflen, buf, allocated, by rwa [recordBytes, List.flatMap_append]⟩, passed ++ left,
        by rw [List.append_nil], rfl⟩
  · refine .inr ⟨record, rest, { dirp with
      index := recordSize passed + recordSize (before ++ [record]), entry := record.dirent }, listed, ?_, ?_⟩
    · simp only [CLite.readdir, allocated, buflen, index, walked]
    · exact ⟨⟨small, buflen, buf, allocated, by rwa [recordBytes, List.flatMap_append]⟩,
        passed ++ (before ++ [record]), by simp, (recordSize_append _ _).symm⟩

/-- From any position, the calls return what is left of the listing, and the whole of it after a rewind. -/
theorem DIR.At.runDir (reading : dirp.At records left) (calls : List DirCall) :
    ∃ returned, runDir dirp calls = some returned ∧ returned.map (Option.map Dirent.seen) =
      listing ((liveEntries records).map seenEntry) ((liveEntries left).map seenEntry) calls := by
  induction calls generalizing dirp left with
  | nil =>
    refine ⟨[], rfl, ?_⟩
    rw [listing]
    rfl
  | cons call calls ih =>
    cases call with
    | rewinddir =>
      obtain ⟨returned, ran, same⟩ := ih reading.rewinddir
      exact ⟨returned, ran, by rw [same, listing]⟩
    | readdir =>
      rcases reading.readdir with ⟨none_left, dirp', found, next⟩ | ⟨record, rest, dirp', listed, found, next⟩
      · obtain ⟨returned, ran, same⟩ := ih next
        refine ⟨none :: returned, by simp [CLite.runDir, found, ran], ?_⟩
        rw [List.map_cons, same, none_left]
        rfl
      · obtain ⟨returned, ran, same⟩ := ih next
        refine ⟨some record.dirent :: returned, by simp [CLite.runDir, found, ran], ?_⟩
        rw [List.map_cons, same, listed, List.map_cons, listing, Option.map_some, record.dirent_seen]

/-- On a stream that holds the records, every sequence of calls returns the entries in order, then a null
pointer until the next rewind, after which the entries come again from the first one. -/
theorem runDir_listing (holding : dirp.Holding records) (first : dirp.index = 0) (calls : List DirCall) :
    ∃ returned, runDir dirp calls = some returned ∧ returned.map (Option.map Dirent.seen) =
      listing ((liveEntries records).map seenEntry) ((liveEntries records).map seenEntry) calls :=
  (holding.start first).runDir calls

/-- Two files with a deleted record between them. -/
def threeRecords : List DirRecord :=
  [⟨2, [chr 'a', chr 'b'], [0], by decide, by decide⟩, ⟨0, [], [], by decide, by decide⟩,
    ⟨7, [chr 'c'], [], by decide, by decide⟩]

theorem runDir_threeRecords :
    ∃ dirp : DIR, (dirp.Holding threeRecords ∧ dirp.index = 0) ∧
      ∃ returned, runDir dirp [.readdir, .readdir, .readdir, .rewinddir, .readdir] = some returned ∧
        returned.map (Option.map Dirent.seen) =
          [some (2, [97, 98]), some (7, [99]), none, some (2, [97, 98])] := by
  have holding : (⟨3, 0, 31, some (overlay (fun _ => 0) (recordBytes threeRecords)), [], ⟨0, []⟩⟩ : DIR).Holding
      threeRecords := ⟨by decide, rfl, _, rfl, holds_overlay _ _⟩
  obtain ⟨returned, ran, same⟩ :=
    runDir_listing holding rfl [.readdir, .readdir, .readdir, .rewinddir, .readdir]
  exact ⟨_, ⟨holding, rfl⟩, returned, ran, same⟩

end Calls

/-! ## A whole listing -/

/-- Call `readdir` until it returns a null pointer; the entries found. -/
def readUntilNull : ℕ → DIR → Option (List Dirent)
  | 0, _ => none
  | fuel + 1, dirp =>
    match readdir dirp with
    | none => none
    | some (none, _) => some []
    | some (some entry, dirp) => (readUntilNull fuel dirp).map (entry :: ·)

/-- `getdents` serves the records of the directory: as many whole ones as fit. -/
def DirSystem.Serves (system : DirSystem) (records : List DirRecord) : Prop :=
  ∀ size, system.getdents size = ((recordSize (fitting size records) : ℤ), recordBytes (fitting size records))

/-- Reading the stream to its end yields each entry of the directory exactly once. -/
def DIR.ListsAll (dirp : DIR) (records : List DirRecord) : Prop :=
  ∃ fuel found, readUntilNull fuel dirp = some found ∧
    (found.map Dirent.seen).Perm ((liveEntries records).map seenEntry)

section Listing

variable {dirp : DIR} {system : DirSystem} {name : CString} {records left : List DirRecord}

theorem readUntilNull_mono {fuel more : ℕ} {found : List Dirent}
    (ended : readUntilNull fuel dirp = some found) (enough : fuel ≤ more) :
    readUntilNull more dirp = some found := by
  induction fuel generalizing more dirp found with
  | zero => cases ended
  | succ fuel ih =>
    obtain ⟨more, rfl⟩ : ∃ n, more = n + 1 := Nat.exists_eq_succ_of_ne_zero (by omega)
    rw [readUntilNull] at ended ⊢
    split at ended
    · exact ended
    · exact ended
    · next entry dirp' _ =>
      obtain ⟨later, read, rfl⟩ := Option.map_eq_some_iff.mp ended
      exact Option.map_eq_some_iff.mpr ⟨later, ih read (by omega), rfl⟩

theorem DIR.At.readUntilNull (reading : dirp.At records left) :
    ∃ fuel found, readUntilNull fuel dirp = some found ∧
      found.map Dirent.seen = (liveEntries left).map seenEntry := by
  generalize remaining : liveEntries left = list
  induction list generalizing dirp left with
  | nil =>
    rcases reading.readdir with ⟨_, dirp', found, _⟩ | ⟨record, rest, dirp', listed, _⟩
    · exact ⟨1, [], by simp only [CLite.readUntilNull, found], rfl⟩
    · cases remaining.symm.trans listed
  | cons entry list ih =>
    rcases reading.readdir with ⟨none_left, _⟩ | ⟨record, rest, dirp', listed, found, next⟩
    · cases remaining.symm.trans none_left
    · obtain ⟨rfl, rest_eq⟩ := List.cons.inj (remaining.symm.trans listed)
      obtain ⟨fuel, later, read, same⟩ := ih next rest_eq.symm
      refine ⟨fuel + 1, record.dirent :: later, by simp only [CLite.readUntilNull, found, read]; rfl, ?_⟩
      rw [List.map_cons, same, List.map_cons, record.dirent_seen]

/-- The records that `opendir` puts into the buffer. -/
def DirSystem.filled (system : DirSystem) (records : List DirRecord) : List DirRecord :=
  if system.buffer.isSome then fitting GETDENTS_BUFSZ records else []

theorem opendir_readUntilNull (serves : system.Serves records) (opened : opendir system name = some dirp) :
    ∃ fuel found, readUntilNull fuel dirp = some found ∧
      found.map Dirent.seen = (liveEntries (system.filled records)).map seenEntry := by
  simp only [opendir, serves GETDENTS_BUFSZ] at opened
  split at opened
  · cases opened
  · split at opened
    · cases opened
    · split at opened
      · next unallocated =>
        cases opened
        exact ⟨1, [], rfl, by simp [DirSystem.filled, unallocated, liveEntries]⟩
      · next buf allocated =>
        cases opened
        have filled : system.filled records = fitting GETDENTS_BUFSZ records := by
          simp [DirSystem.filled, allocated]
        rw [filled]
        refine DIR.At.readUntilNull (DIR.Holding.start ⟨recordSize_fitting _ _, ?_, _, rfl, holds_overlay _ _⟩ rfl)
        dsimp only
        split <;> omega

theorem filled_front (system : DirSystem) (records : List DirRecord) :
    liveEntries (system.filled records) <+: liveEntries records := by
  rw [liveEntries_split GETDENTS_BUFSZ records, DirSystem.filled]
  split
  · exact List.prefix_append _ _
  · exact List.nil_prefix

theorem listsAll_iff_filled (serves : system.Serves records) (opened : opendir system name = some dirp) :
    dirp.ListsAll records ↔ (liveEntries (system.filled records)).length = (liveEntries records).length := by
  obtain ⟨fuel, found, read, same⟩ := opendir_readUntilNull serves opened
  constructor
  · rintro ⟨other, found', read', listed⟩
    have again := (readUntilNull_mono read (le_max_left fuel other)).symm.trans
      (readUntilNull_mono read' (le_max_right fuel other))
    cases again
    rw [same] at listed
    simpa using listed.length_eq
  · intro count
    refine ⟨fuel, found, read, ?_⟩
    rw [same]
    rw [(filled_front system records).eq_of_length count]

/-- Listing an opened directory to its end yields every entry exactly when the buffer could be allocated and
no live record lies beyond the first 4096 bytes of whole records, or there are no entries at all. -/
theorem listsAll_iff (serves : system.Serves records) (opened : opendir system name = some dirp) :
    dirp.ListsAll records ↔
      (system.buffer.isSome ∧ liveEntries (beyond GETDENTS_BUFSZ records) = []) ∨ liveEntries records = [] := by
  rw [listsAll_iff_filled serves opened, DirSystem.filled]
  split
  · next allocated =>
    rw [liveEntries_split GETDENTS_BUFSZ records, List.length_append, ← List.length_eq_zero_iff,
      ← List.length_eq_zero_iff, List.length_append]
    constructor
    · intro count
      exact .inl ⟨allocated, by omega⟩
    · rintro (⟨_, none_beyond⟩ | none_at_all) <;> omega
  · next unallocated =>
    rw [← List.length_eq_zero_iff (l := liveEntries records)]
    constructor
    · intro count
      exact .inr count.symm
    · rintro (⟨allocated, _⟩ | none_at_all)
      · exact absurd allocated unallocated
      · exact none_at_all.symm

/-- A system in which everything can be allocated and `getdents` serves the records. -/
def servingSystem (records : List DirRecord) : DirSystem :=
  ⟨3, some ⟨0, []⟩, some fun _ => 0,
    fun size => (recordSize (fitting size records), recordBytes (fitting size records))⟩

theorem servingSystem_serves (records : List DirRecord) : (servingSystem records).Serves records := fun _ => rfl

theorem listsAll_iff_threeRecords :
    ∃ dirp, opendir (servingSystem threeRecords) [chr '/'] = some dirp ∧ dirp.ListsAll threeRecords := by
  refine ⟨_, rfl, (listsAll_iff (servingSystem_serves threeRecords) rfl).mpr (.inl ⟨rfl, by decide⟩)⟩

/-- A file with a name of two letters; its record has 16 bytes. -/
def smallFile (index : ℕ) : DirRecord :=
  ⟨BitVec.ofNat 32 (index + 1), [chr (Char.ofNat (97 + index / 26)), chr (Char.ofNat (97 + index % 26))],
    List.replicate 5 0, by simp, by simp⟩

/-- Of 257 files, the last one is not listed. -/
theorem last_file_not_listed :
    ∃ dirp, opendir (servingSystem ((List.range 257).map smallFile)) [chr '/'] = some dirp ∧
      ¬dirp.ListsAll ((List.range 257).map smallFile) := by
  refine ⟨_, rfl, ?_⟩
  rw [listsAll_iff_filled (servingSystem_serves _) (show opendir _ [chr '/'] = _ from rfl)]
  decide +kernel

end Listing

end CLite
