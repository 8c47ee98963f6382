import CLite.Spec.DirReads

/-! # `readdir` on any buffer

The only record length that `readdir` guards against is zero. A length that wraps leads back to an earlier record,
so that a call or the listing need not come to an end; the test of a header wraps as well, so that a header is read
behind the buffer; and nothing bounds the name. In a buffer whose records are free of this, every call stays inside
and the listing ends.
-/

namespace CLite

open ByteMemory LoopTrace

section Rounds

variable {buf : Memory} {buflen pos next fuel index : ℕ}

/-- The bytes read of a name are inside exactly if its end is, or as many bytes as `strncpy` copies. -/
theorem strncpyReads_inside {src : ℕ → Byte} {offset n limit : ℕ} (start : offset ≤ limit) :
    (∀ o ∈ strncpyReads src offset n, o < limit) ↔
      (∃ i < n, offset + i < limit ∧ src i = 0) ∨ offset + n ≤ limit := by
  induction n generalizing src offset with
  | zero => simpa [strncpyReads] using start
  | succ n ih =>
    rw [strncpyReads, List.forall_mem_cons]
    constructor
    · rintro ⟨first, later⟩
      by_cases ended : src 0 = 0
      · exact .inl ⟨0, Nat.succ_pos n, first, ended⟩
      · rw [if_pos ended] at later
        rcases (ih first).mp later with ⟨i, below, inside, zero⟩ | whole
        · exact .inl ⟨i + 1, Nat.succ_lt_succ below, by omega, zero⟩
        · exact .inr (by omega)
    · intro bounded
      have first : offset < limit := by
        rcases bounded with ⟨i, -, inside, -⟩ | whole <;> omega
      refine ⟨first, ?_⟩
      split
      · next more =>
        refine (ih first).mpr ?_
        rcases bounded with ⟨_ | i, below, inside, zero⟩ | whole
        · exact absurd zero more
        · exact .inl ⟨i, Nat.lt_of_succ_lt_succ below, by omega, zero⟩
        · exact .inr (by omega)
      · exact nofun

/-- What is read of the name at `start`: its first byte, and more of it unless that ends the name. -/
theorem nameReads_inside {start : ℕ} (inside : start ≤ buflen) :
    (start < buflen ∧ ∀ offset ∈ if buf (start + 0) = 0 then []
      else strncpyReads (fun i => buf (start + i)) start 255, offset < buflen) ↔
      (∃ i < 255, start + i < buflen ∧ buf (start + i) = 0) ∨ start + 255 ≤ buflen := by
  have first (ends : (∃ i < 255, start + i < buflen ∧ buf (start + i) = 0) ∨ start + 255 ≤ buflen) :
      start < buflen := by
    rcases ends with ⟨i, -, below, -⟩ | whole <;> omega
  split
  · next zero =>
    exact ⟨fun reads => .inl ⟨0, by decide, reads.1, zero⟩, fun ends => ⟨first ends, nofun⟩⟩
  · rw [strncpyReads_inside inside]
    exact ⟨And.right, fun ends => ⟨first ends, ends⟩⟩

/-- A round reads only inside the buffer exactly if the record does not reach out of it. -/
theorem recordReads_inside (buf : Memory) (buflen pos : ℕ) :
    (∀ offset ∈ recordReads buf buflen pos, offset < buflen) ↔ RecordInside buf buflen pos := by
  unfold recordReads
  by_cases looked : wrap (pos + 8) ≤ buflen
  · have header : (∀ offset ∈ (List.range 8).map (pos + ·), offset < buflen) ↔ pos + 8 ≤ buflen := by
      simp only [List.forall_mem_map, List.mem_range]
      exact ⟨fun each => each 7 (by decide), fun whole i below => by omega⟩
    rw [if_pos looked]
    dsimp only
    rw [List.forall_mem_append, header]
    by_cases empty : read32 buf (pos + 4) = 0
    · rw [if_pos empty]
      constructor
      · exact fun reads => ⟨fun _ => reads.1, fun _ some => absurd empty some⟩
      · exact fun sound => ⟨sound.header looked, nofun⟩
    · rw [if_neg empty, List.forall_mem_cons]
      constructor
      · rintro ⟨whole, reads⟩
        exact ⟨fun _ => whole, fun _ _ => (nameReads_inside whole).mp reads⟩
      · rintro ⟨whole, ends⟩
        exact ⟨whole looked, (nameReads_inside (whole looked)).mpr (ends looked empty)⟩
  · rw [if_neg looked]
    exact ⟨fun _ => ⟨fun test => absurd test looked, fun test => absurd test looked⟩, fun _ => nofun⟩

theorem follow_eq_some : follow buf buflen pos = some next ↔
    wrap (pos + 8) ≤ buflen ∧ read32 buf (pos + 4) ≠ 0 ∧ wrap (pos + read32 buf (pos + 4)) = next := by
  unfold follow
  split
  · next both => simp [both]
  · next missing => simpa using fun looked present => absurd ⟨looked, present⟩ missing

theorem readdirLoop_stop (fuel index : ℕ) (stopped : follow buf buflen pos = none) :
    readdirLoop buf buflen (fuel + 1) index pos = some (index, none) ∧
      readdirReads buf buflen (fuel + 1) pos = recordReads buf buflen pos := by
  have missing : ¬ (wrap (pos + 8) ≤ buflen ∧ read32 buf (pos + 4) ≠ 0) := by
    intro both
    rw [follow, if_pos both] at stopped
    cases stopped
  refine ⟨?_, ?_⟩
  · rw [readdirLoop]
    split
    · next looked =>
      dsimp only
      rw [if_pos (not_not.mp fun present => missing ⟨looked, present⟩)]
    · rfl
  · rw [readdirReads, if_neg fun all => missing ⟨all.1, all.2.1⟩, List.append_nil]

/-- A deleted record is passed over. -/
theorem readdirLoop_deleted (fuel index : ℕ) (followed : follow buf buflen pos = some next)
    (deleted : buf (pos + 8) = 0) :
    readdirLoop buf buflen (fuel + 1) index pos = readdirLoop buf buflen fuel next next ∧
      readdirReads buf buflen (fuel + 1) pos = recordReads buf buflen pos ++ readdirReads buf buflen fuel next := by
  obtain ⟨looked, present, rfl⟩ := follow_eq_some.mp followed
  refine ⟨?_, ?_⟩
  · rw [readdirLoop, if_pos looked]
    dsimp only
    rw [if_neg present, Nat.add_zero, if_pos deleted]
  · rw [readdirReads, if_pos ⟨looked, present, deleted⟩]

/-- The name of another record is copied, and the walk ends there. -/
theorem readdirLoop_live (fuel index : ℕ) (followed : follow buf buflen pos = some next)
    (live : buf (pos + 8) ≠ 0) :
    (∃ entry, readdirLoop buf buflen (fuel + 1) index pos = some (next, some entry)) ∧
      readdirReads buf buflen (fuel + 1) pos = recordReads buf buflen pos := by
  obtain ⟨looked, present, rfl⟩ := follow_eq_some.mp followed
  refine ⟨?_, ?_⟩
  · rw [readdirLoop, if_pos looked]
    dsimp only
    rw [if_neg present, Nat.add_zero, if_neg live]
    exact ⟨_, rfl⟩
  · rw [readdirReads, if_neg fun all => live all.2.2, List.append_nil]

end Rounds

section Calls

variable {buf : Memory} {buflen pos fuel last : ℕ} {found : Option Dirent}

/-- A walk that returns and reads inside the buffer goes along sound records. -/
theorem walk_of_readdirLoop (returned : readdirLoop buf buflen fuel pos pos = some (last, found))
    (inside : ∀ offset ∈ readdirReads buf buflen fuel pos, offset < buflen) :
    ∃ visited, (∀ p ∈ visited, RecordInside buf buflen p) ∧
      (∀ trace, Trace (follow buf buflen) last trace → Trace (follow buf buflen) pos (visited ++ trace)) ∧
      (found = none → follow buf buflen last = none ∧ RecordInside buf buflen last) := by
  induction fuel generalizing pos with
  | zero => cases returned
  | succ fuel ih =>
    cases followed : follow buf buflen pos with
    | none =>
      obtain ⟨loop, reads⟩ := readdirLoop_stop fuel pos followed
      rw [loop, Option.some.injEq, Prod.mk.injEq] at returned
      obtain ⟨rfl, rfl⟩ := returned
      rw [reads, recordReads_inside] at inside
      exact ⟨[], nofun, fun _ => id, fun _ => ⟨followed, inside⟩⟩
    | some next =>
      by_cases deleted : buf (pos + 8) = 0
      · obtain ⟨loop, reads⟩ := readdirLoop_deleted fuel pos followed deleted
        rw [loop] at returned
        rw [reads, List.forall_mem_append, recordReads_inside] at inside
        obtain ⟨visited, sound, onward, ended⟩ := ih returned inside.2
        refine ⟨pos :: visited, List.forall_mem_cons.mpr ⟨inside.1, sound⟩, ?_, ended⟩
        intro trace later
        exact .next followed (onward trace later)
      · obtain ⟨⟨entry, loop⟩, reads⟩ := readdirLoop_live fuel pos followed deleted
        rw [loop, Option.some.injEq, Prod.mk.injEq] at returned
        obtain ⟨rfl, rfl⟩ := returned
        rw [reads, recordReads_inside] at inside
        exact ⟨[pos], by simpa using inside, fun trace later => .next followed later, nofun⟩

/-- Along sound records a walk returns and reads inside the buffer, and an entry leaves fewer records. -/
theorem readdirLoop_of_walk {trace : List ℕ} (walk : Trace (follow buf buflen) pos trace)
    (sound : ∀ p ∈ trace, RecordInside buf buflen p) (enough : trace.length ≤ fuel) :
    ∃ last found rest, readdirLoop buf buflen fuel pos pos = some (last, found) ∧
      (∀ offset ∈ readdirReads buf buflen fuel pos, offset < buflen) ∧
      Trace (follow buf buflen) last rest ∧ rest <:+ trace ∧ (found ≠ none → rest.length < trace.length) := by
  induction walk generalizing fuel with
  | @stop pos stopped =>
    obtain ⟨fuel, rfl⟩ : ∃ more, fuel = more + 1 := Nat.exists_eq_add_of_le' enough
    obtain ⟨loop, reads⟩ := readdirLoop_stop fuel pos stopped
    refine ⟨pos, none, [pos], loop, ?_, .stop stopped, List.suffix_rfl, fun some => absurd rfl some⟩
    rw [reads, recordReads_inside]
    exact sound pos (List.mem_singleton_self pos)
  | @next pos next trace followed later ih =>
    obtain ⟨here, others⟩ := List.forall_mem_cons.mp sound
    rw [List.length_cons] at enough
    obtain ⟨fuel, rfl⟩ : ∃ more, fuel = more + 1 := Nat.exists_eq_add_of_le' (Nat.le_of_add_left_le enough)
    by_cases deleted : buf (pos + 8) = 0
    · obtain ⟨loop, reads⟩ := readdirLoop_deleted fuel pos followed deleted
      obtain ⟨last, found, rest, returned, inside, onward, ending, fewer⟩ := ih others (Nat.le_of_succ_le_succ enough)
      refine ⟨last, found, rest, loop.trans returned, ?_, onward, ending.trans (List.suffix_cons ..), ?_⟩
      · rw [reads, List.forall_mem_append, recordReads_inside]
        exact ⟨here, inside⟩
      · intro some
        exact Nat.lt_succ_of_lt (fewer some)
    · obtain ⟨⟨entry, loop⟩, reads⟩ := readdirLoop_live fuel pos followed deleted
      refine ⟨next, some entry, trace, loop, ?_, later, List.suffix_cons .., fun _ => Nat.lt_succ_self _⟩
      rw [reads, recordReads_inside]
      exact here

end Calls

section Streams

variable {buf : Memory} {dirp st next : DIR} {found : Option Dirent} {trace : List ℕ}

theorem readdir_loop (held : dirp.buf = some buf) (returned : readdir dirp = some (found, next)) :
    readdirLoop buf dirp.buflen walkFuel dirp.index dirp.index = some (next.index, found) ∧
      next.buf = some buf ∧ next.buflen = dirp.buflen := by
  rw [readdir, held] at returned
  dsimp only at returned
  split at returned
  · cases returned
  · next loop =>
    cases returned
    exact ⟨loop, rfl, rfl⟩
  · next loop =>
    cases returned
    exact ⟨loop, rfl, rfl⟩

theorem readdir_isSome (held : dirp.buf = some buf) {last : ℕ}
    (loop : readdirLoop buf dirp.buflen walkFuel dirp.index dirp.index = some (last, found)) :
    ∃ next, readdir dirp = some (found, next) := by
  rw [readdir, held]
  dsimp only
  rw [loop]
  cases found <;> exact ⟨_, rfl⟩

theorem DIR.reads_eq (held : dirp.buf = some buf) :
    dirp.reads = readdirReads buf dirp.buflen walkFuel dirp.index := by
  rw [DIR.reads, held]

theorem afterReads_succ {calls : ℕ} (returned : readdir dirp = some (found, next)) :
    afterReads (calls + 1) dirp = afterReads calls next := by
  rw [afterReads, returned, Option.bind_some]

/-- Calls that read inside the buffer up to a null pointer go along sound records that come to an end. -/
theorem walk_of_calls (held : dirp.buf = some buf)
    (safe : ∀ calls, ∃ st, afterReads calls dirp = some st ∧ (readdir st).isSome = true ∧
      ∀ offset ∈ st.reads, offset < dirp.buflen)
    {calls : ℕ} (run : afterReads calls dirp = some st) (null : readdir st = some (none, next)) :
    ∃ trace, Trace (follow buf dirp.buflen) dirp.index trace ∧ ∀ p ∈ trace, RecordInside buf dirp.buflen p := by
  induction calls generalizing dirp with
  | zero =>
    obtain rfl : dirp = st := Option.some.inj run
    obtain ⟨_, same, -, inside⟩ := safe 0
    obtain rfl : dirp = _ := Option.some.inj same
    rw [DIR.reads_eq held] at inside
    obtain ⟨visited, sound, onward, ended⟩ := walk_of_readdirLoop (readdir_loop held null).1 inside
    obtain ⟨stopped, last⟩ := ended rfl
    refine ⟨visited ++ [next.index], onward _ (.stop stopped), ?_⟩
    rw [List.forall_mem_append]
    exact ⟨sound, by simpa using last⟩
  | succ calls ih =>
    -- The first call goes along the records that it visits, and the others go on from the index it leaves.
    obtain ⟨_, same, returns, inside⟩ := safe 0
    obtain rfl : dirp = _ := Option.some.inj same
    obtain ⟨⟨found, middle⟩, returned⟩ := Option.isSome_iff_exists.mp returns
    obtain ⟨loop, held', length⟩ := readdir_loop held returned
    rw [DIR.reads_eq held] at inside
    obtain ⟨visited, sound, onward, -⟩ := walk_of_readdirLoop loop inside
    rw [afterReads_succ returned] at run
    obtain ⟨trace, later, others⟩ := ih held'
      (fun calls => by rw [← afterReads_succ returned, length]; exact safe (calls + 1)) run
    rw [length] at later others
    refine ⟨visited ++ trace, onward trace later, ?_⟩
    rw [List.forall_mem_append]
    exact ⟨sound, others⟩

/-- The stream is somewhere along sound records that come to an end. -/
structure DIR.Along (buf : Memory) (buflen : ℕ) (trace : List ℕ) (dirp : DIR) : Prop where
  held : dirp.buf = some buf
  length : dirp.buflen = buflen
  walk : Trace (follow buf buflen) dirp.index trace
  sound : ∀ p ∈ trace, RecordInside buf buflen p
  enough : trace.length ≤ walkFuel

/-- A call returns, reads inside the buffer and keeps the stream along its records. -/
theorem DIR.Along.readdir {buflen : ℕ} (along : dirp.Along buf buflen trace) :
    ∃ found next rest, CLite.readdir dirp = some (found, next) ∧ (∀ offset ∈ dirp.reads, offset < buflen) ∧
      next.Along buf buflen rest ∧ (found ≠ none → rest.length < trace.length) := by
  obtain ⟨held, rfl, walk, sound, enough⟩ := along
  obtain ⟨last, found, rest, loop, inside, onward, ending, fewer⟩ := readdirLoop_of_walk walk sound enough
  obtain ⟨next, returned⟩ := readdir_isSome held loop
  obtain ⟨loop', held', length⟩ := readdir_loop held returned
  obtain rfl : last = next.index := congrArg Prod.fst (Option.some.inj (loop.symm.trans loop'))
  refine ⟨found, next, rest, returned, ?_, ⟨held', length, onward, ?_, ?_⟩, fewer⟩
  · rwa [DIR.reads_eq held]
  · exact fun p member => sound p (ending.subset member)
  · exact ending.length_le.trans enough

theorem DIR.Along.afterReads {buflen : ℕ} (along : dirp.Along buf buflen trace) (calls : ℕ) :
    ∃ st rest, CLite.afterReads calls dirp = some st ∧ st.Along buf buflen rest := by
  induction calls generalizing dirp trace with
  | zero => exact ⟨dirp, trace, rfl, along⟩
  | succ calls ih =>
    obtain ⟨found, next, rest, returned, -, later, -⟩ := along.readdir
    rw [afterReads_succ returned]
    exact ih later

/-- A null pointer is returned once the records are used up. -/
theorem DIR.Along.null {buflen : ℕ} (along : dirp.Along buf buflen trace) :
    ∃ calls st next, calls < trace.length ∧ CLite.afterReads calls dirp = some st ∧
      CLite.readdir st = some (none, next) := by
  induction length : trace.length using Nat.strongRecOn generalizing dirp trace with
  | ind size ih =>
    obtain ⟨found, next, rest, returned, -, later, fewer⟩ := along.readdir
    cases found with
    | none =>
      refine ⟨0, dirp, next, ?_, rfl, returned⟩
      rw [← length]
      exact List.length_pos_of_mem along.walk.head_mem
    | some entry =>
      have shorter := fewer (by simp)
      obtain ⟨calls, st, final, below, run, null⟩ := ih _ (length ▸ shorter) later rfl
      exact ⟨calls + 1, st, final, by omega, (afterReads_succ returned).trans run, null⟩

end Streams

section Buffers

variable {buf : Memory} {buflen pos : ℕ}

/-- The records that follow one another inside the buffer are at different offsets below its end. -/
theorem length_le_of_walk {trace : List ℕ} (walk : Trace (follow buf buflen) pos trace)
    (sound : ∀ p ∈ trace, RecordInside buf buflen p) : trace.length ≤ buflen + 1 := by
  have below : ∀ p ∈ trace.dropLast, p < buflen := by
    intro p member
    obtain ⟨q, followed⟩ := walk.exists_next p member
    have header := (sound p (List.dropLast_subset _ member)).header (follow_eq_some.mp followed).1
    omega
  have apart : trace.dropLast.Nodup := walk.nodup.sublist (List.dropLast_sublist _)
  have count : trace.dropLast.length ≤ buflen := by
    rw [← List.toFinset_card_of_nodup apart, ← Finset.card_range buflen]
    apply Finset.card_le_card
    intro p member
    exact Finset.mem_range.mpr (below p (List.mem_toFinset.mp member))
  rw [List.length_dropLast] at count
  omega

variable {fd : ℤ} {path : CString} {entry : Dirent}

theorem RecordsSound.of_trace {trace : List ℕ} (walk : Trace (follow buf buflen) 0 trace)
    (sound : ∀ p ∈ trace, RecordInside buf buflen p) : RecordsSound buf buflen := by
  refine ⟨fun pos reached => sound pos (walk.mem_of_reached reached), ?_⟩
  intro pos reached
  obtain ⟨rest, later, -⟩ := walk.reached reached
  exact later.not_back

theorem recordsSound_of_walksSafely (safe : WalksSafely ⟨fd, 0, buflen, some buf, path, entry⟩) :
    RecordsSound buf buflen := by
  obtain ⟨calls, -, st, next, run, null⟩ := safe.2
  obtain ⟨trace, walk, sound⟩ := walk_of_calls rfl safe.1 run null
  exact .of_trace walk sound

/-- The records of a buffer of `opendir` are fewer than the rounds of a walk. -/
theorem RecordsSound.exists_along (records : RecordsSound buf buflen) (small : buflen ≤ GETDENTS_BUFSZ) :
    ∃ trace, DIR.Along buf buflen trace ⟨fd, 0, buflen, some buf, path, entry⟩ ∧ trace.length ≤ buflen + 1 := by
  have closed (s t : ℕ) (followed : follow buf buflen s = some t) : t ∈ Finset.range (2 ^ 32) := by
    obtain ⟨-, -, rfl⟩ := follow_eq_some.mp followed
    exact Finset.mem_range.mpr (Nat.mod_lt _ (by decide))
  obtain ⟨trace, walk⟩ := exists_trace_of_not_back closed records.forward
  have sound : ∀ p ∈ trace, RecordInside buf buflen p := fun p member =>
    records.inside p (walk.reached_of_mem p member)
  have length := length_le_of_walk walk sound
  -- At most one record begins at each offset of the buffer, so `walkFuel` rounds are more than enough.
  refine ⟨trace, ⟨rfl, rfl, walk, sound, ?_⟩, length⟩
  simp only [GETDENTS_BUFSZ, walkFuel] at small ⊢
  omega

theorem walksSafely_of_recordsSound (records : RecordsSound buf buflen) (small : buflen ≤ GETDENTS_BUFSZ) :
    WalksSafely ⟨fd, 0, buflen, some buf, path, entry⟩ := by
  obtain ⟨trace, along, length⟩ := records.exists_along small
  refine ⟨?_, ?_⟩
  · intro calls
    obtain ⟨st, rest, run, later⟩ := along.afterReads calls
    obtain ⟨found, next, _, returned, inside, -⟩ := later.readdir
    exact ⟨st, run, by rw [returned]; rfl, inside⟩
  · obtain ⟨calls, st, next, below, run, null⟩ := along.null
    exact ⟨calls, by dsimp only; omega, st, next, run, null⟩

/-- From the start of a buffer, every call returns and stays inside it and the listing ends, exactly if the records
that follow one another lie inside and none leads back to itself. -/
theorem readdir_safe_iff (fd : ℤ) (buf : Memory) (buflen : ℕ) (path : CString) (entry : Dirent)
    (small : buflen ≤ GETDENTS_BUFSZ) :
    WalksSafely ⟨fd, 0, buflen, some buf, path, entry⟩ ↔ RecordsSound buf buflen :=
  ⟨recordsSound_of_walksSafely, fun records => walksSafely_of_recordsSound records small⟩

end Buffers

/-- A stream whose buffer holds the given records. -/
def recordStream (records : List Byte) : DIR :=
  ⟨3, 0, records.length, some (overlay (fun _ => 0) records), [], ⟨0, [0]⟩⟩

/-- A record named `a`, whose length leads behind the end. -/
def singleRecord : List Byte := [1, 0, 0, 0, 12, 0, 0, 0, 97, 0, 0, 0]

theorem recordsSound_singleRecord : RecordsSound (overlay (fun _ => 0) singleRecord) singleRecord.length := by
  have walk : Trace (follow (overlay (fun _ => 0) singleRecord) singleRecord.length) 0 [0, 12] :=
    .next (by decide) (.stop (by decide))
  apply RecordsSound.of_trace walk
  rw [List.forall_mem_cons, List.forall_mem_singleton]
  constructor
  · exact ⟨fun _ => by decide, fun _ _ => .inl ⟨1, by decide, by decide, by decide⟩⟩
  · refine ⟨fun looked => ?_, fun looked => ?_⟩ <;> exact absurd looked (by decide)

theorem readdir_safe_singleRecord :
    singleRecord.length ≤ GETDENTS_BUFSZ ∧ WalksSafely (recordStream singleRecord) :=
  ⟨by decide, (readdir_safe_iff _ _ _ _ _ (by decide)).mpr recordsSound_singleRecord⟩

/-- A header alone: the first byte of the name is behind the end of the buffer. -/
def cutRecord : List Byte := [1, 0, 0, 0, 8, 0, 0, 0]

/-- Records named `a` and `b`; the length of the second one is `2 ^ 32 - 16` and leads back to the first one. -/
def endlessRecords : List Byte :=
  [1, 0, 0, 0, 16, 0, 0, 0, 97, 0, 0, 0, 0, 0, 0, 0, 2, 0, 0, 0, 240, 255, 255, 255, 98, 0, 0, 0, 0, 0, 0, 0]

theorem endlessRecords_back :
    Relation.TransGen (Next (follow (overlay (fun _ => 0) endlessRecords) endlessRecords.length)) 0 0 := by
  have first : follow (overlay (fun _ => 0) endlessRecords) endlessRecords.length 0 = some 16 := by decide
  have second : follow (overlay (fun _ => 0) endlessRecords) endlessRecords.length 16 = some 0 := by decide
  exact .tail (.single first) second

/-- A call reads the byte behind the end of the buffer, and a listing goes round for ever. -/
theorem readdir_unsafe :
    ¬ WalksSafely (recordStream cutRecord) ∧ ¬ WalksSafely (recordStream endlessRecords) := by
  constructor
  · intro safe
    rcases ((recordsSound_of_walksSafely safe).inside 0 .refl).name (by decide) (by decide) with
      ⟨i, -, inside, -⟩ | whole
    · simp only [cutRecord, List.length_cons, List.length_nil] at inside
      omega
    · exact absurd whole (by decide)
  · intro safe
    exact (recordsSound_of_walksSafely safe).forward 0 .refl endlessRecords_back

end CLite
