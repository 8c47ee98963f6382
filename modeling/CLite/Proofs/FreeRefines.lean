import CLite.Proofs.MallocRefines

/-! # `free` on bytes refines release in an arena

`free` sets one flag and then runs down the list once, letting each free block absorb the free blocks
that follow it without a gap. Only header words are written, so no payload byte changes, not even one
of the block being freed.
-/

namespace CLite

open ByteMemory FreeList

variable {memory : Memory} {start stop lo hi : ℕ} {e cur : Extent} {es : List Extent}

/-- Outside all headers of the list. -/
def OffHeaders (es : List Extent) (x : ℕ) : Prop := ∀ e ∈ es, x < e.addr ∨ e.addr + 16 ≤ x

/-- Setting the flag of one block turns the chain into the chain with that block released. -/
theorem Segment.setFree {addr : ℕ} (segment : Segment memory start es stop)
    (apart : ∀ e ∈ es, e.addr ≠ addr → e.addr + 16 ≤ addr ∨ addr + 16 ≤ e.addr) :
    Segment (setFree memory addr 1) start (release addr es) stop := by
  induction es generalizing start with
  | nil => exact segment
  | cons e es ih =>
    obtain ⟨rfl, present, rest⟩ := segment
    have tail := ih rest fun b member => apart b (List.mem_cons_of_mem e member)
    obtain ⟨sizeEq, freeEq, magicEq⟩ := present
    simp only [sizeOf, freeOf, magicOf] at sizeEq freeEq magicEq
    by_cases same : e.addr = addr
    · subst same
      have link : nextOf (CLite.setFree memory e.addr 1) e.addr = nextOf memory e.addr :=
        read32_write32_disjoint _ _ _ _ (by omega)
      simp only [release, List.map_cons, if_true] at tail ⊢
      refine ⟨rfl, ⟨?_, ?_, ?_⟩, link ▸ tail⟩
      · simpa (disch := omega) only [sizeOf, CLite.setFree, read32_write32_disjoint] using sizeEq
      · simp only [freeOf, CLite.setFree, read32_write32_same, Bool.toNat_true, Nat.reducePow, Nat.reduceMod]
      · simpa (disch := omega) only [magicOf, CLite.setFree, read32_write32_disjoint] using magicEq
    · have away := apart e (List.mem_cons_self ..) same
      have keep : ∀ x, e.addr ≤ x → x < e.addr + 16 → CLite.setFree memory addr 1 x = memory x :=
        fun x _ _ => write32_outside _ _ _ _ (by omega)
      simp only [release, List.map_cons, if_neg same] at tail ⊢
      exact ⟨rfl, HeaderAt.frame ⟨sizeEq, freeEq, magicEq⟩ keep, nextOf_frame keep ▸ tail⟩

/-- One iteration that merges: the current block takes over its successor's bytes and link. -/
private theorem absorb_spec (segment : Segment memory cur.addr (cur :: e :: es) 0)
    (layout : Between headerSize lo hi (cur :: e :: es)) (bound : hi < 2 ^ 32) :
    let grown := setSize memory cur.addr (cur.size + (16 + e.size))
    let merged := setNext grown cur.addr (nextOf grown (nextOf grown cur.addr))
    Segment merged cur.addr ({ cur with size := cur.size + (headerSize + e.size) } :: es) 0 ∧
      ∀ x, x < cur.addr ∨ cur.addr + 16 ≤ x → merged x = memory x := by
  obtain ⟨-, ⟨-, freeEq, magicEq⟩, link, -, rest⟩ := segment
  obtain ⟨-, after, above⟩ := layout
  have stopBound := above.le
  have nextBound : nextOf memory e.addr < 2 ^ 32 := read32_lt _ _
  simp only [Extent.stop, headerSize] at after stopBound
  simp only [freeOf, magicOf, nextOf] at freeEq magicEq link rest nextBound
  have outside : ∀ x, x < cur.addr ∨ cur.addr + 16 ≤ x →
      write32 (write32 memory cur.addr (cur.size + (16 + e.size))) (cur.addr + 4)
        (read32 memory (e.addr + 4)) x = memory x := by
    intro x away
    simp (disch := omega) only [write32_outside]
  have target : read32 (write32 memory cur.addr (cur.size + (16 + e.size))) (cur.addr + 4) = e.addr := by
    rw [read32_write32_disjoint _ _ _ _ (by omega), link]
  simp (disch := omega) only [setSize, setNext, nextOf, target, read32_write32_disjoint]
  refine ⟨⟨rfl, ⟨?_, ?_, ?_⟩, ?_⟩, outside⟩
  · simp (disch := omega) only [sizeOf, headerSize, read32_write32_same, read32_write32_disjoint,
      Nat.mod_eq_of_lt]
  · simpa (disch := omega) only [freeOf, read32_write32_disjoint] using freeEq
  · simpa (disch := omega) only [magicOf, read32_write32_disjoint] using magicEq
  · simp (disch := omega) only [nextOf, read32_write32_same, Nat.mod_eq_of_lt]
    exact Segment.frame rest fun b member x lower upper => outside x (by
      have := (above.mem_bounds member).1
      simp only [Extent.stop, headerSize] at this
      omega)

/-- The test of the coalescing loop on two neighbours. -/
theorem joins_iff {cur e : Extent} (segment : Segment memory cur.addr (cur :: e :: es) 0)
    (inside : cur.addr + 16 + cur.size < 2 ^ 32) :
    (freeOf memory cur.addr ≠ 0 ∧ freeOf memory e.addr ≠ 0) ∧
        wrap (cur.addr + headerSize + sizeOf memory cur.addr) = e.addr ↔
      Joinable headerSize cur e := by
  rw [segment.2.1.free, segment.2.2.2.1.free, segment.2.1.size, headerSize, wrap_of_lt inside]
  simp [Joinable, Extent.stop, and_assoc]

/-- The coalescing loop is one merge pass over the list from the current block on. -/
theorem freeLoop_spec (cur : Extent) (segment : Segment memory cur.addr (cur :: es) 0)
    (layout : Between headerSize lo hi (cur :: es)) (positive : 0 < lo) (bound : hi < 2 ^ 32)
    (fuel : ℕ) (enough : es.length < fuel) :
    ∃ memory', freeLoop fuel memory cur.addr = some memory' ∧
      Segment memory' cur.addr (mergeFrom headerSize cur es) 0 ∧
      ∀ x, OffHeaders (cur :: es) x → memory' x = memory x := by
  induction es generalizing cur memory lo fuel with
  | nil =>
    cases fuel with
    | zero => omega
    | succ fuel =>
      have ended : nextOf memory cur.addr = 0 := segment.2.2
      exact ⟨memory, by rw [freeLoop, if_pos (.inr ended)], segment, fun _ _ => rfl⟩
  | cons e es ih =>
    cases fuel with
    | zero => omega
    | succ fuel =>
      have link : nextOf memory cur.addr = e.addr := segment.2.2.1
      have enough' : es.length < fuel := by simpa using enough
      have start := layout.1
      have after := layout.2.1
      have stopBound := layout.2.2.le
      simp only [Extent.stop, headerSize] at after stopBound
      have flags := joins_iff segment (by omega)
      rw [freeLoop, link, if_neg (by omega)]
      by_cases joinable : Joinable headerSize cur e
      · rw [if_pos (flags.mpr joinable), mergeFrom, if_pos joinable]
        have size : wrap (sizeOf memory cur.addr + (headerSize + sizeOf memory e.addr)) =
            cur.size + (16 + e.size) := by
          rw [segment.2.1.size, segment.2.2.2.1.size, wrap_of_lt (by simp only [headerSize]; omega),
            headerSize]
        obtain ⟨segment', absorbed⟩ := absorb_spec segment layout bound
        obtain ⟨memory', finished, merged, frame⟩ :=
          ih { cur with size := cur.size + (headerSize + e.size) } segment'
            ⟨start, joinable.stop_absorb ▸ layout.2.2⟩ positive fuel enough'
        refine ⟨memory', by simpa only [size] using finished, merged, fun x off => ?_⟩
        rw [frame x, absorbed x (off cur (List.mem_cons_self ..))]
        intro b member
        rcases List.mem_cons.mp member with rfl | member
        · exact off cur (List.mem_cons_self ..)
        · exact off b (List.mem_cons_of_mem _ (List.mem_cons_of_mem _ member))
      · rw [if_neg (fun joined => joinable (flags.mp joined)), mergeFrom, if_neg joinable]
        obtain ⟨memory', finished, merged, frame⟩ := ih e (link ▸ segment.2.2)
          ⟨show cur.addr + 16 ≤ e.addr by omega, layout.2.2⟩ (by omega) fuel enough'
        -- the rest of the pass writes only to headers behind the current block
        have keep : ∀ x, cur.addr ≤ x → x < cur.addr + 16 → memory' x = memory x := by
          refine fun x lower upper => frame x fun b member => .inl ?_
          have behind := (layout.2.mem_bounds member).1
          simp only [Extent.stop, headerSize] at behind
          omega
        refine ⟨memory', finished, ⟨rfl, segment.2.1.frame keep, ?_⟩, fun x off => ?_⟩
        · rw [nextOf_frame keep, link]
          exact merged
        · exact frame x fun b member => off b (List.mem_cons_of_mem _ member)

variable {heap : Heap} {arena : Arena} {ptr size : ℕ}

theorem headerOf_eq (lower : 16 ≤ ptr) (upper : ptr < 2 ^ 32) : headerOf ptr = ptr - 16 := by
  simp only [headerOf, wrap, headerSize]
  omega

theorem freeLoop_null {fuel : ℕ} (some_fuel : 0 < fuel) : freeLoop fuel memory 0 = some memory := by
  obtain ⟨fuel, rfl⟩ := Nat.exists_eq_succ_of_ne_zero (Nat.ne_of_gt some_fuel)
  rw [freeLoop, if_pos (.inl rfl)]

/-- What `free` does behind its test of the magic word, whether or not the header is still one of a block. -/
theorem free_release (represents : Represents heap arena) (lower : 16 ≤ ptr) (upper : ptr < 2 ^ 32)
    (magic : magicOf heap.mem (ptr - 16) = BLOCK_MAGIC)
    (apart : ∀ e ∈ arena.blocks, e.addr ≠ ptr - 16 → e.addr + 16 ≤ ptr - 16 ∨ ptr - 16 + 16 ≤ e.addr) :
    ∃ heap', free heap ptr = some heap' ∧ Represents heap' (arena.release (ptr - 16)) ∧
      heap'.brk = heap.brk ∧
      ∀ x, OffHeaders arena.blocks x → x < ptr - 16 ∨ ptr ≤ x → heap'.mem x = heap.mem x := by
  have flagged := represents.chain.setFree apart
  have layout := release_between (ptr - 16) arena.layout
  have lengths : (release (ptr - 16) arena.blocks).length = arena.blocks.length := by simp [release]
  have fuel := arena.length_lt
  have flag_outside : ∀ x, x < ptr - 16 ∨ ptr ≤ x → setFree heap.mem (ptr - 16) 1 x = heap.mem x :=
    fun x away => write32_outside _ _ _ _ (by omega)
  rw [free, if_neg (by omega), headerOf_eq lower upper, if_neg (by simpa using magic)]
  rcases shape : release (ptr - 16) arena.blocks with _ | ⟨first, rest⟩
  · rw [shape] at flagged
    have null : heap.freeList = 0 := flagged
    refine ⟨{ heap with mem := setFree heap.mem (ptr - 16) 1 }, ?_, ⟨?_, represents.brk⟩, rfl,
      fun x _ away => flag_outside x away⟩
    · simp only [null, freeLoop_null (show 0 < walkFuel by decide), Option.map_some]
    · simpa only [Arena.release_blocks, shape, merge] using flagged
  · rw [shape] at flagged layout lengths
    have head : heap.freeList = first.addr := flagged.1
    rw [head] at flagged
    obtain ⟨memory', finished, merged, frame⟩ := freeLoop_spec first flagged layout (by omega)
      arena.brk_lt walkFuel (by simp only [List.length_cons] at lengths; omega)
    refine ⟨{ heap with mem := memory' }, by simp only [head, finished, Option.map_some],
      ⟨?_, represents.brk⟩, rfl, ?_⟩
    · simpa only [Arena.release_blocks, shape, merge, head] using merged
    · intro x off away
      refine (frame x fun b member => ?_).trans (flag_outside x away)
      rw [← shape] at member
      obtain ⟨old, present, same⟩ := addr_mem_release member
      rw [← same]
      exact off old present

theorem Arena.apart_of_busy {addr : ℕ} (arena : Arena) (busy : ⟨addr, size, false⟩ ∈ arena.blocks) :
    ∀ e ∈ arena.blocks, e.addr ≠ addr → e.addr + 16 ≤ addr ∨ addr + 16 ≤ e.addr := by
  intro e member different
  have away := arena.apart member busy (fun same => different (same ▸ rfl))
  dsimp only at away
  omega

/-- Freeing a busy block returns, releases it as the arena does, and writes nothing but headers. -/
theorem free_refines (represents : Represents heap arena) (lower : 16 ≤ ptr)
    (busy : ⟨ptr - 16, size, false⟩ ∈ arena.blocks) :
    ∃ heap', free heap ptr = some heap' ∧ Represents heap' (arena.release (ptr - 16)) ∧
      heap'.brk = heap.brk ∧ ∀ x, OffHeaders arena.blocks x → heap'.mem x = heap.mem x := by
  have inside := arena.bounds busy
  have bound := arena.brk_lt
  simp only at inside
  obtain ⟨heap', returned, released, brk, frame⟩ := free_release represents lower (by omega)
    (represents.headerAt busy).magic (arena.apart_of_busy busy)
  refine ⟨heap', returned, released, brk, fun x off => frame x off ?_⟩
  have here := off _ busy
  simp only at here
  omega

/-- A second `free` of the same pointer keeps the list: the header is that of a free block, or it has been
absorbed and lies in the payload of one. -/
theorem free_again (represents : Represents heap (arena.release (ptr - 16))) (lower : 16 ≤ ptr)
    (busy : ⟨ptr - 16, size, false⟩ ∈ arena.blocks) :
    ∃ heap', free heap ptr = some heap' ∧ Represents heap' (arena.release (ptr - 16)) := by
  have inside := arena.bounds busy
  have bound := arena.brk_lt
  simp only at inside
  rcases em (magicOf heap.mem (ptr - 16) = BLOCK_MAGIC) with magic | cleared
  · have apart : ∀ e ∈ (arena.release (ptr - 16)).blocks, e.addr ≠ ptr - 16 →
        e.addr + 16 ≤ ptr - 16 ∨ ptr - 16 + 16 ≤ e.addr := by
      intro e member
      obtain ⟨kept, present, same⟩ := addr_mem_merge member
      obtain ⟨old, present, same'⟩ := addr_mem_release present
      rw [← same, ← same']
      exact arena.apart_of_busy busy old present
    obtain ⟨heap', returned, released, -⟩ := free_release represents lower (by omega) magic apart
    refine ⟨heap', returned, ?_⟩
    have same : (arena.release (ptr - 16)).release (ptr - 16) = arena.release (ptr - 16) := by
      ext1
      · simp only [Arena.release_blocks, merge_release_merge, release_idem]
      · rfl
    rwa [same] at released
  · refine ⟨heap, ?_, represents⟩
    rw [free, if_neg (by omega), headerOf_eq lower (by omega), if_pos cleared]

end CLite
