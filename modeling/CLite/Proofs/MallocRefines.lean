import CLite.Spec.HeapView

/-! # `malloc` on bytes refines allocation in an arena

The search loop visits the blocks in list order, a split writes its new header inside the block being
given out, and an extension links the last block to the old break. Each write stays inside the header
it belongs to or inside a free block, which keeps the rest of the chain and every busy payload. The
only obligations beyond the arena's own invariant are that the size arithmetic does not wrap.
-/

namespace CLite

open ByteMemory FreeList

/-! ## Word arithmetic -/

theorem wrap_of_lt {n : ℕ} (bound : n < 2 ^ 32) : wrap n = n := Nat.mod_eq_of_lt bound

/-- The mask `~7` clears the low three bits. -/
private theorem and_mask {n : ℕ} (bound : n < 2 ^ 32) : n &&& 0xFFFFFFF8 = n / 8 * 8 := by
  have mask : (0xFFFFFFF8 : ℕ) = (2 ^ 29 - 1) <<< 3 := by decide
  have shifts : n / 8 * 8 = (n >>> 3) <<< 3 := by
    rw [Nat.shiftRight_eq_div_pow, Nat.shiftLeft_eq]
  rw [mask, shifts]
  apply Nat.eq_of_testBit_eq
  intro i
  simp only [Nat.testBit_and, Nat.testBit_shiftLeft, Nat.testBit_shiftRight,
    Nat.testBit_two_pow_sub_one]
  by_cases low : 3 ≤ i
  · by_cases high : i < 32
    · simp [low, show i - 3 < 29 by omega, show 3 + (i - 3) = i by omega]
    · have zero : n.testBit i = false :=
        Nat.testBit_lt_two_pow (lt_of_lt_of_le bound (Nat.pow_le_pow_right (by decide) (by omega)))
      simp [zero, show 3 + (i - 3) = i by omega]
  · simp [low]

theorem roundUp_eq {n : ℕ} (bound : n + 7 < 2 ^ 32) : roundUp n = rounded n := by
  rw [roundUp, wrap_of_lt bound, and_mask bound, rounded]

/-- A round-up that wraps only makes the size smaller. -/
theorem roundUp_le (n : ℕ) : roundUp n ≤ rounded n := by
  rw [roundUp, and_mask (show wrap (n + 7) < 2 ^ 32 from Nat.mod_lt _ (by decide))]
  simp only [wrap, rounded]
  omega

/-! ## The search loop -/

/-- The address of the last block, which is where `prev` stands when the loop ends. -/
def lastAddr (prev : ℕ) (es : List Extent) : ℕ := (es.getLast?.map Extent.addr).getD prev

theorem lastAddr_cons (prev : ℕ) (e : Extent) (es : List Extent) :
    lastAddr prev (e :: es) = lastAddr e.addr es := by
  cases es with
  | nil => rfl
  | cons b es => simp [lastAddr, List.getLast?_eq_some_getLast]

/-- The loop stops at the first block that fits, or at the end of the list. -/
theorem mallocScan_spec {memory : Memory} (size : ℕ) {start : ℕ} {es : List Extent}
    (segment : Segment memory start es 0) (nonnull : ∀ e ∈ es, e.addr ≠ 0) {fuel : ℕ}
    (enough : es.length < fuel) (prev : ℕ) :
    (∃ pre e post, es = pre ++ e :: post ∧ e.free = true ∧ size ≤ e.size ∧
      (∀ a ∈ pre, a.free = true → a.size < size) ∧
      mallocScan memory size fuel start prev = some (.fit e.addr)) ∨
    ((∀ e ∈ es, e.free = true → e.size < size) ∧
      mallocScan memory size fuel start prev = some (.exhausted (lastAddr prev es))) := by
  induction es generalizing start fuel prev with
  | nil =>
    cases fuel with
    | zero => omega
    | succ fuel =>
      right
      rw [show start = 0 from segment]
      simp [mallocScan, lastAddr]
  | cons e es ih =>
    obtain ⟨rfl, present, rest⟩ := segment
    cases fuel with
    | zero => omega
    | succ fuel =>
      have head := nonnull e (List.mem_cons_self ..)
      rw [mallocScan, if_neg head, present.magic, present.free, present.size]
      by_cases fits : e.free = true ∧ size ≤ e.size
      · refine .inl ⟨[], e, es, rfl, fits.1, fits.2, by simp, ?_⟩
        rw [if_pos ⟨rfl, by simp [fits.1], fits.2⟩]
      · have unfit : e.free = true → e.size < size := by
          intro free
          by_contra large
          exact fits ⟨free, by omega⟩
        have skip : ¬ (BLOCK_MAGIC = BLOCK_MAGIC ∧ e.free.toNat ≠ 0 ∧ size ≤ e.size) := by
          rintro ⟨-, flag, large⟩
          exact fits ⟨by simpa using flag, large⟩
        rw [if_neg skip, lastAddr_cons]
        rcases ih rest (fun b member => nonnull b (List.mem_cons_of_mem e member))
            (by simpa using enough) e.addr with
          ⟨pre, b, post, rfl, free, large, first, found⟩ | ⟨none, ended⟩
        · refine .inl ⟨e :: pre, b, post, rfl, free, large, ?_, found⟩
          intro a member
          rcases List.mem_cons.mp member with rfl | member
          · exact unfit
          · exact first a member
        · refine .inr ⟨?_, ended⟩
          intro a member
          rcases List.mem_cons.mp member with rfl | member
          · exact unfit
          · exact none a member

/-! ## The writes -/

/-- Giving a block out rewrites nothing outside it and leaves the carved blocks in its place. -/
theorem takeBlock_spec {memory : Memory} {size : ℕ} {e : Extent} (present : HeaderAt memory e)
    (inside : e.addr + 16 + e.size < 2 ^ 32) (room : size + 32 < 2 ^ 32) :
    Segment (takeBlock memory e.addr size) e.addr (carve headerSize 16 size e) (nextOf memory e.addr) ∧
      ∀ x, x < e.addr ∨ e.addr + 16 + e.size ≤ x → takeBlock memory e.addr size x = memory x := by
  have threshold : wrap (wrap (size + headerSize) + 16) = size + 32 := by
    simp only [wrap, headerSize]
    omega
  have nextBound : nextOf memory e.addr < 2 ^ 32 := read32_lt _ _
  obtain ⟨sizeEq, -, magicEq⟩ := present
  simp only [takeBlock, threshold, sizeEq, carve]
  by_cases large : size + 32 ≤ e.size
  · have second : wrap (e.addr + headerSize + size) = e.addr + 16 + size := by
      simp only [wrap, headerSize]
      omega
    have rest : wrap (e.size + 2 ^ 32 - size + 2 ^ 32 - headerSize) = e.size - size - 16 := by
      simp only [wrap, headerSize]
      omega
    rw [if_pos large, if_pos (by simp only [headerSize]; omega)]
    simp only [splitBlock, second, rest, sizeEq]
    simp only [nextOf, magicOf] at nextBound magicEq
    refine ⟨⟨rfl, ⟨?_, ?_, ?_⟩, ?_, ⟨?_, ?_, ?_⟩, ?_⟩, ?_⟩
    all_goals
      simp (disch := omega) only [Segment, sizeOf, nextOf, freeOf, magicOf, setSize, setNext, setFree,
        setMagic, headerSize, magicEq, read32_write32_same, read32_write32_disjoint,
        Nat.mod_eq_of_lt, Bool.toNat_true, Bool.toNat_false]
    · rfl
    · intro x outside
      simp (disch := omega) only [write32_outside]
  · rw [if_neg large, if_neg (by simp only [headerSize]; omega)]
    simp only [sizeOf, magicOf] at sizeEq magicEq
    refine ⟨⟨rfl, ⟨?_, ?_, ?_⟩, ?_⟩, ?_⟩
    all_goals
      simp (disch := omega) only [Segment, sizeOf, nextOf, freeOf, magicOf, setFree, sizeEq, magicEq,
        read32_write32_same, read32_write32_disjoint, Nat.zero_mod, Bool.toNat_false]
    intro x outside
    simp (disch := omega) only [write32_outside]

/-- A new block's header holds a busy block that ends the list. -/
theorem newBlock_spec (memory : Memory) (block size : ℕ) (bound : size < 2 ^ 32) :
    Segment (newBlock memory block size) block [⟨block, size, false⟩] 0 ∧
      ∀ x, x < block ∨ block + 16 ≤ x → newBlock memory block size x = memory x := by
  refine ⟨⟨rfl, ⟨?_, ?_, ?_⟩, ?_⟩, ?_⟩
  all_goals
    simp (disch := omega) only [Segment, newBlock, sizeOf, nextOf, freeOf, magicOf, setSize, setNext,
      setFree, setMagic, BLOCK_MAGIC, read32_write32_same, read32_write32_disjoint, Nat.mod_eq_of_lt,
      Bool.toNat_false]
  intro x outside
  simp (disch := omega) only [write32_outside]

/-- Redirecting the last link of a segment extends the segment by whatever stands there. -/
theorem segment_setNext {memory : Memory} {start stop target hi : ℕ} {es : List Extent} {last : Extent}
    (segment : Segment memory start (es ++ [last]) stop) (layout : Between headerSize 1 hi (es ++ [last]))
    (bound : target < 2 ^ 32) :
    Segment (setNext memory last.addr target) start (es ++ [last]) target := by
  obtain ⟨middle, before, rfl, present, -⟩ := segment.split
  refine Segment.append (before.frame fun e member x lower upper => ?_) ⟨rfl, ?_, ?_⟩
  · have apart := ((Between.append_cons.mp layout).1.mem_bounds member).2
    simp only [Extent.stop, headerSize] at apart
    exact write32_outside _ _ _ _ (by omega)
  · obtain ⟨sizeEq, freeEq, magicEq⟩ := present
    constructor
    all_goals simp only [sizeOf, freeOf, magicOf, setNext] at *
    all_goals rwa [read32_write32_disjoint _ _ _ _ (by omega)]
  · simp only [Segment, nextOf, setNext, read32_write32_same]
    omega

/-! ## The break -/

theorem long_nonpos_iff {word : ℕ} (bound : word < 2 ^ 32) :
    long word ≤ 0 ↔ word = 0 ∨ 2 ^ 31 ≤ word := by
  unfold long
  split
  · omega
  · omega

theorem sbrk_refused {kernel : Kernel} {heap : Heap} {increment : ℕ} (positive : 0 < heap.brk)
    (bound : heap.brk < 2 ^ 32) (refuses : Refuses kernel heap.brk increment) :
    sbrk kernel heap increment = (failed, heap) := by
  simp only [sbrk, sysBrk, if_true, long_nonpos_iff bound]
  by_cases high : heap.brk = 0 ∨ 2 ^ 31 ≤ heap.brk
  · rw [if_pos high]
  · obtain ⟨nonzero, query | moved⟩ := refuses.resolve_left fun high' => high (.inr high')
    · rw [if_neg high, if_neg nonzero, query, if_pos rfl, if_pos (by simp only; omega)]
    · rw [if_neg high, if_neg nonzero]
      by_cases query : wrap (heap.brk + increment) = 0
      · rw [query, if_pos rfl, if_pos (by simp only; omega)]
      · rw [if_neg query, if_neg moved, if_pos moved]

theorem sbrk_granted {kernel : Kernel} {heap : Heap} (increment : ℕ) (positive : 0 < heap.brk)
    (low : heap.brk < 2 ^ 31) (nonzero : increment ≠ 0) (room : heap.brk + increment < 2 ^ 32)
    (granted : kernel heap.brk (heap.brk + increment) = heap.brk + increment) :
    sbrk kernel heap increment = (heap.brk, { heap with brk := heap.brk + increment }) := by
  have target : heap.brk + increment ≠ 0 := by omega
  simp only [sbrk, sysBrk, if_true, long_nonpos_iff (show heap.brk < 2 ^ 32 by omega),
    wrap_of_lt room, granted, if_neg target, ne_eq, not_true, if_false, if_neg nonzero]
  rw [if_neg (by omega)]

/-- Inside the address space, `sbrk` fails exactly when the break is no positive `long` or the kernel
does not move it. -/
theorem refuses_iff {kernel : Kernel} {brk increment : ℕ} (nonzero : increment ≠ 0)
    (room : brk + increment < 2 ^ 32) :
    Refuses kernel brk increment ↔
      ¬ (brk < 2 ^ 31 ∧ kernel brk (brk + increment) = brk + increment) := by
  simp only [Refuses, wrap_of_lt room]
  constructor
  · rintro (high | ⟨-, zero | moved⟩) ⟨low, granted⟩
    · omega
    · omega
    · exact moved granted
  · intro denied
    by_cases low : brk < 2 ^ 31
    · exact .inr ⟨nonzero, .inr fun moved => denied ⟨low, moved⟩⟩
    · exact .inl (by omega)

/-! ## The refinement -/

/-- A payload byte of a busy block: the memory the clients own. -/
def Arena.Payload (arena : Arena) (x : ℕ) : Prop :=
  ∃ e ∈ arena.blocks, e.free = false ∧ e.addr + 16 ≤ x ∧ x < e.addr + 16 + e.size

variable {kernel : Kernel} {heap : Heap} {arena : Arena} {n : ℕ}

/-- The block that fits is carved in place; the chain around it and all busy payloads are kept. -/
private theorem takeBlock_refines (represents : Represents heap arena) {pre post : List Extent}
    {e : Extent} (shape : arena.blocks = pre ++ e :: post) (free : e.free = true) (request : n ≠ 0)
    (room : rounded n + 32 < 2 ^ 32) :
    Represents { heap with mem := takeBlock heap.mem e.addr (rounded n) }
        (arena.reuse (rounded n) (dvd_rounded n) (rounded_pos request) pre e post shape free) ∧
      ∀ x, arena.Payload x → takeBlock heap.mem e.addr (rounded n) x = heap.mem x := by
  have member : e ∈ arena.blocks := by simp [shape]
  have inside := (arena.bounds member).2
  have bound := arena.brk_lt
  have chain := shape ▸ represents.chain
  have layout := shape ▸ arena.layout
  obtain ⟨before, after⟩ := Between.append_cons.mp layout
  obtain ⟨middle, left, rfl, present, right⟩ := chain.split
  obtain ⟨carved, frame⟩ := takeBlock_spec present (by omega) room
  refine ⟨⟨?_, represents.brk⟩, ?_⟩
  · refine (left.frame fun a inPre x lower upper => ?_).append
      (carved.append (right.frame fun a inPost x lower upper => ?_))
    · have apart := (before.mem_bounds inPre).2
      simp only [Extent.stop, headerSize] at apart
      exact frame x (by omega)
    · have apart := (after.mem_bounds inPost).1
      simp only [Extent.stop, headerSize] at apart
      exact frame x (by omega)
  · rintro x ⟨b, other, busy, lower, upper⟩
    have different : b ≠ e := by
      rintro rfl
      exact Bool.false_ne_true (busy.symm.trans free)
    have apart := arena.apart other member different
    exact frame x (by omega)

/-- The heap after `malloc` has linked a new block at the old break behind the last block. -/
def appendBlock (heap : Heap) (size prev : ℕ) : Heap :=
  let memory := newBlock heap.mem heap.brk size
  if prev ≠ 0 then
    { heap with mem := setNext memory prev heap.brk, brk := heap.brk + 16 + size }
  else { mem := memory, freeList := heap.brk, brk := heap.brk + 16 + size }

private theorem appendBlock_refines (represents : Represents heap arena) {size : ℕ}
    (granule : 8 ∣ size) (positive : 0 < size) (room : arena.brk + 16 + size < 2 ^ 32) :
    Represents (appendBlock heap size (lastAddr 0 arena.blocks)) (arena.grow size granule positive room) ∧
      ∀ x, arena.Payload x →
        (appendBlock heap size (lastAddr 0 arena.blocks)).mem x = heap.mem x := by
  have top := represents.brk
  obtain ⟨fresh, frame⟩ := newBlock_spec heap.mem heap.brk size (by omega)
  have below : ∀ e ∈ arena.blocks, e.addr + 16 + e.size ≤ heap.brk := fun e member => by
    rw [top]
    exact (arena.bounds member).2
  have chain : Segment (newBlock heap.mem heap.brk size) heap.freeList arena.blocks 0 :=
    represents.chain.frame fun e member x lower upper => frame x (by have := below e member; omega)
  rcases List.eq_nil_or_concat arena.blocks with none | ⟨init, last, shape⟩
  · simp only [appendBlock, none, lastAddr, List.getLast?_nil, Option.map_none, Option.getD_none,
      ne_eq, not_true, if_false]
    refine ⟨⟨?_, congrArg (· + 16 + size) top⟩, ?_⟩
    · simpa only [Arena.grow_blocks, none, List.nil_append, ← top] using fresh
    · rintro x ⟨e, member, -⟩
      simp [none] at member
  · rw [List.concat_eq_append] at shape
    have member : last ∈ arena.blocks := by simp [shape]
    have linked : lastAddr 0 arena.blocks = last.addr := by simp [shape, lastAddr]
    have belowLast := below last member
    simp only [appendBlock, linked, ne_eq, arena.addr_ne_zero last member, not_false_eq_true, if_true]
    refine ⟨⟨?_, congrArg (· + 16 + size) top⟩, ?_⟩
    · have extended := segment_setNext (shape ▸ chain) (shape ▸ arena.layout)
        (show heap.brk < 2 ^ 32 by omega)
      have appended := extended.append (fresh.frame fun e inFresh x lower upper => by
        obtain rfl := List.mem_singleton.mp inFresh
        simp only at lower
        exact write32_outside _ (last.addr + 4) heap.brk x (by omega))
      simpa only [Arena.grow_blocks, shape, ← top] using appended
    · rintro x ⟨e, inBlocks, -, lower, upper⟩
      have apart : x < last.addr ∨ last.addr + 16 ≤ x := by
        by_cases same : e = last
        · subst same
          omega
        · have apart := arena.apart inBlocks member same
          omega
      have belowBlock := below e inBlocks
      rw [show setNext _ _ _ x = newBlock heap.mem heap.brk size x from
        write32_outside _ (last.addr + 4) heap.brk x (by omega)]
      exact frame x (by omega)

/-- Without wrap-around, the increment is that of a header and the rounded request. -/
private theorem increment_eq (room : rounded n + 16 < 2 ^ 32) :
    roundUp n = rounded n ∧ wrap (headerSize + roundUp n) = 16 + rounded n := by
  have size : roundUp n = rounded n := roundUp_eq (by have := le_rounded n; omega)
  refine ⟨size, ?_⟩
  rw [size, wrap_of_lt (by simp only [headerSize]; omega), headerSize]

/-- The system call refuses exactly when the kernel does not let the arena grow. -/
private theorem refuses_iff_not_grants (represents : Represents heap arena) {size : ℕ}
    (room : arena.brk + 16 + size < 2 ^ 32) :
    Refuses kernel heap.brk (16 + size) ↔ ¬ arena.Grants kernel size := by
  rw [represents.brk, refuses_iff (by omega) (by omega), Arena.Grants, ← Nat.add_assoc]
  simp only [room, true_and]

/-! ## The three ways out of `malloc` -/

theorem malloc_of_fit (request : n ≠ 0) (room : rounded n + 16 < 2 ^ 32) {curr : ℕ} (inside : curr + 16 < 2 ^ 32)
    (found : mallocScan heap.mem (roundUp n) walkFuel heap.freeList 0 = some (.fit curr)) :
    malloc kernel heap n = some (curr + 16, { heap with mem := takeBlock heap.mem curr (rounded n) }) := by
  have size := (increment_eq room).1
  rw [size] at found
  rw [malloc, if_neg request]
  simp only [size, found, headerSize, wrap_of_lt inside]

theorem malloc_of_refused (request : n ≠ 0) (positive : 0 < heap.brk) (bound : heap.brk < 2 ^ 32) {prev : ℕ}
    (ended : mallocScan heap.mem (roundUp n) walkFuel heap.freeList 0 = some (.exhausted prev))
    (refuses : Refuses kernel heap.brk (wrap (headerSize + roundUp n))) :
    malloc kernel heap n = some (0, heap) := by
  rw [malloc, if_neg request]
  simp only [ended, sbrk_refused positive bound refuses, if_true]

theorem malloc_of_granted (request : n ≠ 0) (positive : 0 < heap.brk) {prev : ℕ}
    (ended : mallocScan heap.mem (roundUp n) walkFuel heap.freeList 0 = some (.exhausted prev))
    (low : heap.brk < 2 ^ 31) (space : heap.brk + 16 + rounded n < 2 ^ 32)
    (moved : kernel heap.brk (heap.brk + 16 + rounded n) = heap.brk + 16 + rounded n) :
    malloc kernel heap n = some (heap.brk + 16, appendBlock heap (rounded n) prev) := by
  obtain ⟨size, total⟩ := increment_eq (show rounded n + 16 < 2 ^ 32 by omega)
  have extended := sbrk_granted (16 + rounded n) positive low (by omega) (by omega)
    (by simpa only [Nat.add_assoc] using moved)
  have nonfailed : heap.brk ≠ failed := by
    simp only [failed]
    omega
  rw [malloc, if_neg request]
  simp only [ended, total, extended, if_neg nonfailed]
  simp only [size, headerSize, appendBlock, ← Nat.add_assoc, wrap_of_lt (show heap.brk + 16 < 2 ^ 32 by omega)]
  split <;> rfl

/-- Under the safety condition `malloc` returns, allocates as the arena does, keeps every byte the
clients own, and leaves the heap alone when it returns `NULL`. -/
theorem malloc_refines (represents : Represents heap arena) (safe : SafeRequest kernel heap n) :
    ∃ ptr heap' arena', malloc kernel heap n = some (ptr, heap') ∧ Represents heap' arena' ∧
      arena.Allocates kernel n ptr arena' ∧ (∀ x, arena.Payload x → heap'.mem x = heap.mem x) ∧
      (ptr = 0 → heap' = heap) := by
  by_cases request : n = 0
  · exact ⟨0, heap, arena, by simp [malloc, request], represents, .refused (.inl request),
      fun _ _ => rfl, fun _ => rfl⟩
  have top := represents.brk
  have positive : 0 < heap.brk := by
    rw [top]
    exact arena.layout.le
  have bound := arena.brk_lt
  rcases mallocScan_spec (roundUp n) represents.chain arena.addr_ne_zero arena.length_lt 0 with
    ⟨pre, e, post, shape, free, fits, first, found⟩ | ⟨unfit, ended⟩
  · have member : e ∈ arena.blocks := by simp [shape]
    have inside := (arena.bounds member).2
    -- a candidate block rules the second alternative of the safety condition out
    have room : rounded n + 32 < 2 ^ 32 := by
      rcases safe with ⟨-, room⟩ | ⟨none, -⟩
      · exact room
      · exact (none (represents.hasFit_iff.mpr ⟨e, member, free, fits⟩)).elim
    have result := @malloc_of_fit kernel _ _ request (by omega) _ (by omega) found
    rw [(increment_eq (show rounded n + 16 < 2 ^ 32 by omega)).1] at fits first
    obtain ⟨represents', frame⟩ := takeBlock_refines represents shape free request room
    exact ⟨e.addr + 16, _, _, result, represents', .reused request pre e post shape free fits first, frame, by omega⟩
  · have none : ¬ heap.HasFit (roundUp n) := by
      intro fit
      obtain ⟨e, member, free, large⟩ := represents.hasFit_iff.mp fit
      have := unfit e member free
      omega
    rcases safe with ⟨fit, -⟩ | ⟨-, space | refuses⟩
    · exact (none fit).elim
    · obtain ⟨size, total⟩ := increment_eq (show rounded n + 16 < 2 ^ 32 by omega)
      rw [size] at unfit
      rw [top] at space
      by_cases granted : arena.Grants kernel (rounded n)
      · obtain ⟨represents', frame⟩ := appendBlock_refines represents (dvd_rounded n)
          (rounded_pos request) granted.2.1
        have low := granted.1
        have moved := granted.2.2
        rw [← top] at low moved
        have result := malloc_of_granted request positive ended low (by omega) moved
        rw [top] at result
        exact ⟨arena.brk + 16, _, _, result, represents', .grown request unfit granted, frame, by omega⟩
      · have refuses := (refuses_iff_not_grants represents space).mpr granted
        rw [← total] at refuses
        exact ⟨0, heap, arena, malloc_of_refused request positive (by omega) ended refuses, represents,
          .refused (.inr ⟨unfit, granted⟩), fun _ _ => rfl, fun _ => rfl⟩
    · refine ⟨0, heap, arena, malloc_of_refused request positive (by omega) ended refuses, represents,
        .refused (.inr ⟨?_, ?_⟩), fun _ _ => rfl, fun _ => rfl⟩
      · intro e member free
        exact lt_of_lt_of_le (unfit e member free) (roundUp_le n)
      · intro granted
        have room := granted.2.1
        rw [(increment_eq (show rounded n + 16 < 2 ^ 32 by omega)).2,
          refuses_iff_not_grants represents room] at refuses
        exact refuses granted

end CLite
