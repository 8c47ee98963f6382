import CLite.Proofs.HeapRuns

/-! # The heap after any run

The results are about the list that a walk from `free_list` reads out of memory, after any sequence of
calls that passes live pointers and does not overflow a size. The list is ordered, disjoint, aligned
and in step with the pointers handed out, and no two contiguous free blocks are neighbours. A program
that leaves the break alone and gives everything back ends with one free block.
-/

namespace CLite

open ByteMemory FreeList CallRun

/-- What the block list and the pointers handed out have to do with each other. -/
structure HeapInvariant (state : State) (headers : List Header) : Prop where
  listed : state.heap.blockList = some headers
  ordered : headers.Pairwise fun a b => a.addr < b.addr
  disjoint : headers.Pairwise fun a b => a.addr + 16 + a.size ≤ b.addr
  below : ∀ h ∈ headers, h.addr + 16 + h.size ≤ state.heap.brk
  sizes : ∀ h ∈ headers, 0 < h.size ∧ 8 ∣ h.size
  magic : ∀ h ∈ headers, h.magic = BLOCK_MAGIC
  /-- Each live pointer has exactly one block, which is not free and holds the last request. -/
  block_of_live : ∀ ptr n, state.live ptr = some n →
    (∃! h, h ∈ headers ∧ h.addr + 16 = ptr) ∧ ∀ h ∈ headers, h.addr + 16 = ptr → h.free = 0 ∧ n ≤ h.size
  /-- Each block that is not free has its pointer among the live ones. -/
  live_of_block : ∀ h ∈ headers, h.free = 0 → ∃ n, state.live (h.addr + 16) = some n
  aligned : ∀ ptr n, state.live ptr = some n → 8 ∣ ptr

/-- The blocks follow one another without a gap from one address to another. -/
def Contiguous : ℕ → ℕ → List Header → Prop
  | lo, hi, [] => lo = hi
  | lo, hi, h :: headers => h.addr = lo ∧ Contiguous (h.addr + 16 + h.size) hi headers

/-- No two consecutive free blocks are contiguous in memory. -/
def Coalesced (headers : List Header) : Prop :=
  headers.IsChain fun a b => ¬ (a.free ≠ 0 ∧ b.free ≠ 0 ∧ a.addr + 16 + a.size = b.addr)

variable {state : State} {arena : Arena}

namespace Tracks

theorem heapInvariant (tracks : Tracks state arena) :
    HeapInvariant state (arena.blocks.map header) where
  listed := tracks.represents.blockList
  ordered := by
    refine List.pairwise_map.mpr (arena.layout.pairwise.imp fun {a b} before => ?_)
    simp only [Extent.stop, headerSize, header] at *
    omega
  disjoint := List.pairwise_map.mpr arena.layout.pairwise
  below := by
    simp only [List.mem_map, forall_exists_index, and_imp, forall_apply_eq_imp_iff₂,
      tracks.represents.brk]
    exact fun e member => (arena.bounds member).2
  sizes := by
    simp only [List.mem_map, forall_exists_index, and_imp, forall_apply_eq_imp_iff₂]
    exact fun e member => ⟨(arena.aligned e member).2.2, (arena.aligned e member).2.1⟩
  magic := by
    simp only [List.mem_map, forall_exists_index, and_imp, forall_apply_eq_imp_iff₂]
    exact fun e member => rfl
  block_of_live := by
    intro ptr n found
    obtain ⟨lower, size, enough, busy⟩ := tracks.accounts.busy_of_live found
    have unique : ∀ e ∈ arena.blocks, (header e).addr + 16 = ptr → e = ⟨ptr - 16, size, false⟩ :=
      fun e member at_ptr => arena.layout.eq_of_addr_eq (by decide) member busy (by
        simp only [header] at at_ptr ⊢
        omega)
    refine ⟨⟨header ⟨ptr - 16, size, false⟩, ⟨List.mem_map_of_mem busy, ?_⟩, ?_⟩, ?_⟩
    · simp only [header]
      omega
    · rintro h ⟨member, at_ptr⟩
      obtain ⟨e, present, rfl⟩ := List.mem_map.mp member
      rw [unique e present at_ptr]
    · intro h member at_ptr
      obtain ⟨e, present, rfl⟩ := List.mem_map.mp member
      rw [unique e present at_ptr]
      exact ⟨rfl, enough⟩
  live_of_block := by
    intro h member notFree
    obtain ⟨⟨addr, size, flag⟩, present, rfl⟩ := List.mem_map.mp member
    cases flag with
    | false => exact tracks.accounts.live_of_busy present
    | true => simp [header] at notFree
  aligned := by
    intro ptr n found
    obtain ⟨lower, size, -, busy⟩ := tracks.accounts.busy_of_live found
    have granule := (arena.aligned _ busy).1
    simp only at granule
    omega

end Tracks

/-- A pointer returned for a request is live afterwards, with that request on record. -/
theorem exec_live {call : Call} {n ret : ℕ} {next : State} (request : call.request = some n)
    (executed : exec state call = some (ret, next)) (served : ret ≠ 0) : next.live ret = some n := by
  cases call with
  | malloc | calloc | realloc =>
    obtain ⟨result, -, same⟩ := Option.map_eq_some_iff.mp executed
    obtain rfl := Option.some.inj request
    cases same
    simp [handOut, served]
  | free | sbrk | store => cases request

theorem Arena.coalesced (arena : Arena) : Coalesced (arena.blocks.map header) := by
  refine (List.isChain_map header).mpr (arena.merged.imp fun {a b} apart joined => apart ?_)
  simpa [Joinable, header, Extent.stop, headerSize] using joined

theorem contiguous_of_tiles {lo hi : ℕ} {es : List Extent} (layout : Tiles headerSize lo hi es) :
    Contiguous lo hi (es.map header) := by
  induction es generalizing lo with
  | nil => exact layout
  | cons e es ih => exact ⟨layout.1.symm, ih layout.2⟩

/-- After every sequence of calls with live pointers and small requests, interleaved with movements
of the break by the program itself, the block list is well formed and matches the pointers handed out;
when `malloc` is the only user of the break, the blocks fill the heap. -/
theorem heap_invariant (memory : Memory) (brk : ℕ) (positive : 0 < brk) (bound : brk < 2 ^ 32)
    (aligned : 8 ∣ brk) (calls : List Call)
    (permitted : Permitted step Disciplined (State.initial memory brk) calls) :
    ∃ state headers, runCalls (State.initial memory brk) calls = some state ∧
      HeapInvariant state headers ∧
      ((∀ call ∈ calls, ¬ call.IsSbrk) → Contiguous brk state.heap.brk headers) ∧
      ∀ call n ret next, Disciplined state call → call.request = some n →
        exec state call = some (ret, next) → 8 ∣ ret := by
  have start := initial_tracks memory positive bound aligned
  have guarded := permitted.mono fun _ _ => Disciplined.guarded
  obtain ⟨state, arena, finished, tracks⟩ := run_tracks start guarded
  refine ⟨state, arena.blocks.map header, finished, tracks.heapInvariant, fun sole => ?_, ?_⟩
  · obtain ⟨final, after, finished', tracks', layout⟩ := run_tiles start guarded sole brk rfl
    obtain rfl : state = final := Option.some.inj (finished.symm.trans finished')
    have same := Option.some.inj (tracks.represents.blockList.symm.trans tracks'.represents.blockList)
    rw [same, tracks'.represents.brk]
    exact contiguous_of_tiles layout
  · intro call n ret next disciplined request executed
    obtain ⟨ret', next', after, outcome⟩ := exec_step tracks disciplined.guarded
    obtain ⟨rfl, rfl⟩ : ret' = ret ∧ next' = next := by
      simpa using outcome.executed.symm.trans executed
    by_cases null : ret' = 0
    · exact null ▸ dvd_zero 8
    · exact outcome.tracks.heapInvariant.aligned ret' n (exec_live request executed null)

/-- A kernel that grants every movement of the break. -/
def granting : Kernel := fun _ target => target

/-- A kernel that grants none. -/
def refusing : Kernel := fun brk _ => brk

/-- The pointer of the first allocation in a heap that starts at page one. -/
private theorem malloc_ten_live :
    (step (State.initial (fun _ => 0) 4096) (.malloc granting 10)).bind (·.live 4112) = some 10 := by
  decide

/-- A run that allocates ten bytes and gives them back. -/
theorem malloc_free_disciplined :
    Permitted step Disciplined (State.initial (fun _ => 0) 4096)
      [.malloc granting 10, .free 4112] := by
  refine ⟨⟨trivial, show 16 + rounded 10 < 2 ^ 31 by decide⟩, fun next executed => ?_⟩
  have live : next.live 4112 = some 10 := by
    simpa only [executed, Option.bind_some] using malloc_ten_live
  exact ⟨⟨.inr ⟨10, live⟩, trivial⟩, fun _ _ => trivial⟩

theorem heap_invariant_malloc_free :
    ∃ state headers,
      runCalls (State.initial (fun _ => 0) 4096) [.malloc granting 10, .free 4112] = some state ∧
      HeapInvariant state headers ∧ Contiguous 4096 state.heap.brk headers := by
  obtain ⟨state, headers, finished, invariant, contiguous, -⟩ :=
    heap_invariant (fun _ => 0) 4096 (by decide) (by decide) (by decide)
      [.malloc granting 10, .free 4112] malloc_free_disciplined
  exact ⟨state, headers, finished, invariant, contiguous (by simp [Call.IsSbrk])⟩

/-! ## Coalescing -/

/-- A request that some free block can hold is served from the list, whatever the kernel would do. -/
theorem malloc_fit {heap : Heap} {n : ℕ} (kernel : Kernel) (represents : Represents heap arena)
    {e : Extent} (member : e ∈ arena.blocks) (free : e.free = true) (fits : rounded n ≤ e.size)
    (request : n ≠ 0) :
    ∃ ptr memory, malloc kernel heap n = some (ptr, { heap with mem := memory }) ∧ ptr ≠ 0 := by
  have inside := (arena.bounds member).2
  have bound := arena.brk_lt
  have size : roundUp n = rounded n := roundUp_eq (by have := le_rounded n; omega)
  rw [malloc, if_neg request]
  rcases mallocScan_spec (roundUp n) represents.chain arena.addr_ne_zero arena.length_lt 0 with
    ⟨pre, b, post, shape, -, -, -, found⟩ | ⟨unfit, -⟩
  · have inside := (arena.bounds (show b ∈ arena.blocks by simp [shape])).2
    refine ⟨_, _, by simp only [found]; rfl, ?_⟩
    rw [headerSize, wrap_of_lt (by omega)]
    omega
  · have small := unfit e member free
    omega

/-- No block is busy when no pointer is live. -/
theorem Tracks.all_free (tracks : Tracks state arena) (returned : ∀ ptr, state.live ptr = none) :
    ∀ e ∈ arena.blocks, e.free = true := by
  rintro ⟨addr, size, flag⟩ member
  cases flag with
  | true => rfl
  | false =>
    obtain ⟨n, found⟩ := tracks.accounts.live_of_busy member
    simp [returned] at found

/-- The request of any call that a program without live pointers may make is served from a free block
that can hold it, and the break stays where it is. -/
theorem exec_fit {call : Call} {n : ℕ} (tracks : Tracks state arena)
    (returned : ∀ ptr, state.live ptr = none) (respects : Respects state call)
    (request : call.request = some n) {e : Extent} (member : e ∈ arena.blocks) (free : e.free = true)
    (fits : rounded n ≤ e.size) :
    ∃ ret next, exec state call = some (ret, next) ∧ (n ≠ 0 → ret ≠ 0) ∧
      next.heap.brk = state.heap.brk := by
  have served (kernel : Kernel) : ∃ ptr memory,
      malloc kernel state.heap n = some (ptr, { state.heap with mem := memory }) ∧ (n ≠ 0 → ptr ≠ 0) := by
    by_cases zero : n = 0
    · exact ⟨0, state.heap.mem, by simp [malloc, zero], fun nonzero => (nonzero zero).elim⟩
    · obtain ⟨ptr, memory, allocated, nonnull⟩ :=
        malloc_fit kernel tracks.represents member free fits zero
      exact ⟨ptr, memory, allocated, fun _ => nonnull⟩
  cases call with
  | malloc kernel m =>
    obtain rfl := Option.some.inj request
    obtain ⟨ptr, memory, allocated, nonnull⟩ := served kernel
    simp only [exec, allocated]
    exact ⟨ptr, _, rfl, nonnull, rfl⟩
  | calloc kernel nmemb size =>
    obtain rfl := Option.some.inj request
    obtain ⟨ptr, memory, allocated, nonnull⟩ := served kernel
    have inside := (arena.bounds member).2
    have small : nmemb * size < 2 ^ 32 := by
      have := le_rounded (nmemb * size)
      have := arena.brk_lt
      omega
    have unchecked : ¬ (nmemb ≠ 0 ∧ (2 ^ 32 - 1) / nmemb < size) := by
      rw [calloc_check]
      omega
    simp only [exec, calloc, if_neg unchecked, wrap_of_lt small, allocated]
    by_cases null : ptr = 0
    · rw [if_neg (not_not.mpr null)]
      exact ⟨ptr, _, rfl, nonnull, rfl⟩
    · rw [if_pos null]
      exact ⟨ptr, _, rfl, nonnull, rfl⟩
  | realloc kernel ptr m =>
    obtain rfl := Option.some.inj request
    obtain rfl : ptr = 0 := by
      apply respects.resolve_right
      rintro ⟨old, found⟩
      simp [returned] at found
    obtain ⟨ptr, memory, allocated, nonnull⟩ := served kernel
    simp only [exec, realloc, if_true, allocated]
    exact ⟨ptr, _, rfl, nonnull, rfl⟩
  | free | sbrk | store => cases request

/-- After every guarded run no two contiguous free blocks are neighbours. When `malloc` is the only
user of the break and everything has been given back, the list is empty if the break never moved, and
otherwise it is one free block that covers the heap and serves every request it can hold. -/
theorem fully_coalesced (memory : Memory) (brk : ℕ) (positive : 0 < brk) (bound : brk < 2 ^ 32)
    (aligned : 8 ∣ brk) (calls : List Call)
    (permitted : Permitted step Guarded (State.initial memory brk) calls) :
    ∃ state headers, runCalls (State.initial memory brk) calls = some state ∧
      state.heap.blockList = some headers ∧ Coalesced headers ∧
      ((∀ call ∈ calls, ¬ call.IsSbrk) → (∀ ptr, state.live ptr = none) →
        (state.heap.brk = brk → headers = []) ∧
        (state.heap.brk ≠ brk → ∃ size, headers = [⟨brk, size, 1, BLOCK_MAGIC⟩] ∧
          brk + 16 + size = state.heap.brk ∧
          ∀ call n, Respects state call → call.request = some n → rounded n ≤ size →
            ∃ ret next, exec state call = some (ret, next) ∧ (n ≠ 0 → ret ≠ 0) ∧
              next.heap.brk = state.heap.brk)) := by
  have start := initial_tracks memory positive bound aligned
  obtain ⟨state, arena, finished, tracks⟩ := run_tracks start permitted
  refine ⟨state, arena.blocks.map header, finished, tracks.represents.blockList, arena.coalesced,
    fun sole returned => ?_⟩
  obtain ⟨final, after, finished', tracks', layout⟩ := run_tiles start permitted sole brk rfl
  obtain rfl : state = final := Option.some.inj (finished.symm.trans finished')
  have same := Option.some.inj (tracks.represents.blockList.symm.trans tracks'.represents.blockList)
  have top := tracks'.represents.brk
  rw [same]
  rcases after.merged.all_free layout (tracks'.all_free returned) with ⟨empty, still⟩ |
    ⟨⟨addr, size, flag⟩, single, flagged, place, ends⟩
  · exact ⟨fun _ => by rw [empty]; rfl, fun moved => (moved (by rw [top, still])).elim⟩
  · simp only [Extent.stop, headerSize, ← top] at flagged place ends
    subst flagged place
    refine ⟨fun unmoved => by omega, fun _ => ⟨size, by rw [single]; rfl, ends, ?_⟩⟩
    intro call n respects request fits
    exact exec_fit tracks' returned respects request (by rw [single]; exact List.mem_singleton_self _)
      rfl fits

/-- A run that allocates nothing ends with an empty list, not with a free block. -/
theorem refused_run_empty :
    Permitted step Guarded (State.initial (fun _ => 0) 4096) [.malloc refusing 8] ∧
      ∃ state, runCalls (State.initial (fun _ => 0) 4096) [.malloc refusing 8] = some state ∧
        (∀ ptr, state.live ptr = none) ∧ ¬ ∃ h, state.heap.blockList = some [h] := by
  refine ⟨⟨⟨trivial, small_safe _ _ (show 16 + rounded 8 < 2 ^ 31 by decide)⟩, fun _ _ => trivial⟩,
    State.initial (fun _ => 0) 4096, rfl, fun _ => rfl, ?_⟩
  rintro ⟨h, listed⟩
  cases listed

private theorem malloc_free_run :
    ∃ heap, runCalls (State.initial (fun _ => 0) 4096) [.malloc granting 10, .free 4112] =
      some ⟨heap, giveBack (handOut (fun _ => none) 4112 10) 4112⟩ ∧ heap.brk = 4128 :=
  ⟨_, rfl, rfl⟩

theorem fully_coalesced_malloc_free :
    ∃ state, runCalls (State.initial (fun _ => 0) 4096) [.malloc granting 10, .free 4112] = some state ∧
      state.heap.blockList = some [⟨4096, 16, 1, BLOCK_MAGIC⟩] ∧
      ∃ ret next, exec state (.malloc refusing 16) = some (ret, next) ∧ ret ≠ 0 ∧
        next.heap.brk = state.heap.brk := by
  obtain ⟨heap, known, top⟩ := malloc_free_run
  obtain ⟨state, headers, finished, listed, -, returned⟩ :=
    fully_coalesced (fun _ => 0) 4096 (by decide) (by decide) (by decide)
      [.malloc granting 10, .free 4112] (malloc_free_disciplined.mono fun _ _ => Disciplined.guarded)
  obtain rfl := Option.some.inj (finished.symm.trans known)
  have nothing : ∀ ptr, giveBack (handOut (fun _ => none) 4112 10) 4112 ptr = none := by
    simp [giveBack, handOut]
  obtain ⟨size, rfl, covers, serves⟩ :=
    (returned (by simp [Call.IsSbrk]) nothing).2 (by simp only [top]; decide)
  obtain rfl : size = 16 := by simp only [top] at covers; omega
  obtain ⟨ret, next, executed, served, still⟩ := serves (.malloc refusing 16) 16 trivial rfl (by decide)
  exact ⟨_, finished, listed, ret, next, executed, served (by decide), still⟩

end CLite
