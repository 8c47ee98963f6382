import CLite.Soundness.HeapInvariant

/-! # The order of frees

Each `free` merges the whole list, so the lists between two frees depend on the order. The list at the end does
not: it is the merge of the list in which all the blocks are marked. A second `free` of a pointer marks what is
free already. Both need a heap that represents an arena, and requests that wrap can lead to one that does not.
-/

namespace CLite

open ByteMemory FreeList CallRun

variable {heap : Heap} {live : ℕ → Option ℕ} {arena : Arena}

/-- Give the pointers back one after another. -/
def freeAll (heap : Heap) (ptrs : List ℕ) : Option Heap := run free heap ptrs

def Arena.releaseAll (arena : Arena) (ptrs : List ℕ) : Arena :=
  ptrs.foldl (fun arena ptr => arena.release (ptr - 16)) arena

theorem Arena.releaseAll_blocks (arena : Arena) (ptrs : List ℕ) :
    (arena.releaseAll ptrs).blocks =
      merge headerSize (FreeList.releaseAll (ptrs.map (· - 16)) arena.blocks) := by
  induction ptrs generalizing arena with
  | nil => exact arena.merged.merge_eq.symm
  | cons ptr ptrs ih =>
    rw [show arena.releaseAll (ptr :: ptrs) = (arena.release (ptr - 16)).releaseAll ptrs from rfl, ih,
      Arena.release_blocks, merge_releaseAll_merge]
    rfl

/-- Distinct live pointers can all be given back, and the heap then is the arena with all of them released. -/
theorem freeAll_refines (tracks : Tracks ⟨heap, live⟩ arena) {ptrs : List ℕ} (distinct : ptrs.Nodup)
    (all_live : ∀ ptr ∈ ptrs, ∃ n, live ptr = some n) :
    ∃ heap', freeAll heap ptrs = some heap' ∧ Represents heap' (arena.releaseAll ptrs) := by
  induction ptrs generalizing heap live arena with
  | nil => exact ⟨heap, rfl, tracks.represents⟩
  | cons ptr ptrs ih =>
    obtain ⟨fresh, distinct⟩ := List.nodup_cons.mp distinct
    obtain ⟨n, found⟩ := all_live ptr (List.mem_cons_self ..)
    obtain ⟨lower, size, -, busy⟩ := tracks.accounts.busy_of_live found
    obtain ⟨heap', returned, represents, -⟩ := free_refines tracks.represents lower busy
    have later : ∀ other ∈ ptrs, ∃ n, giveBack live ptr other = some n := by
      intro other member
      have different : other ≠ ptr := by
        rintro rfl
        exact fresh member
      obtain ⟨m, still⟩ := all_live other (List.mem_cons_of_mem _ member)
      exact ⟨m, by rw [giveBack, Function.update_of_ne different, still]⟩
    obtain ⟨final, finished, holds⟩ := ih ⟨represents, tracks.accounts.giveBack lower⟩ distinct later
    refine ⟨final, ?_, holds⟩
    rw [freeAll, run_cons, returned]
    exact finished

/-- The two heaps have the same list of blocks, with addresses, sizes and flags. -/
def SameList (first second : Heap) : Prop :=
  ∃ headers, first.blockList = some headers ∧ second.blockList = some headers

theorem freeAll_perm (tracks : Tracks ⟨heap, live⟩ arena) {first second : List ℕ} (distinct : first.Nodup)
    (all_live : ∀ ptr ∈ first, ∃ n, live ptr = some n) (same : first.Perm second) :
    ∃ heap₁ heap₂, freeAll heap first = some heap₁ ∧ freeAll heap second = some heap₂ ∧ SameList heap₁ heap₂ := by
  obtain ⟨heap₁, finished₁, represents₁⟩ := freeAll_refines tracks distinct all_live
  obtain ⟨heap₂, finished₂, represents₂⟩ := freeAll_refines tracks (same.nodup_iff.mp distinct)
    fun ptr member => all_live ptr (same.mem_iff.mpr member)
  refine ⟨heap₁, heap₂, finished₁, finished₂, _, represents₁.blockList, ?_⟩
  rw [represents₂.blockList, Arena.releaseAll_blocks, Arena.releaseAll_blocks,
    releaseAll_perm (same.map (· - 16))]

theorem free_twice (tracks : Tracks ⟨heap, live⟩ arena) {ptr n : ℕ} (found : live ptr = some n) :
    ∃ heap₁ heap₂, free heap ptr = some heap₁ ∧ free heap₁ ptr = some heap₂ ∧ SameList heap₁ heap₂ := by
  obtain ⟨lower, size, -, busy⟩ := tracks.accounts.busy_of_live found
  obtain ⟨heap₁, returned₁, represents₁, -⟩ := free_refines tracks.represents lower busy
  obtain ⟨heap₂, returned₂, represents₂⟩ := free_again represents₁ lower busy
  exact ⟨heap₁, heap₂, returned₁, returned₂, _, represents₁.blockList, represents₂.blockList⟩

/-- In every heap that a run of safe requests reaches, freeing distinct live pointers in any two orders ends in
the same list, and freeing a pointer again directly afterwards changes nothing in it. -/
theorem frees_commute (memory : Memory) (brk : ℕ) (positive : 0 < brk) (bound : brk < 2 ^ 32)
    (aligned : 8 ∣ brk) (calls : List Call)
    (permitted : Permitted step Guarded (State.initial memory brk) calls) :
    ∃ state, runCalls (State.initial memory brk) calls = some state ∧
      (∀ first second : List ℕ, first.Nodup → (∀ ptr ∈ first, ∃ n, state.live ptr = some n) →
        first.Perm second → ∃ heap₁ heap₂, freeAll state.heap first = some heap₁ ∧
          freeAll state.heap second = some heap₂ ∧ SameList heap₁ heap₂) ∧
      ∀ ptr n, state.live ptr = some n → ∃ heap₁ heap₂, free state.heap ptr = some heap₁ ∧
        free heap₁ ptr = some heap₂ ∧ SameList heap₁ heap₂ := by
  obtain ⟨state, arena, finished, tracks⟩ :=
    run_tracks (initial_tracks memory positive bound aligned) permitted
  refine ⟨state, finished, ?_, ?_⟩
  · intro first second distinct all_live same
    exact freeAll_perm tracks distinct all_live same
  · intro ptr n found
    exact free_twice tracks found

/-- Two blocks of eight bytes. -/
private theorem two_blocks_run :
    ∃ state, runCalls (State.initial (fun _ => 0) 4096) [.malloc granting 8, .malloc granting 8] = some state ∧
      state.live 4112 = some 8 ∧ state.live 4136 = some 8 :=
  ⟨_, rfl, rfl, rfl⟩

theorem frees_commute_two_blocks :
    ∃ state, runCalls (State.initial (fun _ => 0) 4096) [.malloc granting 8, .malloc granting 8] = some state ∧
      ∃ heap₁ heap₂, freeAll state.heap [4112, 4136] = some heap₁ ∧
        freeAll state.heap [4136, 4112] = some heap₂ ∧ SameList heap₁ heap₂ := by
  obtain ⟨known, ran, first, second⟩ := two_blocks_run
  have small (kernel : Kernel) (heap : Heap) : SafeRequest kernel heap 8 :=
    small_safe kernel heap (show 16 + rounded 8 < 2 ^ 31 by decide)
  obtain ⟨state, finished, orders, -⟩ := frees_commute (fun _ => 0) 4096 (by decide) (by decide) (by decide)
    [.malloc granting 8, .malloc granting 8]
    ⟨⟨trivial, small _ _⟩, fun _ _ => ⟨⟨trivial, small _ _⟩, fun _ _ => trivial⟩⟩
  obtain rfl := Option.some.inj (finished.symm.trans ran)
  refine ⟨state, finished, orders _ _ (by decide) ?_ (.swap _ _ _)⟩
  intro ptr member
  rcases List.mem_pair.mp member with rfl | rfl
  · exact ⟨8, first⟩
  · exact ⟨8, second⟩

/-! ## Requests that wrap -/

/-- The loop does not leave a block that is its own successor. -/
theorem freeLoop_self {memory : Memory} {block : ℕ} (nonnull : block ≠ 0) (itself : nextOf memory block = block)
    (apart : wrap (block + headerSize + sizeOf memory block) ≠ block) (fuel : ℕ) :
    freeLoop fuel memory block = none := by
  induction fuel with
  | zero => rfl
  | succ fuel ih =>
    rw [freeLoop, itself, if_neg (by simpa using nonnull), if_neg (fun joined => apart joined.2), ih]

private theorem self_loop_run :
    ∃ state, runCalls (State.initial (fun _ => 0) 4096) [.malloc granting 0xFFFFFFF0, .malloc granting 8] =
        some state ∧
      state.live 4112 = some 8 ∧ state.heap.freeList = 4096 ∧ magicOf state.heap.mem 4096 = BLOCK_MAGIC ∧
      nextOf (setFree state.heap.mem 4096 1) 4096 = 4096 ∧ sizeOf (setFree state.heap.mem 4096 1) 4096 = 8 :=
  ⟨_, rfl, rfl, rfl, by decide, by decide, by decide⟩

/-- A request of `2 ^ 32 - 16` bytes makes `sbrk` move nothing, so the next block overwrites its header and
becomes its own successor: freeing it does not return. -/
theorem free_after_wrap_does_not_return :
    Permitted step Respects (State.initial (fun _ => 0) 4096) [.malloc granting 0xFFFFFFF0, .malloc granting 8] ∧
      ∃ state, runCalls (State.initial (fun _ => 0) 4096) [.malloc granting 0xFFFFFFF0, .malloc granting 8] =
          some state ∧
        state.live 4112 = some 8 ∧ freeAll state.heap [4112] = none := by
  obtain ⟨state, finished, live, head, magic, itself, size⟩ := self_loop_run
  refine ⟨⟨trivial, fun _ _ => ⟨trivial, fun _ _ => trivial⟩⟩, state, finished, live, ?_⟩
  have header : headerOf 4112 = 4096 := by decide
  have stuck : free state.heap 4112 = none := by
    rw [free, if_neg (by decide)]
    simp only [header, magic, head, ne_eq, not_true_eq_false, ↓reduceIte]
    rw [freeLoop_self (by decide) itself (by rw [size]; decide)]
    rfl
  rw [freeAll, run_cons, stuck]
  rfl

end CLite
