import CLite.Proofs.Nested
import CLite.Soundness.HeapInvariant

/-! # Nested allocations

A program that frees in the reverse order of its allocations leaves no trace on a heap that has room for it. What it
took from the kernel stays behind as one free block. The block is large enough to run the program again, and again, as
long as no request is so small that the space for it may have been added to another block.
-/

namespace CLite

open ByteMemory FreeList CallRun

variable {arena after : Arena}

/-- The list when the break has moved up and what lies between is free: one more block, or a longer last one. -/
def regained (headers : List Header) (brk top : ℕ) : List Header :=
  if top = brk then headers
  else
    match headers.getLast? with
    | none => [⟨brk, top - brk - 16, 1, BLOCK_MAGIC⟩]
    | some last =>
      if last.free ≠ 0 ∧ last.addr + 16 + last.size = brk then
        headers.dropLast ++ [{ last with size := top - last.addr - 16 }]
      else headers ++ [⟨brk, top - brk - 16, 1, BLOCK_MAGIC⟩]

theorem Regains.regained_eq (regains : Regains arena after) :
    after.blocks.map header = regained (arena.blocks.map header) arena.brk after.brk := by
  rw [regained]
  split
  · next same => rw [regains.eq_of_brk same]
  · next moved =>
    have larger : arena.brk < after.brk := Nat.lt_of_le_of_ne regains.wide.le (Ne.symm moved)
    rcases regains.shape with ⟨front, last, shape, free, stop, -, blocks⟩ | ⟨loose, blocks⟩
    · have place : last.addr + 16 + last.size = arena.brk := stop
      rw [blocks, gap_of_lt (by omega), shape, List.map_append, List.map_append]
      simp [header, free, place, headerSize]
    · rw [blocks, gap_of_lt larger]
      rcases List.eq_nil_or_concat arena.blocks with empty | ⟨front, last, shape⟩
      · rw [empty]
        rfl
      · rw [List.concat_eq_append] at shape
        have apart := loose last (by rw [shape, List.getLast?_concat]; rfl)
        have unjoined : ¬((header last).free ≠ 0 ∧ (header last).addr + 16 + (header last).size = arena.brk) := by
          rintro ⟨flag, touch⟩
          exact apart (by simpa [header] using flag) touch
        rw [shape, List.map_append, List.map_append, List.map_singleton, List.map_singleton, List.getLast?_concat]
        simp only [if_neg unjoined]
        rfl

/-- In every heap that a run of safe requests reaches, a nested program that is served leaves the blocks as they were,
with what it took from the kernel as free space behind them. The pointers that were live are live, no others are, and
their bytes are unchanged. -/
theorem nested_restores (memory : Memory) (brk : ℕ) (positive : 0 < brk) (bound : brk < 2 ^ 32) (aligned : 8 ∣ brk)
    (calls : List Call) (permitted : Permitted step Guarded (State.initial memory brk) calls) (program : Nested)
    (inScope : program.Scoped []) (small : program.Requests SmallRequest) :
    ∃ state headers, runCalls (State.initial memory brk) calls = some state ∧
      state.heap.blockList = some headers ∧
      ∀ kernel final, program.run kernel [] state = some final →
        final.heap.blockList = some (regained headers state.heap.brk final.heap.brk) ∧ final.live = state.live ∧
        ∀ ptr n, state.live ptr = some n → ∀ i < n, final.heap.mem (ptr + i) = state.heap.mem (ptr + i) := by
  obtain ⟨state, arena, finished, tracks⟩ := run_tracks (initial_tracks memory positive bound aligned) permitted
  refine ⟨state, arena.blocks.map header, finished, tracks.represents.blockList, ?_⟩
  intro kernel final ran
  obtain ⟨after, tracks', nests, live, keep⟩ := run_nests tracks .nil inScope small ran
  refine ⟨?_, live, ?_⟩
  · rw [tracks'.represents.blockList, nests.regains.regained_eq, tracks.represents.brk, tracks'.represents.brk]
  · intro ptr n found i within
    obtain ⟨lower, size, large, busy⟩ := tracks.accounts.busy_of_live found
    exact keep _ ⟨ptr - 16, size, busy, List.not_mem_nil, by omega, by omega⟩

/-- A block of a hundred bytes with another one inside of it, and stores into both. -/
def nestedSample : Nested :=
  .block 100 (.block 20 (.store 0 19 7 (.store 1 99 7 .done)) .done) .done

theorem nestedSample_run :
    ∃ final, nestedSample.run granting [] (State.initial (fun _ => 0) 4096) = some final ∧ final.heap.brk = 4256 :=
  ⟨_, rfl, rfl⟩

theorem nestedSample_scoped : nestedSample.Scoped [] :=
  ⟨⟨⟨⟨20, rfl, by decide⟩, ⟨100, rfl, by decide⟩, trivial⟩, trivial⟩, trivial⟩

theorem nestedSample_requests : nestedSample.Requests fun n => SmallRequest n ∧ 8 < n := by
  have small (n : ℕ) (bound : n ≤ 100) : SmallRequest n := by
    simp only [SmallRequest, rounded]
    omega
  exact ⟨⟨small 100 (by decide), by decide⟩, ⟨⟨small 20 (by decide), by decide⟩, trivial, trivial⟩, trivial⟩

theorem Nested.Requests.mono {P Q : ℕ → Prop} {program : Nested} (requests : program.Requests P)
    (weaker : ∀ n, P n → Q n) : program.Requests Q := by
  induction program with
  | done => trivial
  | store depth offset value rest ih => exact ih requests
  | block n inner rest ih ih' => exact ⟨weaker n requests.1, ih requests.2.1, ih' requests.2.2⟩

theorem nested_restores_sample :
    ∃ final, nestedSample.run granting [] (State.initial (fun _ => 0) 4096) = some final ∧
      final.heap.blockList = some [⟨4096, 144, 1, BLOCK_MAGIC⟩] := by
  obtain ⟨final, ran, top⟩ := nestedSample_run
  obtain ⟨state, headers, start, listed, restores⟩ := nested_restores (fun _ => 0) 4096 (by decide) (by decide)
    (by decide) [] trivial nestedSample nestedSample_scoped (nestedSample_requests.mono fun _ both => both.1)
  obtain rfl : State.initial (fun _ => 0) 4096 = state := Option.some.inj start
  obtain rfl : [] = headers := Option.some.inj listed
  have left := (restores granting final ran).1
  rw [top] at left
  exact ⟨final, ran, left⟩

theorem Nests.repeats {kernel : Kernel} {program : Nested} {state : State} (nests : Nests kernel program arena after)
    (tracks : Tracks state after) (inScope : program.Scoped [])
    (requests : program.Requests fun n => SmallRequest n ∧ 8 < n) (kernels : List Kernel) :
    ∃ last, run (fun state kernel => program.run kernel [] state) state kernels = some last ∧ Tracks last after := by
  induction kernels generalizing state with
  | nil => exact ⟨state, rfl, tracks⟩
  | cons kernel' kernels ih =>
    obtain ⟨next, ran, tracks', -⟩ :=
      nests.again kernel' nests.regains.mirrored (Nat.le_refl _) tracks .nil inScope requests
    obtain ⟨last, repeated, tracks''⟩ := ih tracks'
    refine ⟨last, ?_, tracks''⟩
    rw [run_cons, ran]
    exact repeated

/-- A nested program whose requests are of more than eight bytes runs a second time, and any number of times, in what
the first run has left: whatever the kernel does, the break stays where it is, and so do the blocks. -/
theorem nested_repeats (memory : Memory) (brk : ℕ) (positive : 0 < brk) (bound : brk < 2 ^ 32) (aligned : 8 ∣ brk)
    (calls : List Call) (permitted : Permitted step Guarded (State.initial memory brk) calls) (program : Nested)
    (inScope : program.Scoped []) (requests : program.Requests fun n => SmallRequest n ∧ 8 < n) :
    ∃ state, runCalls (State.initial memory brk) calls = some state ∧
      ∀ kernel first, program.run kernel [] state = some first →
        ∀ kernels, ∃ last, run (fun state kernel => program.run kernel [] state) first kernels = some last ∧
          last.heap.brk = first.heap.brk ∧ last.heap.blockList = first.heap.blockList := by
  obtain ⟨state, arena, finished, tracks⟩ := run_tracks (initial_tracks memory positive bound aligned) permitted
  refine ⟨state, finished, ?_⟩
  intro kernel first ran kernels
  obtain ⟨after, tracks', nests, -⟩ := run_nests tracks .nil inScope (requests.mono fun _ both => both.1) ran
  obtain ⟨last, repeated, tracks''⟩ := nests.repeats tracks' inScope requests kernels
  refine ⟨last, repeated, ?_, ?_⟩
  · rw [tracks''.represents.brk, tracks'.represents.brk]
  · rw [tracks''.represents.blockList, tracks'.represents.blockList]

theorem nested_repeats_sample :
    ∃ first last, nestedSample.run granting [] (State.initial (fun _ => 0) 4096) = some first ∧
      run (fun state kernel => nestedSample.run kernel [] state) first [refusing, refusing] = some last ∧
      last.heap.brk = 4256 := by
  obtain ⟨first, ran, top⟩ := nestedSample_run
  obtain ⟨state, start, again⟩ := nested_repeats (fun _ => 0) 4096 (by decide) (by decide)
    (by decide) [] trivial nestedSample nestedSample_scoped nestedSample_requests
  obtain rfl : State.initial (fun _ => 0) 4096 = state := Option.some.inj start
  obtain ⟨last, repeated, same, -⟩ := again granting first ran [refusing, refusing]
  exact ⟨first, last, ran, repeated, same.trans top⟩

/-- With a request of eight bytes: the space for it goes to the block of a hundred bytes in the second run. -/
example : ((Nested.block 100 (.block 8 .done .done) .done).run granting [] (State.initial (fun _ => 0) 4096)).bind
    ((Nested.block 100 (.block 8 .done .done) .done).run refusing []) = none := rfl

end CLite
