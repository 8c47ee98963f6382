import CLite.Soundness.HeapInvariant

/-! # What a client may rely on

A pointer returned for a request leads to a block of at least that size below the break, a refused
request changes nothing, and no request lowers the break: this holds in every run whose requests are
safe, and a request near the end of the 32-bit range shows why safety is needed. The bytes a client
owns survive every allocator call, and `realloc` carries them over.
-/

namespace CLite

open ByteMemory FreeList CallRun

/-- What an allocator call promises about its request, its result and the heaps around it. -/
structure SizeContract (before : Heap) (n ret : ℕ) (after : Heap) : Prop where
  granted : ret ≠ 0 → n ≤ after.blockSize ret ∧ ret + after.blockSize ret ≤ after.brk
  refused : ret = 0 → n ≠ 0 → after = before
  brk : before.brk ≤ after.brk

variable {state next : State} {arena after : Arena} {call : Call} {n ret : ℕ}

theorem CallOutcome.sizeContract (outcome : CallOutcome state arena call ret next after)
    (tracks : Tracks state arena) (request : call.request = some n) :
    SizeContract state.heap n ret next.heap where
  granted := by
    intro served
    have live := exec_live request outcome.executed served
    obtain ⟨lower, size, enough, busy⟩ := outcome.tracks.accounts.busy_of_live live
    have inside := (after.bounds busy).2
    simp only at inside
    rw [outcome.tracks.represents.blockSize lower busy, outcome.tracks.represents.brk]
    exact ⟨enough, by omega⟩
  refused := fun null => outcome.null null n request
  brk := by
    rw [tracks.represents.brk, outcome.tracks.represents.brk]
    exact outcome.brk

/-- In every run of safe requests, each further safe request returns and keeps the size contract. -/
theorem size_contract (memory : Memory) (brk : ℕ) (positive : 0 < brk) (bound : brk < 2 ^ 32)
    (aligned : 8 ∣ brk) (calls : List Call)
    (permitted : Permitted step Guarded (State.initial memory brk) calls) :
    ∃ state, runCalls (State.initial memory brk) calls = some state ∧
      ∀ call n, Guarded state call → call.request = some n →
        ∃ ret next, exec state call = some (ret, next) ∧ SizeContract state.heap n ret next.heap := by
  obtain ⟨state, arena, finished, tracks⟩ :=
    run_tracks (initial_tracks memory positive bound aligned) permitted
  refine ⟨state, finished, fun call n guarded request => ?_⟩
  obtain ⟨ret, next, after, outcome⟩ := exec_step tracks guarded
  exact ⟨ret, next, outcome.executed, outcome.sizeContract tracks request⟩

theorem size_contract_malloc_free :
    ∃ state, runCalls (State.initial (fun _ => 0) 4096) [.malloc granting 10, .free 4112] = some state ∧
      ∃ ret next, exec state (.malloc granting 100) = some (ret, next) ∧
        SizeContract state.heap 100 ret next.heap := by
  obtain ⟨state, finished, contract⟩ :=
    size_contract (fun _ => 0) 4096 (by decide) (by decide) (by decide)
      [.malloc granting 10, .free 4112] (malloc_free_disciplined.mono fun _ _ => Disciplined.guarded)
  exact ⟨state, finished, contract (.malloc granting 100) 100
    ⟨trivial, small_safe _ _ (show 16 + rounded 100 < 2 ^ 31 by decide)⟩ rfl⟩

/-- The largest request rounds up to zero: `malloc` reports success with a block of size zero. -/
theorem malloc_max_breaks_contract :
    ∃ ret next, exec (State.initial (fun _ => 0) 4096) (.malloc granting 0xFFFFFFFF) = some (ret, next) ∧
      ret ≠ 0 ∧ next.heap.blockSize ret = 0 ∧
      ¬ SizeContract (State.initial (fun _ => 0) 4096).heap 0xFFFFFFFF ret next.heap := by
  refine ⟨4112, _, rfl, by decide, ?_, fun contract => ?_⟩
  · decide
  · exact absurd (contract.granted (by decide)).1 (by decide)

/-! ## User data -/

/-- A byte of a live pointer's payload is owned by a client. -/
theorem Tracks.payload (tracks : Tracks state arena) {ptr m i : ℕ} (live : state.live ptr = some m)
    (inside : i < state.heap.blockSize ptr) : arena.Payload (ptr + i) := by
  obtain ⟨lower, size, -, busy⟩ := tracks.accounts.busy_of_live live
  rw [tracks.represents.blockSize lower busy] at inside
  exact ⟨_, busy, rfl, by simp only; omega, by simp only; omega⟩

/-- `realloc` of a live pointer: success carries the old bytes over, failure leaves the pointer live. -/
theorem realloc_carries {kernel : Kernel} {ptr m : ℕ} (tracks : Tracks state arena)
    (guarded : Guarded state (.realloc kernel ptr n)) (live : state.live ptr = some m)
    (executed : exec state (.realloc kernel ptr n) = some (ret, next)) :
    (ret ≠ 0 → ∀ i < min (state.heap.blockSize ptr) n,
      next.heap.mem (ret + i) = state.heap.mem (ptr + i)) ∧
    (ret = 0 → n ≠ 0 → next.live ptr = some m) := by
  obtain ⟨lower, size, -, busy⟩ := tracks.accounts.busy_of_live live
  have known := tracks.represents.blockSize lower busy
  obtain ⟨ret', heap', after, returned, -, outcome, -⟩ :=
    realloc_step tracks lower busy fun larger => guarded.2 (.inr (by rw [known]; exact larger))
  simp only [exec, returned, Option.map_some, Option.some.injEq, Prod.mk.injEq] at executed
  obtain ⟨rfl, rfl⟩ := executed
  refine ⟨fun served i inside => ?_, fun null request => by simp only [if_pos (And.intro null request), live]⟩
  rw [known] at inside
  cases outcome with
  | released | refused => exact (served rfl).elim
  | kept => rfl
  | moved _ _ _ _ copied => exact copied i (by omega)

/-- After every run of safe requests, no allocator call changes a byte of a live payload, a successful
`realloc` carries the old bytes over, and a failed one leaves the pointer live. -/
theorem user_data_preserved (memory : Memory) (brk : ℕ) (positive : 0 < brk) (bound : brk < 2 ^ 32)
    (aligned : 8 ∣ brk) (calls : List Call)
    (permitted : Permitted step Guarded (State.initial memory brk) calls) :
    ∃ state, runCalls (State.initial memory brk) calls = some state ∧
      ∀ call, Guarded state call → ∃ ret next, exec state call = some (ret, next) ∧
        (¬ call.IsStore → ∀ q m, state.live q = some m →
          ∀ i < state.heap.blockSize q, next.heap.mem (q + i) = state.heap.mem (q + i)) ∧
        ∀ kernel p n m, call = .realloc kernel p n → state.live p = some m →
          (ret ≠ 0 → ∀ i < min (state.heap.blockSize p) n,
            next.heap.mem (ret + i) = state.heap.mem (p + i)) ∧
          (ret = 0 → n ≠ 0 → next.live p = some m) := by
  obtain ⟨state, arena, finished, tracks⟩ :=
    run_tracks (initial_tracks memory positive bound aligned) permitted
  refine ⟨state, finished, fun call guarded => ?_⟩
  obtain ⟨ret, next, after, outcome⟩ := exec_step tracks guarded
  refine ⟨ret, next, outcome.executed, ?_, ?_⟩
  · intro allocator q m live i inside
    exact outcome.keeps allocator _ (tracks.payload live inside)
  · rintro kernel p n m rfl live
    exact realloc_carries tracks guarded live outcome.executed

private theorem malloc_realloc_run :
    ∃ state, runCalls (State.initial (fun _ => 0) 4096) [.malloc granting 10] = some state ∧
      state.live 4112 = some 10 ∧ state.heap.blockSize 4112 = 16 ∧
      (exec state (.realloc granting 4112 40)).map Prod.fst = some 4144 :=
  ⟨_, rfl, rfl, rfl, rfl⟩

theorem user_data_preserved_realloc :
    ∃ state ret next, runCalls (State.initial (fun _ => 0) 4096) [.malloc granting 10] = some state ∧
      exec state (.realloc granting 4112 40) = some (ret, next) ∧ ret ≠ 0 ∧
      ∀ i < 16, next.heap.mem (ret + i) = state.heap.mem (4112 + i) := by
  obtain ⟨state, known, live, size, moved⟩ := malloc_realloc_run
  obtain ⟨final, finished, preserved⟩ :=
    user_data_preserved (fun _ => 0) 4096 (by decide) (by decide) (by decide) [.malloc granting 10]
      ⟨⟨trivial, small_safe _ _ (show 16 + rounded 10 < 2 ^ 31 by decide)⟩, fun _ _ => trivial⟩
  obtain rfl := Option.some.inj (finished.symm.trans known)
  obtain ⟨ret, next, executed, -, carries⟩ := preserved (.realloc granting 4112 40)
    ⟨.inr ⟨10, live⟩, fun _ => small_safe _ _ (show 16 + rounded 40 < 2 ^ 31 by decide)⟩
  obtain rfl : ret = 4144 := by simpa [executed] using moved
  have carried := (carries granting 4112 40 10 rfl live).1 (by decide)
  rw [size] at carried
  exact ⟨final, 4144, next, finished, executed, by decide, fun i inside => carried i (by omega)⟩

end CLite
