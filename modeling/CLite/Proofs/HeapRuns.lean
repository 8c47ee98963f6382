import CLite.Proofs.HeapSteps

/-! # Runs of programs that use the allocator

Every guarded call returns in a state that tracks an arena, and therefore so does every guarded run.
If the program leaves the break alone, the arena has no gaps from the initial break on.
-/

namespace CLite

open ByteMemory FreeList

variable {kernel : Kernel} {heap : Heap} {arena after : Arena} {n ptr size : ℕ}

theorem Reallocates.grows {ret : ℕ} {heap' : Heap}
    (outcome : Reallocates kernel heap arena ptr size n ret heap' after) : arena.Grows after := by
  cases outcome with
  | released => exact arena.release_grows _
  | kept => exact .refl arena
  | refused => exact .refl arena
  | moved request larger allocates => exact allocates.grows.trans (Arena.release_grows _ _)

theorem Reallocates.null {heap' : Heap} (outcome : Reallocates kernel heap arena ptr size n 0 heap' after)
    (lower : 16 ≤ ptr) (request : n ≠ 0) : heap' = heap := by
  cases outcome with
  | released zero => exact (request zero).elim
  | kept => omega
  | refused => rfl
  | moved _ _ _ served => exact (served rfl).elim

theorem sbrk_mem (kernel : Kernel) (heap : Heap) (increment : ℕ) :
    (sbrk kernel heap increment).2.mem = heap.mem := by
  simp only [sbrk, sysBrk]
  split_ifs <;> rfl

/-- What a call does: it returns in a state that tracks an arena again, does not lower the break,
leaves no gap unless the program moves the break itself, keeps the bytes the clients own unless the
program stores into them, and changes nothing when it refuses a request. -/
structure CallOutcome (state : State) (arena : Arena) (call : Call) (ret : ℕ) (next : State)
    (after : Arena) : Prop where
  executed : exec state call = some (ret, next)
  tracks : Tracks next after
  brk : arena.brk ≤ after.brk
  grows : ¬ call.IsSbrk → arena.Grows after
  keeps : ¬ call.IsStore → ∀ x, arena.Payload x → next.heap.mem x = state.heap.mem x
  null : ret = 0 → ∀ n, call.request = some n → n ≠ 0 → next.heap = state.heap

/-- Every call of a guarded program has an outcome. -/
theorem exec_step {state : State} {call : Call} (tracks : Tracks state arena)
    (guarded : Guarded state call) : ∃ ret next after, CallOutcome state arena call ret next after := by
  obtain ⟨respects, safe⟩ := guarded
  cases call with
  | malloc kernel n =>
    obtain ⟨ptr, heap', after, returned, tracks', allocates, keep, null⟩ := malloc_step tracks safe
    exact ⟨ptr, _, after, by simp only [exec, returned, Option.map_some], tracks', allocates.grows.brk,
      fun _ => allocates.grows, fun _ => keep, fun refused _ _ _ => null refused⟩
  | calloc kernel nmemb size =>
    obtain ⟨ptr, heap', after, returned, tracks', outcome, keep, null⟩ := calloc_step tracks safe
    have grows : arena.Grows after := by
      rcases outcome with ⟨rfl, -⟩ | allocates
      · exact .refl _
      · exact allocates.grows
    exact ⟨ptr, _, after, by simp only [exec, returned, Option.map_some], tracks', grows.brk,
      fun _ => grows, fun _ => keep, fun refused _ _ _ => null refused⟩
  | realloc kernel ptr n =>
    rcases respects with rfl | ⟨old, found⟩
    · obtain ⟨ptr, heap', after, returned, tracks', allocates, keep, null⟩ :=
        malloc_step tracks (safe (.inl rfl))
      refine ⟨ptr, ⟨heap', handOut state.live ptr n⟩, after, ?_, tracks', allocates.grows.brk,
        fun _ => allocates.grows, fun _ => keep, fun refused _ _ _ => null refused⟩
      simp only [exec, realloc, if_true, returned, Option.map_some, tracks.accounts.giveBack_null]
      by_cases served : ptr = 0
      · simp [served, handOut]
      · simp [served]
    · obtain ⟨lower, size, -, busy⟩ := tracks.accounts.busy_of_live found
      have known := tracks.represents.blockSize lower busy
      obtain ⟨ret, heap', after, returned, tracks', outcome, keep⟩ :=
        realloc_step tracks lower busy (fun larger => safe (.inr (by rw [known]; exact larger)))
      refine ⟨ret, _, after, by simp only [exec, returned, Option.map_some], tracks', outcome.grows.brk,
        fun _ => outcome.grows, fun _ => keep, ?_⟩
      rintro rfl m request nonzero
      obtain rfl := Option.some.inj request
      exact outcome.null lower nonzero
  | free ptr =>
    obtain ⟨heap', after, returned, tracks', outcome, keep⟩ := free_step tracks respects
    have grows : arena.Grows after := by
      rcases outcome with rfl | rfl
      · exact .refl _
      · exact arena.release_grows _
    refine ⟨0, _, after, by simp only [exec, returned, Option.map_some], tracks', grows.brk,
      fun _ => grows, fun _ x owned => ?_, fun _ _ request => by cases request⟩
    obtain ⟨e, member, -, above, below⟩ := owned
    exact keep x (arena.offHeaders member above below)
  | sbrk kernel increment =>
    obtain ⟨after, tracks', outcome⟩ := sbrk_step kernel tracks respects.1 respects.2
    refine ⟨_, _, after, rfl, tracks', ?_, fun foreign => (foreign trivial).elim,
      fun _ x _ => congrFun (sbrk_mem kernel state.heap increment) x, fun _ _ request => by cases request⟩
    rcases outcome with rfl | ⟨-, moved⟩
    · exact le_rfl
    · omega
  | store address value =>
    exact ⟨0, _, arena, rfl, store_step value tracks respects, le_rfl, fun _ => .refl arena,
      fun storing => (storing trivial).elim, fun _ _ request => by cases request⟩

/-! ## Runs -/

theorem small_safe (kernel : Kernel) (heap : Heap) (small : SmallRequest n) :
    SafeRequest kernel heap n := by
  simp only [SmallRequest] at small
  by_cases fit : heap.HasFit (roundUp n)
  · exact .inl ⟨fit, by omega⟩
  by_cases low : heap.brk < 2 ^ 31
  · exact .inr ⟨fit, .inl (by omega)⟩
  · exact .inr ⟨fit, .inr (.inl (by omega))⟩

/-- Small requests are safe in every heap. -/
theorem Disciplined.guarded {state : State} {call : Call} (disciplined : Disciplined state call) :
    Guarded state call := by
  refine ⟨disciplined.1, ?_⟩
  have small := disciplined.2
  cases call with
  | malloc kernel n => exact small_safe kernel _ small
  | calloc kernel nmemb size => exact fun bound => small_safe kernel _ (small bound)
  | realloc kernel ptr n => exact fun _ => small_safe kernel _ small
  | free | sbrk | store => trivial

theorem initial_tracks (memory : Memory) {brk : ℕ} (positive : 0 < brk) (bound : brk < 2 ^ 32)
    (aligned : 8 ∣ brk) : Tracks (State.initial memory brk) (Arena.empty brk positive bound aligned) where
  represents := ⟨rfl, rfl⟩
  accounts := ⟨by simp [State.initial], by simp [Arena.empty]⟩

theorem step_tracks {state : State} {call : Call} (tracks : Tracks state arena)
    (guarded : Guarded state call) :
    ∃ state' after, step state call = some state' ∧ Tracks state' after ∧
      (¬ call.IsSbrk → arena.Grows after) := by
  obtain ⟨ret, state', after, outcome⟩ := exec_step tracks guarded
  exact ⟨state', after, by simp only [step, outcome.executed, Option.map_some], outcome.tracks,
    outcome.grows⟩

/-- Every guarded run completes in a state that tracks an arena. -/
theorem run_tracks {state : State} (tracks : Tracks state arena) {calls : List Call}
    (permitted : CallRun.Permitted step Guarded state calls) :
    ∃ final after, runCalls state calls = some final ∧ Tracks final after := by
  obtain ⟨final, finished, after, tracks'⟩ :=
    CallRun.run_invariant (fun state => ∃ arena, Tracks state arena)
      (fun state call ⟨arena, tracks⟩ guarded => by
        obtain ⟨state', after, stepped, tracks', -⟩ := step_tracks tracks guarded
        exact ⟨state', stepped, after, tracks'⟩) ⟨arena, tracks⟩ permitted
  exact ⟨final, after, finished, tracks'⟩

/-- When the program leaves the break alone, the blocks fill the heap from the initial break on. -/
theorem run_tiles {state : State} (tracks : Tracks state arena) {calls : List Call}
    (permitted : CallRun.Permitted step Guarded state calls) (sole : ∀ call ∈ calls, ¬ call.IsSbrk)
    (lo : ℕ) (layout : Tiles headerSize lo arena.brk arena.blocks) :
    ∃ final after, runCalls state calls = some final ∧ Tracks final after ∧
      Tiles headerSize lo after.brk after.blocks := by
  obtain ⟨final, finished, after, tracks', layout'⟩ := CallRun.run_invariant
    (fun state => ∃ arena, Tracks state arena ∧ Tiles headerSize lo arena.brk arena.blocks)
    (fun state call ⟨arena, tracks, layout⟩ guarded => by
      obtain ⟨state', after, stepped, tracks', grows⟩ := step_tracks tracks guarded.1
      exact ⟨state', stepped, after, tracks', (grows guarded.2).tiles lo layout⟩)
    ⟨arena, tracks, layout⟩ (permitted.and_forall sole)
  exact ⟨final, after, finished, tracks', layout'⟩

end CLite
