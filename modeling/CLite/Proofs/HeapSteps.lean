import CLite.Proofs.HeapAccounts

/-! # One allocator call at a time

For each function there is one theorem that says the call returns, which arena the new state tracks,
and that every byte owned by a client keeps its value.
-/

namespace CLite

open ByteMemory FreeList

variable {kernel : Kernel} {heap : Heap} {live : ℕ → Option ℕ} {arena after : Arena} {n ptr size : ℕ}

theorem malloc_step (tracks : Tracks ⟨heap, live⟩ arena) (safe : SafeRequest kernel heap n) :
    ∃ ptr heap' after, malloc kernel heap n = some (ptr, heap') ∧
      Tracks ⟨heap', handOut live ptr n⟩ after ∧ arena.Allocates kernel n ptr after ∧
      (∀ x, arena.Payload x → heap'.mem x = heap.mem x) ∧ (ptr = 0 → heap' = heap) := by
  obtain ⟨ptr, heap', after, returned, represents, allocates, keep, null⟩ :=
    malloc_refines tracks.represents safe
  exact ⟨ptr, heap', after, returned, ⟨represents, tracks.accounts.handOut allocates⟩, allocates, keep, null⟩

theorem calloc_check {nmemb size : ℕ} :
    nmemb ≠ 0 ∧ (2 ^ 32 - 1) / nmemb < size ↔ 2 ^ 32 ≤ nmemb * size := by
  rcases Nat.eq_zero_or_pos nmemb with rfl | positive
  · simp
  · rw [Nat.div_lt_iff_lt_mul positive, Nat.mul_comm size nmemb]
    constructor
    · rintro ⟨-, large⟩
      omega
    · intro large
      exact ⟨by omega, by omega⟩

theorem calloc_step {nmemb size : ℕ} (tracks : Tracks ⟨heap, live⟩ arena)
    (safe : nmemb * size < 2 ^ 32 → SafeRequest kernel heap (nmemb * size)) :
    ∃ ptr heap' after, calloc kernel heap nmemb size = some (ptr, heap') ∧
      Tracks ⟨heap', handOut live ptr (nmemb * size)⟩ after ∧
      (after = arena ∧ ptr = 0 ∨ arena.Allocates kernel (nmemb * size) ptr after) ∧
      (∀ x, arena.Payload x → heap'.mem x = heap.mem x) ∧ (ptr = 0 → heap' = heap) := by
  by_cases overflow : 2 ^ 32 ≤ nmemb * size
  · refine ⟨0, heap, arena, ?_, ?_, .inl ⟨rfl, rfl⟩, fun _ _ => rfl, fun _ => rfl⟩
    · rw [calloc, if_pos (calloc_check.mpr overflow)]
    · simpa only [handOut, if_true] using tracks
  have small : nmemb * size < 2 ^ 32 := by omega
  obtain ⟨ptr, heap', after, returned, ⟨represents, accounts⟩, allocates, keep, null⟩ :=
    malloc_step tracks (safe small)
  rw [calloc, if_neg fun check => overflow (calloc_check.mp check)]
  simp only [wrap_of_lt small, returned]
  by_cases served : ptr = 0
  · exact ⟨ptr, heap', after, by rw [if_neg (by simpa using served)], ⟨represents, accounts⟩,
      .inr allocates, keep, null⟩
  obtain ⟨lower, granted, large, busy⟩ := allocates.granted served
  have request := (le_rounded (nmemb * size)).trans large
  -- the zeros go into the payload that has just been handed out
  have cleared : ∀ x, x < ptr ∨ ptr + nmemb * size ≤ x →
      memset heap'.mem ptr 0 (nmemb * size) x = heap'.mem x :=
    fun x outside => memset_outside _ _ _ _ _ outside
  refine ⟨ptr, { heap' with mem := memset heap'.mem ptr 0 (nmemb * size) }, after,
    by rw [if_pos served], ⟨Represents.frame (show Represents heap' after from represents) fun x => ?_, accounts⟩,
    .inr allocates, fun x owned => ?_, fun null => (served null).elim⟩
  · by_cases outside : x < ptr ∨ ptr + nmemb * size ≤ x
    · exact .inr (cleared x outside)
    · exact .inl (after.offHeaders busy (by simp only; omega) (by simp only; omega))
  · rw [← keep x owned]
    apply cleared x
    by_contra inside
    exact allocates.payload_fresh served busy (by omega) (by omega) owned

theorem free_step (tracks : Tracks ⟨heap, live⟩ arena) (returnable : ptr = 0 ∨ ∃ n, live ptr = some n) :
    ∃ heap' after, free heap ptr = some heap' ∧ Tracks ⟨heap', giveBack live ptr⟩ after ∧
      (after = arena ∨ after = arena.release (ptr - 16)) ∧
      (∀ x, OffHeaders arena.blocks x → heap'.mem x = heap.mem x) := by
  rcases returnable with rfl | ⟨n, found⟩
  · refine ⟨heap, arena, by simp [free], ⟨tracks.represents, ?_⟩, .inl rfl, fun _ _ => rfl⟩
    simpa only [tracks.accounts.giveBack_null] using tracks.accounts
  · obtain ⟨lower, size, -, busy⟩ := tracks.accounts.busy_of_live found
    obtain ⟨heap', returned, represents, -, keep⟩ := free_refines tracks.represents lower busy
    exact ⟨heap', _, returned, ⟨represents, tracks.accounts.giveBack lower⟩, .inr rfl, keep⟩

/-- What `realloc` of a live pointer can do. -/
inductive Reallocates (kernel : Kernel) (heap : Heap) (arena : Arena) (ptr size n : ℕ) :
    ℕ → Heap → Arena → Prop
  | released {heap' : Heap} (zero : n = 0) : Reallocates kernel heap arena ptr size n 0 heap'
      (arena.release (ptr - 16))
  | kept (request : n ≠ 0) (fits : n ≤ size) : Reallocates kernel heap arena ptr size n ptr heap arena
  | refused (request : n ≠ 0) : Reallocates kernel heap arena ptr size n 0 heap arena
  | moved {newPtr : ℕ} {heap' : Heap} {middle : Arena} (request : n ≠ 0) (larger : size < n)
      (allocates : arena.Allocates kernel n newPtr middle) (served : newPtr ≠ 0)
      (copied : ∀ offset < size, heap'.mem (newPtr + offset) = heap.mem (ptr + offset)) :
      Reallocates kernel heap arena ptr size n newPtr heap' (middle.release (ptr - 16))

/-- The copy made by `realloc` goes from one busy block to another. -/
private theorem realloc_move {newPtr : ℕ} {heap' : Heap} {middle : Arena} (lower : 16 ≤ ptr)
    (busy : ⟨ptr - 16, size, false⟩ ∈ arena.blocks) (larger : size < n)
    (represents : Represents heap' middle) (allocates : arena.Allocates kernel n newPtr middle)
    (served : newPtr ≠ 0) (keep : ∀ x, arena.Payload x → heap'.mem x = heap.mem x) :
    ∃ final, free { heap' with mem := memcpy heap'.mem newPtr ptr size } ptr = some final ∧
      Represents final (middle.release (ptr - 16)) ∧
      (∀ offset < size, final.mem (newPtr + offset) = heap.mem (ptr + offset)) ∧
      ∀ x, arena.Payload x → final.mem x = heap.mem x := by
  obtain ⟨newLower, granted, large, newBusy⟩ := allocates.granted served
  have request := (le_rounded n).trans large
  have different : (⟨ptr - 16, size, false⟩ : Extent) ≠ ⟨newPtr - 16, granted, false⟩ := by
    intro same
    rw [same] at busy
    exact allocates.fresh served busy
  have stillBusy := allocates.busy_kept busy
  have apart := middle.apart stillBusy newBusy different
  dsimp only at apart
  have copied : ∀ x, x < newPtr ∨ newPtr + size ≤ x → memcpy heap'.mem newPtr ptr size x = heap'.mem x :=
    fun x outside => memcpy_outside _ _ _ _ _ outside
  have represents' : Represents { heap' with mem := memcpy heap'.mem newPtr ptr size } middle := by
    apply represents.frame
    intro x
    by_cases outside : x < newPtr ∨ newPtr + size ≤ x
    · exact .inr (copied x outside)
    · exact .inl (middle.offHeaders newBusy (by simp only; omega) (by simp only; omega))
  obtain ⟨final, returned, released, -, untouched⟩ := free_refines represents' lower stillBusy
  refine ⟨final, returned, released, fun offset bound => ?_, ?_⟩
  · rw [untouched _ (middle.offHeaders newBusy (by simp only; omega) (by simp only; omega))]
    have source : arena.Payload (ptr + offset) :=
      ⟨_, busy, rfl, by simp only; omega, by simp only; omega⟩
    rw [← keep _ source]
    exact memcpy_inside _ _ _ _ _ bound (by omega)
  · rintro x ⟨⟨a, s, flag⟩, member, isBusy, above, below⟩
    simp only at isBusy above below
    subst isBusy
    have owned : arena.Payload x := ⟨_, member, rfl, above, below⟩
    rw [untouched _ (middle.offHeaders (allocates.busy_kept member) above below), ← keep x owned]
    apply copied x
    by_contra inside
    exact allocates.payload_fresh served newBusy (by omega) (by omega) owned

theorem realloc_step (tracks : Tracks ⟨heap, live⟩ arena) (lower : 16 ≤ ptr)
    (busy : ⟨ptr - 16, size, false⟩ ∈ arena.blocks)
    (safe : size < n → SafeRequest kernel heap n) :
    ∃ ret heap' after, realloc kernel heap ptr n = some (ret, heap') ∧
      Tracks ⟨heap', if ret = 0 ∧ n ≠ 0 then live else handOut (giveBack live ptr) ret n⟩ after ∧
      Reallocates kernel heap arena ptr size n ret heap' after ∧
      (∀ x, arena.Payload x → heap'.mem x = heap.mem x) := by
  rw [realloc, if_neg (by omega)]
  by_cases request : n = 0
  · obtain ⟨heap', returned, represents, -, keep⟩ := free_refines tracks.represents lower busy
    refine ⟨0, heap', arena.release (ptr - 16), ?_, ⟨represents, ?_⟩, .released request, ?_⟩
    · rw [if_pos request, returned]
      rfl
    · simpa only [request, ne_eq, not_true, and_false, if_false, handOut, if_true] using
        tracks.accounts.giveBack lower
    · rintro x ⟨e, member, -, above, below⟩
      exact keep x (arena.offHeaders member above below)
  rw [if_neg request, if_neg (by simp [tracks.represents.magicOf_headerOf lower busy])]
  have known : sizeOf heap.mem (headerOf ptr) = size := tracks.represents.blockSize lower busy
  by_cases fits : n ≤ size
  · refine ⟨ptr, heap, arena, by rw [known, if_pos fits], ⟨tracks.represents, ?_⟩, .kept request fits,
      fun _ _ => rfl⟩
    rw [if_neg (by omega)]
    exact tracks.accounts.resize lower busy fits
  obtain ⟨newPtr, heap', middle, returned, ⟨represents, accounts⟩, allocates, keep, null⟩ :=
    malloc_step tracks (safe (by omega))
  simp only [known, if_neg fits, returned]
  by_cases served : newPtr = 0
  · refine ⟨0, heap, arena, by simp [served, null served], ⟨tracks.represents, ?_⟩, .refused request,
      fun _ _ => rfl⟩
    simpa only [true_and, if_pos request] using tracks.accounts
  have stillKnown : sizeOf heap'.mem (headerOf ptr) = size :=
    represents.blockSize lower (allocates.busy_kept busy)
  obtain ⟨final, freed, released, copied, kept⟩ :=
    realloc_move lower busy (by omega) represents allocates served keep
  refine ⟨newPtr, final, middle.release (ptr - 16), ?_, ⟨released, ?_⟩,
    .moved request (by omega) allocates served copied, kept⟩
  · simp only [if_neg served, stillKnown, freed, Option.map_some]
  · have other : newPtr ≠ ptr := by
      rintro rfl
      exact allocates.fresh served busy
    have swapped : handOut (giveBack live ptr) newPtr n = giveBack (handOut live newPtr n) ptr := by
      simp only [handOut, if_neg served, giveBack]
      exact Function.update_comm other.symm _ _ _
    rw [if_neg fun failed => served failed.1, swapped]
    exact accounts.giveBack lower

theorem sbrk_step (kernel : Kernel) {increment : ℕ} (tracks : Tracks ⟨heap, live⟩ arena)
    (granule : 8 ∣ increment) (small : increment < 2 ^ 31) :
    ∃ after, Tracks ⟨(sbrk kernel heap increment).2, live⟩ after ∧
      (after = arena ∨ arena.brk < 2 ^ 31 ∧ after.brk = arena.brk + increment) := by
  have top : heap.brk = arena.brk := tracks.represents.brk
  have positive : 0 < heap.brk := by
    rw [top]
    exact arena.layout.le
  have bound := arena.brk_lt
  by_cases query : increment = 0
  · have same : (sbrk kernel heap increment).2 = heap := by
      simp only [query, sbrk, sysBrk, if_true]
      split <;> rfl
    exact ⟨arena, by rwa [same], .inl rfl⟩
  by_cases granted : heap.brk < 2 ^ 31 ∧ kernel heap.brk (heap.brk + increment) = heap.brk + increment
  · have room : arena.brk + increment < 2 ^ 32 := by omega
    rw [sbrk_granted increment positive granted.1 query (by omega) granted.2]
    refine ⟨arena.extend increment granule room, ⟨⟨tracks.represents.chain, ?_⟩, ?_⟩,
      .inr ⟨by omega, rfl⟩⟩
    · simp only [top, Arena.extend_brk]
    · exact ⟨tracks.accounts.busy_of_live, tracks.accounts.live_of_busy⟩
  · have refuses : Refuses kernel heap.brk increment := by
      by_cases low : heap.brk < 2 ^ 31
      · exact (refuses_iff query (by omega)).mpr granted
      · exact .inl (by omega)
    rw [sbrk_refused positive (by omega) refuses]
    exact ⟨arena, tracks, .inl rfl⟩

theorem store_step {address : ℕ} (value : Byte) (tracks : Tracks ⟨heap, live⟩ arena)
    (writable : State.Writable ⟨heap, live⟩ address) :
    Tracks ⟨{ heap with mem := Function.update heap.mem address value }, live⟩ arena := by
  have off : OffHeaders arena.blocks address := by
    rcases writable with ⟨ptr, n, found, lower, upper⟩ | outside
    · obtain ⟨above, size, -, busy⟩ := tracks.accounts.busy_of_live found
      rw [tracks.represents.blockSize above busy] at upper
      exact arena.offHeaders busy (by simp only; omega) (by simp only; omega)
    · intro e member
      have away := outside _ tracks.represents.blockList (header e) (List.mem_map_of_mem member)
      simp only [header] at away
      omega
  refine ⟨Represents.frame (show Represents heap arena from tracks.represents) fun x => ?_, tracks.accounts⟩
  by_cases same : x = address
  · exact .inl (same ▸ off)
  · exact .inr (Function.update_of_ne same _ _)

end CLite
