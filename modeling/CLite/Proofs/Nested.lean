import CLite.Lib.StackedExtents
import CLite.Model.Nested
import CLite.Proofs.HeapRuns

/-! # Nested allocations on arenas

Once its blocks are freed, a nested program leaves the arena as it was, with what it has taken from the kernel as a
free block behind it. To run it again, compare the two runs call by call. The blocks in front of the last free one are
the same in both. Behind them, the second run stacks its blocks without gaps, and so takes no more than the first.
-/

namespace CLite

open ByteMemory FreeList

variable {kernel : Kernel} {arena after p p' q q' : Arena} {n ptr top : ℕ}

/-- What a nested program does to an arena. -/
inductive Nests (kernel : Kernel) : Nested → Arena → Arena → Prop
  | done {arena : Arena} : Nests kernel .done arena arena
  | store {depth offset : ℕ} {value : Byte} {rest : Nested} {arena after : Arena}
      (behind : Nests kernel rest arena after) : Nests kernel (.store depth offset value rest) arena after
  | block {n ptr : ℕ} {inner rest : Nested} {arena opened closed after : Arena}
      (allocates : arena.Allocates kernel n ptr opened) (served : ptr ≠ 0) (inside : Nests kernel inner opened closed)
      (behind : Nests kernel rest (closed.release (ptr - 16)) after) :
      Nests kernel (.block n inner rest) arena after

/-! ## What is left -/

/-- The second arena is the first one with what was taken from the kernel as a free block behind it. -/
structure Regains (before after : Arena) : Prop where
  wide : Wide headerSize before.brk after.brk
  blocks : after.blocks = merge headerSize (before.blocks ++ gap headerSize before.brk after.brk)

theorem Regains.refl (arena : Arena) : Regains arena arena where
  wide := .inl rfl
  blocks := by rw [gap_self, List.append_nil, arena.merged.merge_eq]

theorem Regains.trans (first : Regains arena p) (second : Regains p after) : Regains arena after where
  wide := first.wide.trans second.wide
  blocks := by
    rw [second.blocks, first.blocks, merge_merge_append, List.append_assoc,
      merge_gap_gap _ first.wide second.wide (by decide)]

/-- A block that was opened is closed again, after what was opened inside of it. -/
theorem Regains.close {opened closed : Arena} (allocates : arena.Allocates kernel n ptr opened) (served : ptr ≠ 0)
    (inside : Regains opened closed) : Regains arena (closed.release (ptr - 16)) := by
  have freed : (closed.release (ptr - 16)).blocks = merge headerSize
      (release (ptr - 16) opened.blocks ++ gap headerSize opened.brk closed.brk) := by
    rw [Arena.release_blocks, inside.blocks, merge_release_merge, release_append, release_gap]
  cases allocates with
  | refused => exact (served rfl).elim
  | reused request pre e post shape free fits first =>
    refine ⟨inside.wide, freed.trans ?_⟩
    have whole := merge_release_carve 16 (rounded n) (shape ▸ arena.merged) free (shape ▸ arena.layout) (by decide)
    rw [Nat.add_sub_cancel, Arena.reuse_blocks, ← merge_merge_append, whole, ← shape]
    rfl
  | grown request unfit granted =>
    have wide : Wide headerSize (arena.brk + headerSize + rounded n) closed.brk := inside.wide
    have upper := wide.le
    refine ⟨.inr (Nat.le_trans (Nat.le_add_right _ _) upper), freed.trans ?_⟩
    have others : release arena.brk arena.blocks = arena.blocks := by
      refine release_of_forall_ne fun e member same => ?_
      have := (arena.bounds member).2
      omega
    have marked : release arena.brk [⟨arena.brk, rounded n, false⟩] = [⟨arena.brk, rounded n, true⟩] := by
      simp only [release, List.map_cons, List.map_nil, if_pos]
    rw [Nat.add_sub_cancel, Arena.grow_blocks, release_append, others, marked, List.append_assoc]
    exact merge_gap_cons arena.blocks (rounded n) wide (by decide)

theorem Nests.regains {program : Nested} (nests : Nests kernel program arena after) : Regains arena after := by
  induction nests with
  | done => exact .refl _
  | store behind ih => exact ih
  | block allocates served inside behind ih ih' => exact (Regains.close allocates served ih).trans ih'

/-- The free block that was regained, joined to the last block if that is free and ends at the break. -/
theorem Regains.shape (regains : Regains arena after) :
    (∃ front last, arena.blocks = front ++ [last] ∧ last.free = true ∧ last.stop headerSize = arena.brk ∧
      Loose headerSize last.addr front ∧ after.blocks = front ++ gap headerSize last.addr after.brk) ∨
    (Loose headerSize arena.brk arena.blocks ∧
      after.blocks = arena.blocks ++ gap headerSize arena.brk after.brk) := by
  have between := gap_between regains.wide
  by_cases loose : Loose headerSize arena.brk arena.blocks
  · refine .inr ⟨loose, ?_⟩
    rw [regains.blocks, merge_append_of_loose arena.merged arena.layout loose between, merge_gap]
  · simp only [Loose, not_forall, not_not] at loose
    obtain ⟨last, isLast, free, stop⟩ := loose
    obtain ⟨front, shape⟩ := List.getLast?_eq_some_iff.mp isLast
    obtain ⟨merged, -, apart⟩ := List.isChain_append.mp (shape ▸ arena.merged)
    have below := (Between.append_cons.mp (shape ▸ arena.layout)).1
    have separate : Loose headerSize last.addr front := by
      intro e isEnd endFree touch
      exact apart e isEnd last rfl ⟨endFree, free, touch⟩
    refine .inl ⟨front, last, shape, free, stop, separate, ?_⟩
    have whole : last = ⟨last.addr, last.size, true⟩ := by rw [← free]
    have wide : Wide headerSize (last.addr + headerSize + last.size) after.brk := by
      have wide := regains.wide
      rwa [← stop] at wide
    have joined : merge headerSize (front ++ [last] ++ gap headerSize arena.brk after.brk) =
        merge headerSize (front ++ gap headerSize last.addr after.brk) := by
      rw [← stop, List.append_assoc, ← merge_gap_cons front last.size wide (by decide)]
      conv_lhs => rw [whole]
      rfl
    have room : Wide headerSize last.addr after.brk :=
      .inr (Nat.le_trans (Nat.le_add_right _ _) wide.le)
    rw [regains.blocks, shape, joined, merge_append_of_loose merged below separate (gap_between room), merge_gap]

theorem Regains.eq_of_brk (regains : Regains arena after) (brk : after.brk = arena.brk) : after = arena := by
  refine Arena.ext ?_ brk
  rw [regains.blocks, brk, gap_self, List.append_nil, arena.merged.merge_eq]

/-! ## The second run -/

/-- The first block that fits is the one that is carved. -/
theorem Arena.Allocates.first_fit {pre post : List Extent} {e : Extent}
    (allocates : arena.Allocates kernel n ptr after)
    (request : n ≠ 0) (shape : arena.blocks = pre ++ e :: post) (free : e.free = true) (fits : rounded n ≤ e.size)
    (first : ∀ a ∈ pre, a.free = true → a.size < rounded n) :
    ptr = e.addr + 16 ∧ after.brk = arena.brk ∧
      after.blocks = pre ++ (carve headerSize 16 (rounded n) e ++ post) := by
  have member : e ∈ arena.blocks := by simp [shape]
  cases allocates with
  | refused reason =>
    have small := (reason.resolve_left request).1 e member free
    omega
  | reused request' pre' e' post' shape' free' fits' first' =>
    obtain ⟨rfl, rfl, rfl⟩ := @first_unique _ _ _ (fun a => a.free = true ∧ rounded n ≤ a.size) _ _ _
      (shape'.symm.trans shape) ⟨free', fits'⟩ ⟨free, fits⟩
      (fun a before fit => Nat.not_lt.mpr fit.2 (first' a before fit.1))
      fun a before fit => Nat.not_lt.mpr fit.2 (first a before fit.1)
    exact ⟨rfl, rfl, rfl⟩
  | grown request' unfit =>
    have small := unfit e member free
    omega

/-- Two arenas with the same blocks in front of an address. Behind it the second has a stack of busy blocks and then
nothing but free space up to `top`. The stack takes no more than the busy blocks of the first arena take there, unless
the last block of the stack was given what was too little for another one. -/
structure Mirrors (p q : Arena) (top : ℕ) (front tail stack : List Extent) (base height : ℕ) : Prop where
  first : p.blocks = front ++ tail
  second : q.blocks = front ++ (stack ++ gap headerSize height top)
  brk : q.brk = top
  below : Between headerSize 1 base front
  above : Between headerSize base p.brk tail
  loose : Loose headerSize base front
  busy : ∀ e ∈ stack, e.free = false
  within : height ≤ top
  account : height ≤ base + used headerSize tail ∨ top < base + used headerSize tail + 32

def Mirrored (p q : Arena) (top : ℕ) : Prop :=
  ∃ front tail stack base height, Mirrors p q top front tail stack base height

/-- What the first run has left is where the second begins. -/
theorem Regains.mirrored (regains : Regains p q) : Mirrored p q q.brk := by
  have account (base : ℕ) : base ≤ base + used headerSize [] ∨ q.brk < base + used headerSize [] + 32 :=
    .inl (Nat.le_refl _)
  rcases regains.shape with ⟨front, last, shape, free, stop, loose, blocks⟩ | ⟨loose, blocks⟩
  · obtain ⟨below, above⟩ := Between.append_cons.mp (shape ▸ p.layout)
    have wide : last.addr ≤ q.brk := by
      have upper := regains.wide.le
      simp only [Extent.stop] at stop
      omega
    have nothing : used headerSize [last] = 0 := by simp only [used, free, if_true]
    refine ⟨front, [last], [], last.addr, last.addr, shape, blocks, rfl, below, ⟨Nat.le_refl _, stop.le⟩, loose,
      by simp, wide, ?_⟩
    rw [nothing]
    exact account last.addr
  · exact ⟨p.blocks, [], [], p.brk, p.brk, (List.append_nil _).symm, blocks, rfl, p.layout, Nat.le_refl _, loose,
      by simp, regains.wide.le, account p.brk⟩

/-- The first arena may regain a free block. -/
theorem Mirrored.regain (mirrored : Mirrored p q top) (regains : Regains p p') : Mirrored p' q top := by
  obtain ⟨front, tail, stack, base, height, mirrors⟩ := mirrored
  have merged := (List.isChain_append.mp (mirrors.first ▸ p.merged)).1
  have above := mirrors.above.append (gap_between regains.wide)
  have same : used headerSize (merge headerSize (tail ++ gap headerSize p.brk p'.brk)) = used headerSize tail := by
    rw [used_merge, used_append, used_gap, Nat.add_zero]
  refine ⟨front, merge headerSize (tail ++ gap headerSize p.brk p'.brk), stack, base, height,
    ?_, mirrors.second, mirrors.brk, mirrors.below, merge_between above, mirrors.loose, mirrors.busy, mirrors.within,
    same.symm ▸ mirrors.account⟩
  rw [regains.blocks, mirrors.first, List.append_assoc,
    merge_append_of_loose merged mirrors.below mirrors.loose above]

/-- Both arenas serve the request from the same block in front. -/
theorem Mirrors.serve_front {front tail stack pre post : List Extent} {base height : ℕ} {e : Extent}
    (mirrors : Mirrors p q top front tail stack base height) (shape : front = pre ++ e :: post) (free : e.free = true)
    (blocks : p'.blocks = pre ++ (carve headerSize 16 (rounded n) e ++ (post ++ tail))) (brk : p'.brk = p.brk)
    (blocks' : q'.blocks =
      pre ++ (carve headerSize 16 (rounded n) e ++ (post ++ (stack ++ gap headerSize height top))))
    (brk' : q'.brk = q.brk) : Mirrored p' q' top := by
  refine ⟨pre ++ (carve headerSize 16 (rounded n) e ++ post), tail, stack, base, height, ?_, ?_,
    brk'.trans mirrors.brk, carve_between (shape ▸ mirrors.below), brk ▸ mirrors.above,
    loose_carve (shape ▸ mirrors.loose) free, mirrors.busy, mirrors.within, mirrors.account⟩
  · rw [blocks, List.append_assoc, List.append_assoc]
  · rw [blocks', List.append_assoc, List.append_assoc]

/-- The first arena serves the request behind the address. Then the second has room on its stack. -/
theorem Mirrors.serve_tail {front tail tail' stack : List Extent} {base height : ℕ}
    (mirrors : Mirrors p q top front tail stack base height) (request : 8 < n)
    (unfit : ∀ e ∈ front, e.free = true → e.size < rounded n) (blocks : p'.blocks = front ++ tail')
    (above : Between headerSize base p'.brk tail') (room : p'.brk ≤ top)
    (more : used headerSize tail + (headerSize + rounded n) ≤ used headerSize tail')
    (allocates : q.Allocates kernel n ptr q') : ptr ≠ 0 ∧ q'.brk = q.brk ∧ Mirrored p' q' top := by
  have large : 16 ≤ rounded n := by
    simp only [rounded]
    omega
  have space := used_le above
  simp only [headerSize] at more space
  -- a request that fits into the first arena leaves no doubt about the account
  have level : height ≤ base + used 16 tail := mirrors.account.resolve_right (by simp only [headerSize]; omega)
  have free : gap headerSize height top = [⟨height, top - height - 16, true⟩] := gap_of_lt (by omega)
  have shape : q.blocks = (front ++ stack) ++ ⟨height, top - height - 16, true⟩ :: [] := by
    rw [mirrors.second, free, List.append_assoc]
  have first : ∀ a ∈ front ++ stack, a.free = true → a.size < rounded n := by
    intro a member isFree
    rcases List.mem_append.mp member with before | stacked
    · exact unfit a before isFree
    · exact (Bool.false_ne_true ((mirrors.busy a stacked).symm.trans isFree)).elim
  obtain ⟨rfl, brk, carved⟩ := allocates.first_fit (by omega) shape rfl (by simp only; omega) first
  have stacked (e : Extent) (busy : e.free = false) : ∀ a ∈ stack ++ [e], a.free = false := by
    intro a member
    rcases List.mem_append.mp member with old | new
    · exact mirrors.busy a old
    · rwa [List.mem_singleton.mp new]
  refine ⟨by omega, brk, ?_⟩
  rw [List.append_nil, List.append_assoc, carve] at carved
  split at carved
  · next split =>
    simp only [headerSize] at split
    refine ⟨front, tail', stack ++ [⟨height, rounded n, false⟩], base, height + 16 + rounded n, blocks, ?_,
      brk.trans mirrors.brk, mirrors.below, above, mirrors.loose, ?_, by omega,
      .inl (by simp only [headerSize]; omega)⟩
    · have left : top - (height + 16 + rounded n) - 16 = top - height - 16 - rounded n - 16 := by omega
      rw [carved, gap_of_lt (by omega), List.append_assoc, headerSize, left]
      rfl
    · exact stacked _ rfl
  · next whole =>
    simp only [headerSize] at whole
    refine ⟨front, tail', stack ++ [⟨height, top - height - 16, false⟩], base, top, blocks, ?_,
      brk.trans mirrors.brk, mirrors.below, above, mirrors.loose, ?_, Nat.le_refl _,
      .inr (by simp only [headerSize]; omega)⟩
    · rw [carved, gap_self, List.append_nil]
    · exact stacked _ rfl

/-- Whatever the first arena serves within its final break, the second serves without the kernel. -/
theorem Mirrored.serve {kernel' : Kernel} {ptr' : ℕ} (mirrored : Mirrored p q top) (request : 8 < n)
    (allocates : p.Allocates kernel n ptr p') (served : ptr ≠ 0) (room : p'.brk ≤ top)
    (allocates' : q.Allocates kernel' n ptr' q') : ptr' ≠ 0 ∧ q'.brk = q.brk ∧ Mirrored p' q' top := by
  obtain ⟨front, tail, stack, base, height, mirrors⟩ := mirrored
  cases allocates with
  | refused => exact (served rfl).elim
  | reused nonzero pre e post shape free fits first =>
    have inTail (more : List Extent) (before : pre = front ++ more) (behind : tail = more ++ e :: post) :
        ptr' ≠ 0 ∧ q'.brk = q.brk ∧
          Mirrored (p.reuse (rounded n) (dvd_rounded n) (rounded_pos nonzero) pre e post shape free) q' top := by
      subst before behind
      have blocks : (front ++ more) ++ (carve headerSize 16 (rounded n) e ++ post) =
          front ++ (more ++ (carve headerSize 16 (rounded n) e ++ post)) := List.append_assoc ..
      exact mirrors.serve_tail request (fun a member => first a (List.mem_append_left _ member)) blocks
        (carve_between mirrors.above) room (used_carve free fits) allocates'
    rcases List.append_eq_append_iff.mp (mirrors.first.symm.trans shape) with ⟨more, before, behind⟩ |
      ⟨more, before, behind⟩
    · exact inTail more before behind
    · cases more with
      | nil => exact inTail [] (by simpa using before.symm) behind.symm
      | cons a more =>
        obtain ⟨rfl, rfl⟩ := List.cons.inj behind
        have shape' : q.blocks = pre ++ e :: (more ++ (stack ++ gap headerSize height top)) := by
          rw [mirrors.second, before, List.append_assoc, List.cons_append]
        obtain ⟨rfl, brk, blocks⟩ := allocates'.first_fit nonzero shape' free fits first
        exact ⟨by omega, brk, mirrors.serve_front before free rfl rfl blocks brk⟩
  | grown nonzero unfit granted =>
    have above : Between headerSize base (p.brk + headerSize + rounded n) (tail ++ [⟨p.brk, rounded n, false⟩]) :=
      mirrors.above.concat (Nat.le_refl _) (Nat.le_refl _)
    refine mirrors.serve_tail request ?_ ?_ above room ?_ allocates'
    · exact fun a member => unfit a (mirrors.first ▸ List.mem_append_left _ member)
    · rw [Arena.grow_blocks, mirrors.first, List.append_assoc]
    · rw [used_append]
      exact Nat.le_refl _

/-! ## Nested programs on the heap -/

variable {state : State} {ptrs sizes : List ℕ}

/-- The open blocks, with what was requested for each. -/
def Opens (live : ℕ → Option ℕ) (ptrs sizes : List ℕ) : Prop :=
  List.Forall₂ (fun ptr n => live ptr = some n) ptrs sizes

/-- A pointer that has just been handed out was not live before. -/
theorem giveBack_handOut {live : ℕ → Option ℕ} (accounts : Accounts live arena)
    (allocates : arena.Allocates kernel n ptr after) (served : ptr ≠ 0) :
    giveBack (handOut live ptr n) ptr = live := by
  have fresh : live ptr = none := by
    cases found : live ptr with
    | none => rfl
    | some m =>
      obtain ⟨-, size, -, busy⟩ := accounts.busy_of_live found
      exact (allocates.fresh served busy).elim
  rw [handOut, if_neg served, giveBack, Function.update_idem, ← fresh, Function.update_eq_self]

/-- The innermost block is freed, and what was live before it was opened is live again. -/
theorem close_step {inside : State} {closed : Arena} (tracks : Tracks state arena)
    (allocates : arena.Allocates kernel n ptr after) (served : ptr ≠ 0) (tracks' : Tracks inside closed)
    (live : inside.live = handOut state.live ptr n) :
    ∃ heap, exec inside (.free ptr) = some (0, ⟨heap, state.live⟩) ∧
      Tracks ⟨heap, state.live⟩ (closed.release (ptr - 16)) ∧
      ∀ x, OffHeaders closed.blocks x → heap.mem x = inside.heap.mem x := by
  have isLive : inside.live ptr = some n := by rw [live, handOut, if_neg served, Function.update_self]
  obtain ⟨lower, size, -, busy⟩ := tracks'.accounts.busy_of_live isLive
  obtain ⟨heap, returned, represents, -, keep⟩ := free_refines tracks'.represents lower busy
  have restored : giveBack inside.live ptr = state.live := by
    rw [live, giveBack_handOut tracks.accounts allocates served]
  have accounts := tracks'.accounts.giveBack lower
  rw [restored] at accounts
  refine ⟨heap, ?_, ⟨represents, accounts⟩, keep⟩
  rw [exec, returned, Option.map_some, restored]

/-- The address belongs to a block that is not one of the open ones. -/
def Held (arena : Arena) (ptrs : List ℕ) (x : ℕ) : Prop :=
  ∃ a s, ⟨a, s, false⟩ ∈ arena.blocks ∧ a + 16 ∉ ptrs ∧ a + 16 ≤ x ∧ x < a + 16 + s

theorem Held.opened {x : ℕ} (held : Held arena ptrs x) (allocates : arena.Allocates kernel n ptr after)
    (served : ptr ≠ 0) : Held after (ptr :: ptrs) x := by
  obtain ⟨a, s, busy, other, bounds⟩ := held
  refine ⟨a, s, allocates.busy_kept busy, ?_, bounds⟩
  intro member
  rcases List.mem_cons.mp member with rfl | member
  · exact allocates.fresh served (by rwa [Nat.add_sub_cancel])
  · exact other member

theorem Held.regains {x : ℕ} (held : Held arena ptrs x) (regains : Regains arena after) : Held after ptrs x := by
  obtain ⟨a, s, busy, others⟩ := held
  refine ⟨a, s, ?_, others⟩
  rw [regains.blocks, busy_mem_merge_iff]
  exact List.mem_append_left _ busy

theorem Held.offHeaders {x : ℕ} (held : Held arena ptrs x) : OffHeaders arena.blocks x := by
  obtain ⟨a, s, busy, -, above, below⟩ := held
  exact arena.offHeaders busy above below

theorem Held.payload {x : ℕ} (held : Held arena ptrs x) : arena.Payload x := by
  obtain ⟨a, s, busy, -, above, below⟩ := held
  exact ⟨_, busy, rfl, above, below⟩

theorem Opens.pointer {live : ℕ → Option ℕ} {depth : ℕ} (opens : Opens live ptrs sizes)
    (found : sizes[depth]? = some n) : ∃ ptr, ptrs[depth]? = some ptr ∧ live ptr = some n := by
  induction opens generalizing depth with
  | nil => cases found
  | cons isLive _ ih =>
    cases depth with
    | zero => exact ⟨_, rfl, isLive.trans found⟩
    | succ depth => exact ih found

/-- A store into an open block. -/
theorem open_store_step {depth offset : ℕ} (value : Byte) (tracks : Tracks state arena)
    (opens : Opens state.live ptrs sizes) (inside : ∃ n, sizes[depth]? = some n ∧ offset < n) :
    ∃ ptr heap, ptrs[depth]? = some ptr ∧ exec state (.store (ptr + offset) value) = some (0, ⟨heap, state.live⟩) ∧
      Tracks ⟨heap, state.live⟩ arena ∧ ∀ x, Held arena ptrs x → heap.mem x = state.heap.mem x := by
  obtain ⟨n, found, bound⟩ := inside
  obtain ⟨ptr, known, isLive⟩ := opens.pointer found
  obtain ⟨lower, size, large, busy⟩ := tracks.accounts.busy_of_live isLive
  have writable : state.Writable (ptr + offset) := by
    refine .inl ⟨ptr, n, isLive, Nat.le_add_right _ _, ?_⟩
    rw [tracks.represents.blockSize lower busy]
    omega
  refine ⟨ptr, _, known, rfl, store_step value tracks writable, ?_⟩
  rintro x ⟨a, s, held, other, above, below⟩
  refine Function.update_of_ne ?_ _ _
  rintro rfl
  -- the two blocks are apart, so the address is in one of them only
  have different : (⟨a, s, false⟩ : Extent) ≠ ⟨ptr - 16, size, false⟩ := by
    intro same
    obtain rfl : a = ptr - 16 := congrArg Extent.addr same
    rw [Nat.sub_add_cancel lower] at other
    exact other (List.mem_of_getElem? known)
  have apart := arena.apart held busy different
  simp only at apart
  omega

theorem Opens.handOut {live : ℕ → Option ℕ} (opens : Opens live ptrs sizes) (accounts : Accounts live arena)
    (allocates : arena.Allocates kernel n ptr after) (served : ptr ≠ 0) :
    Opens (handOut live ptr n) (ptr :: ptrs) (n :: sizes) := by
  rw [CLite.handOut, if_neg served]
  refine .cons (Function.update_self ..) (opens.imp fun other m isLive => ?_)
  have different : other ≠ ptr := by
    rintro rfl
    obtain ⟨-, size, -, busy⟩ := accounts.busy_of_live isLive
    exact allocates.fresh served busy
  rwa [Function.update_of_ne different]

/-- A nested program that ran did on its arena what such a program does, and what was live before is live again. -/
theorem run_nests {program : Nested} {final : State} (tracks : Tracks state arena)
    (opens : Opens state.live ptrs sizes) (inScope : program.Scoped sizes) (small : program.Requests SmallRequest)
    (ran : program.run kernel ptrs state = some final) :
    ∃ after, Tracks final after ∧ Nests kernel program arena after ∧ final.live = state.live ∧
      ∀ x, Held arena ptrs x → final.heap.mem x = state.heap.mem x := by
  induction program generalizing state arena ptrs sizes final with
  | done =>
    obtain rfl := Option.some.inj ran
    exact ⟨arena, tracks, .done, rfl, fun _ _ => rfl⟩
  | store depth offset value rest ih =>
    obtain ⟨ptr, heap, known, stored, tracks', keep⟩ := open_store_step value tracks opens inScope.1
    simp only [Nested.run, known, stored, Option.bind_eq_bind, Option.bind_some] at ran
    obtain ⟨after, last, nests, live, keep'⟩ := ih tracks' opens inScope.2 small ran
    exact ⟨after, last, .store nests, live, fun x held => (keep' x held).trans (keep x held)⟩
  | block n inner rest ih ih' =>
    obtain ⟨ptr, heap, opened, returned, tracks', allocates, keep, -⟩ :=
      malloc_step tracks (small_safe kernel _ small.1)
    simp only [Nested.run, exec, returned, Option.map_some, Option.bind_eq_bind, Option.bind_some] at ran
    by_cases refused : ptr = 0
    · rw [if_pos refused] at ran
      cases ran
    · rw [if_neg refused] at ran
      obtain ⟨inside, ranInner, ran⟩ := Option.bind_eq_some_iff.mp ran
      obtain ⟨closed, tracks₂, nests, live, keepInner⟩ :=
        ih tracks' (opens.handOut tracks.accounts allocates refused) inScope.1 small.2.1 ranInner
      obtain ⟨heap', freed, tracks₃, keepFree⟩ := close_step tracks allocates refused tracks₂ live
      rw [exec] at freed
      simp only [freed, Option.bind_some] at ran
      obtain ⟨after, tracks₄, nests', live', keepRest⟩ := ih' tracks₃ opens inScope.2 small.2.2 ran
      refine ⟨after, tracks₄, .block allocates refused nests nests', live', fun x held => ?_⟩
      have inner := held.opened allocates refused
      have closing := inner.regains nests.regains
      have rest := held.regains (Regains.close allocates refused nests.regains)
      rw [keepRest x rest, keepFree x closing.offHeaders, keepInner x inner]
      exact keep x held.payload

/-- A program that has run once runs again, from what it has left, without the kernel. -/
theorem Nests.again {program : Nested} (nests : Nests kernel program p p') (kernel' : Kernel)
    (mirrored : Mirrored p q top) (room : p'.brk ≤ top) (tracks : Tracks state q)
    (opens : Opens state.live ptrs sizes)
    (inScope : program.Scoped sizes) (requests : program.Requests fun n => SmallRequest n ∧ 8 < n) :
    ∃ final, program.run kernel' ptrs state = some final ∧ Tracks final q ∧ final.live = state.live := by
  induction nests generalizing q state ptrs sizes with
  | done => exact ⟨state, rfl, tracks, rfl⟩
  | @store depth offset value rest arena after behind ih =>
    obtain ⟨ptr, heap, known, stored, tracks', -⟩ := open_store_step value tracks opens inScope.1
    obtain ⟨final, ran, last, live⟩ := ih mirrored room tracks' opens inScope.2 requests
    refine ⟨final, ?_, last, live⟩
    simp only [Nested.run, known, stored, Option.bind_eq_bind, Option.bind_some, ran]
  | @block n ptr inner rest arena opened closed after allocates served inside behind ih ih' =>
    have top₂ : closed.brk ≤ top := Nat.le_trans behind.regains.wide.le room
    have top₁ : opened.brk ≤ top := Nat.le_trans inside.regains.wide.le top₂
    obtain ⟨ptr', heap, q', returned, tracks₁, allocates', -⟩ :=
      malloc_step tracks (small_safe kernel' _ requests.1.1)
    obtain ⟨served', brk, mirrored'⟩ := mirrored.serve requests.1.2 allocates served top₁ allocates'
    obtain ⟨inside', ranInner, tracks₂, live⟩ := ih mirrored' top₂ tracks₁
      (opens.handOut tracks.accounts allocates' served') inScope.1 requests.2.1
    obtain ⟨heap', freed, tracks₃, -⟩ := close_step tracks allocates' served' tracks₂ live
    have restored : q'.release (ptr' - 16) = q := (Regains.close allocates' served' (.refl q')).eq_of_brk brk
    rw [restored] at tracks₃
    obtain ⟨final, ran, last, live'⟩ := ih' (mirrored.regain (Regains.close allocates served inside.regains)) room
      tracks₃ opens inScope.2 requests.2.2
    refine ⟨final, ?_, last, live'⟩
    rw [exec] at freed
    simp only [Nested.run, exec, returned, Option.map_some, Option.bind_eq_bind, Option.bind_some, if_neg served',
      ranInner, freed, ran]

end CLite
