import CLite.Model.HeapRun
import CLite.Proofs.ArenaSteps

/-! # Live pointers and busy blocks

`Tracks` ties a state to an arena: the memory represents it, and the live pointers are exactly the
payloads of its busy blocks. Allocation, release and reuse in place keep the account; writes that
avoid the headers keep the representation.
-/

namespace CLite

open ByteMemory FreeList

/-- The live pointers are the payloads of the busy blocks, each large enough for its last request. -/
structure Accounts (live : ℕ → Option ℕ) (arena : Arena) : Prop where
  busy_of_live : ∀ {ptr n}, live ptr = some n →
    16 ≤ ptr ∧ ∃ size, n ≤ size ∧ ⟨ptr - 16, size, false⟩ ∈ arena.blocks
  live_of_busy : ∀ {addr size}, ⟨addr, size, false⟩ ∈ arena.blocks → ∃ n, live (addr + 16) = some n

structure Tracks (state : State) (arena : Arena) : Prop where
  represents : Represents state.heap arena
  accounts : Accounts state.live arena

variable {kernel : Kernel} {heap : Heap} {live : ℕ → Option ℕ} {arena after : Arena} {n ptr size : ℕ}

namespace Accounts

theorem handOut (accounts : Accounts live arena) (allocates : arena.Allocates kernel n ptr after) :
    Accounts (handOut live ptr n) after := by
  by_cases null : ptr = 0
  · rw [CLite.handOut, if_pos null, allocates.eq_of_null null]
    exact accounts
  obtain ⟨lower, size, large, granted⟩ := allocates.granted null
  rw [CLite.handOut, if_neg null]
  constructor
  · intro p m found
    by_cases same : p = ptr
    · subst same
      rw [Function.update_self] at found
      obtain rfl := Option.some.inj found
      exact ⟨lower, size, (le_rounded n).trans large, granted⟩
    · rw [Function.update_of_ne same] at found
      obtain ⟨above, s, enough, busy⟩ := accounts.busy_of_live found
      exact ⟨above, s, enough, allocates.busy_kept busy⟩
  · intro addr s busy
    by_cases same : addr + 16 = ptr
    · exact ⟨n, by rw [same, Function.update_self]⟩
    · rcases allocates.busy_cases busy with old | ⟨-, new⟩
      · obtain ⟨m, found⟩ := accounts.live_of_busy old
        exact ⟨m, by rw [Function.update_of_ne same, found]⟩
      · exact (same new).elim

theorem giveBack (accounts : Accounts live arena) (lower : 16 ≤ ptr) :
    Accounts (giveBack live ptr) (arena.release (ptr - 16)) := by
  constructor
  · intro p m found
    have other : p ≠ ptr := by
      rintro rfl
      simp [CLite.giveBack] at found
    rw [CLite.giveBack, Function.update_of_ne other] at found
    obtain ⟨above, s, enough, busy⟩ := accounts.busy_of_live found
    exact ⟨above, s, enough, Arena.busy_mem_release.mpr ⟨busy, by omega⟩⟩
  · intro addr s busy
    obtain ⟨old, other⟩ := Arena.busy_mem_release.mp busy
    obtain ⟨m, found⟩ := accounts.live_of_busy old
    exact ⟨m, by rw [CLite.giveBack, Function.update_of_ne (by omega), found]⟩

/-- A block that is large enough may serve a new request where it stands. -/
theorem resize (accounts : Accounts live arena) (lower : 16 ≤ ptr)
    (busy : ⟨ptr - 16, size, false⟩ ∈ arena.blocks) (fits : n ≤ size) :
    Accounts (CLite.handOut (CLite.giveBack live ptr) ptr n) arena := by
  rw [CLite.handOut, if_neg (by omega), CLite.giveBack, Function.update_idem]
  constructor
  · intro p m found
    by_cases same : p = ptr
    · subst same
      rw [Function.update_self] at found
      obtain rfl := Option.some.inj found
      exact ⟨lower, size, fits, busy⟩
    · rw [Function.update_of_ne same] at found
      exact accounts.busy_of_live found
  · intro addr s present
    by_cases same : addr + 16 = ptr
    · exact ⟨n, by rw [same, Function.update_self]⟩
    · obtain ⟨m, found⟩ := accounts.live_of_busy present
      exact ⟨m, by rw [Function.update_of_ne same, found]⟩

theorem not_null (accounts : Accounts live arena) : live 0 = none := by
  cases found : live 0 with
  | none => rfl
  | some n => exact absurd (accounts.busy_of_live found).1 (by omega)

/-- Giving back `NULL` forgets nothing. -/
theorem giveBack_null (accounts : Accounts live arena) : CLite.giveBack live 0 = live := by
  rw [CLite.giveBack, ← accounts.not_null, Function.update_eq_self]

end Accounts

/-! ## Writes into payloads -/

/-- A byte of a block's payload is in no header. -/
theorem Arena.offHeaders (arena : Arena) {e : Extent} (member : e ∈ arena.blocks) {x : ℕ}
    (lower : e.addr + 16 ≤ x) (upper : x < e.addr + 16 + e.size) : OffHeaders arena.blocks x := by
  intro b other
  by_cases same : b = e
  · subst same
    exact .inr lower
  · have apart := arena.apart other member same
    omega

/-- Writes that avoid the headers leave the represented arena as it is. -/
theorem Represents.frame (represents : Represents heap arena) {memory : Memory}
    (avoids : ∀ x, OffHeaders arena.blocks x ∨ memory x = heap.mem x) :
    Represents { heap with mem := memory } arena where
  chain := represents.chain.frame fun e member x lower upper =>
    (avoids x).resolve_left fun off => by
      have := off e member
      omega
  brk := represents.brk

/-- A header read through a pointer, for a block that is busy. -/
theorem Represents.blockSize (represents : Represents heap arena) (lower : 16 ≤ ptr)
    (busy : ⟨ptr - 16, size, false⟩ ∈ arena.blocks) : heap.blockSize ptr = size := by
  have inside := arena.bounds busy
  have bound := arena.brk_lt
  simp only at inside
  rw [Heap.blockSize, headerOf_eq lower (by omega)]
  exact (represents.headerAt busy).size

theorem Represents.magicOf_headerOf (represents : Represents heap arena) (lower : 16 ≤ ptr)
    (busy : ⟨ptr - 16, size, false⟩ ∈ arena.blocks) : magicOf heap.mem (headerOf ptr) = BLOCK_MAGIC := by
  have inside := arena.bounds busy
  have bound := arena.brk_lt
  simp only at inside
  rw [headerOf_eq lower (by omega)]
  exact (represents.headerAt busy).magic

end CLite
