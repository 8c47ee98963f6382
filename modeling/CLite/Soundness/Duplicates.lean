import CLite.Model.Duplicates
import CLite.Soundness.HeapInvariant
import CLite.Proofs.Texts

/-! # Copies last

A copy is written into a block that no live block overlaps, so that it takes nothing away from others, and it depends
no longer on what it was copied from. No later call changes it: neither the allocator nor another copy writes into a
live block of the program.
-/

namespace CLite.Text

open ByteMemory FreeList CallRun

variable {kernel : Kernel} {heap : Heap} {live : ℕ → Option ℕ} {arena after : Arena} {state : State} {n ptr p m : ℕ}
  {text : CString}

/-! ## Live pointers -/

/-- A new pointer is none of the live ones. -/
theorem handOut_other (accounts : Accounts live arena) (allocates : arena.Allocates kernel n ptr after)
    (known : live p = some m) : handOut live ptr n p = some m := by
  by_cases served : ptr = 0
  · rw [handOut, if_pos served, known]
  have different : p ≠ ptr := by
    rintro rfl
    obtain ⟨-, size, -, busy⟩ := accounts.busy_of_live known
    exact allocates.fresh served busy
  rw [handOut, if_neg served, Function.update_of_ne different, known]

/-- A call of the allocator keeps a pointer that it is not given. -/
theorem exec_keeps_live {call : Call} {ret : ℕ} {next : State} (tracks : Tracks state arena)
    (guarded : Guarded state call) (executed : exec state call = some (ret, next)) (known : state.live p = some m)
    (spares : Spares p text (.other call)) : next.live p = some m := by
  obtain ⟨respects, safe⟩ := guarded
  cases call with
  | malloc kernel n =>
    obtain ⟨ptr, heap', after, returned, -, allocates, -⟩ := malloc_step tracks safe
    simp only [exec, returned, Option.map_some, Option.some.injEq, Prod.mk.injEq] at executed
    obtain ⟨-, rfl⟩ := executed
    exact handOut_other tracks.accounts allocates known
  | calloc kernel nmemb size =>
    obtain ⟨ptr, heap', after, returned, -, outcome, -⟩ := calloc_step tracks safe
    simp only [exec, returned, Option.map_some, Option.some.injEq, Prod.mk.injEq] at executed
    obtain ⟨-, rfl⟩ := executed
    rcases outcome with ⟨-, rfl⟩ | allocates
    · exact known
    · exact handOut_other tracks.accounts allocates known
  | realloc kernel q n =>
    have left : giveBack state.live q p = some m := by
      rw [giveBack, Function.update_of_ne (Ne.symm spares), known]
    rcases respects with rfl | ⟨old, found⟩
    · obtain ⟨ptr, heap', after, returned, -, allocates, -⟩ := malloc_step tracks (safe (.inl rfl))
      simp only [exec, realloc, if_true, returned, Option.map_some, tracks.accounts.giveBack_null, Option.some.injEq,
        Prod.mk.injEq] at executed
      obtain ⟨-, rfl⟩ := executed
      dsimp only
      split
      · exact known
      · exact handOut_other tracks.accounts allocates known
    · obtain ⟨lower, size, -, busy⟩ := tracks.accounts.busy_of_live found
      obtain ⟨ret', heap', after, returned, -, outcome, -⟩ := realloc_step tracks lower busy fun larger =>
        safe (.inr (by rw [tracks.represents.blockSize lower busy]; exact larger))
      simp only [exec, returned, Option.map_some, Option.some.injEq, Prod.mk.injEq] at executed
      obtain ⟨-, rfl⟩ := executed
      dsimp only
      split
      · exact known
      cases outcome with
      | released => exact left
      | kept => rw [handOut, if_neg (by omega), Function.update_of_ne (Ne.symm spares), left]
      | refused => exact left
      | moved request larger allocates served =>
        have fresh := handOut_other tracks.accounts allocates known
        rw [handOut, if_neg served] at fresh ⊢
        by_cases same : p = ret'
        · subst same
          rwa [Function.update_self] at fresh ⊢
        · rw [Function.update_of_ne same, left]
  | free q =>
    obtain ⟨heap', after, returned, -⟩ := free_step tracks respects
    simp only [exec, returned, Option.map_some, Option.some.injEq, Prod.mk.injEq] at executed
    obtain ⟨-, rfl⟩ := executed
    simp only [giveBack, Function.update_of_ne (Ne.symm spares), known]
  | sbrk kernel increment =>
    obtain ⟨-, rfl⟩ := Prod.mk.inj (Option.some.inj executed)
    exact known
  | store address value =>
    obtain ⟨-, rfl⟩ := Prod.mk.inj (Option.some.inj executed)
    exact known

/-! ## Copying -/

theorem holds_memcpy {memory : Memory} {s d : ℕ} {bytes : List Byte} (holds : Holds memory s bytes)
    (apart : s + bytes.length ≤ d ∨ d + bytes.length ≤ s) : Holds (memcpy memory d s bytes.length) d bytes := by
  rw [holds_iff] at holds ⊢
  intro i bound
  rw [holds i bound, memcpy_inside memory d s bytes.length i bound apart]

/-- The copy of `strndup` gets its own terminator. -/
theorem holds_terminated {memory : Memory} {s d : ℕ} (holds : Holds memory s (text.map CChar.byte))
    (apart : s + text.length ≤ d ∨ d + text.length ≤ s) :
    Holds (Function.update (memcpy memory d s text.length) (d + text.length) 0) d (stored text) := by
  rw [stored, holds_append, List.length_map]
  refine ⟨?_, ⟨Function.update_self .., trivial⟩⟩
  have copied := @holds_memcpy memory s d _ holds (by rwa [List.length_map])
  rw [List.length_map] at copied
  apply copied.congr
  intro query lower upper
  rw [List.length_map] at upper
  rw [Function.update_of_ne (by omega)]

theorem strnlen_full {memory : Memory} {s : ℕ} (holds : Holds memory s (text.map CChar.byte)) :
    strnlen memory s text.length = text.length := by
  induction text generalizing s with
  | nil => rfl
  | cons c text ih =>
    obtain ⟨first, rest⟩ := holds
    rw [List.length_cons, strnlen, if_neg (by rw [first]; exact c.nonzero), ih rest]

/-- What a call may do to a program that has live blocks. -/
structure Copied (state : State) (arena : Arena) (text : CString) (ret : ℕ) (next : State) : Prop where
  tracks : ∃ after, Tracks next after
  live : ∀ q m, state.live q = some m → next.live q = some m
  keeps : ∀ x, arena.Payload x → next.heap.mem x = state.heap.mem x
  copy : ret ≠ 0 → next.live ret = some (text.length + 1) ∧ Holds next.heap.mem ret (stored text)
  refused : ret = 0 → next = state

/-- A copy from a live block into a new one. -/
theorem place_copy {s : ℕ} {bytes : List Byte} (tracks : Tracks state arena)
    (safe : SafeRequest kernel state.heap (text.length + 1)) (readable : Readable state s bytes)
    (write : Memory → ℕ → Memory)
    (outside : ∀ memory p x, x < p ∨ p + (text.length + 1) ≤ x → write memory p x = memory x)
    (copies : ∀ memory p, Holds memory s bytes → s + bytes.length ≤ p ∨ p + (text.length + 1) ≤ s →
      Holds (write memory p) p (stored text)) :
    ∃ ret next, ((exec state (.malloc kernel (text.length + 1))).bind fun (p, state) =>
        if p = 0 then some (0, state) else some (p, withMemory state (write state.heap.mem p))) = some (ret, next) ∧
      Copied state arena text ret next := by
  obtain ⟨ptr, heap', after, returned, tracks', allocates, keep, null⟩ := malloc_step tracks safe
  have kept (q m : ℕ) (known : state.live q = some m) : handOut state.live ptr (text.length + 1) q = some m :=
    handOut_other tracks.accounts allocates known
  simp only [exec, returned, Option.map_some, Option.bind_some]
  by_cases served : ptr = 0
  · refine ⟨0, _, if_pos served, ⟨after, tracks'⟩, kept, keep, fun served => absurd rfl served, fun _ => ?_⟩
    rw [null served, served]
    rfl
  obtain ⟨lower, granted, large, busy⟩ := allocates.granted served
  have request := (le_rounded (text.length + 1)).trans large
  obtain ⟨source, q, m, known, above, below⟩ := readable
  obtain ⟨lower', size, -, busy'⟩ := tracks.accounts.busy_of_live known
  rw [tracks.represents.blockSize lower' busy'] at below
  -- the source is in a block of the program, and the new block is apart from it
  have apart := after.apart (allocates.busy_kept busy') busy fun same => by
    rw [same] at busy'
    exact allocates.fresh served busy'
  simp only at apart
  have source' : Holds heap'.mem s bytes := by
    apply source.congr
    intro x first last
    exact (keep x ⟨_, busy', rfl, by simp only; omega, by simp only; omega⟩).symm
  refine ⟨ptr, _, if_neg served, ⟨after, ⟨?_, tracks'.accounts⟩⟩, kept, ?_, fun _ => ⟨?_, ?_⟩,
    fun null => absurd null served⟩
  · apply Represents.frame (show Represents heap' after from tracks'.represents)
    intro x
    by_cases away : x < ptr ∨ ptr + (text.length + 1) ≤ x
    · exact .inr (outside _ _ x away)
    · exact .inl (after.offHeaders busy (by simp only; omega) (by simp only; omega))
  · intro x owned
    have away : x < ptr ∨ ptr + (text.length + 1) ≤ x := by
      by_contra inside
      exact allocates.payload_fresh served busy (by omega) (by omega) owned
    exact (outside _ _ x away).trans (keep x owned)
  · simp only [withMemory, handOut, if_neg served, Function.update_self]
  · exact copies _ _ source' (by omega)

/-- A text in a live block is shorter than the address space. -/
theorem Readable.short {s : ℕ} {bytes : List Byte} (readable : Readable state s bytes) (tracks : Tracks state arena) :
    bytes.length + 16 < addressSpace := by
  obtain ⟨-, q, m, known, above, below⟩ := readable
  obtain ⟨lower, size, -, busy⟩ := tracks.accounts.busy_of_live known
  rw [tracks.represents.blockSize lower busy] at below
  have inside := (arena.bounds busy).2
  have bound := arena.brk_lt
  simp only [addressSpace] at *
  omega

/-- `strdup` and `strndup` return, with a copy of the text in a new block or with nothing changed. -/
theorem copy_step {call : CopyCall} (tracks : Tracks state arena) (copies : Copies state text call) :
    ∃ ret next, execCopy state call = some (ret, next) ∧ Copied state arena text ret next := by
  cases call with
  | strdup kernel s =>
    obtain ⟨readable, safe⟩ := copies
    have short := readable.short tracks
    rw [length_stored] at short
    have measured := strlen_stored readable.1 (show text.length < addressSpace by omega)
    simp only [execCopy, strdup, measured, Option.bind_eq_bind, Option.bind_some,
      wrap_of_lt (show text.length + 1 < 2 ^ 32 by simp only [addressSpace] at short; omega)]
    refine place_copy tracks safe readable (fun memory p => memcpy memory p s (text.length + 1)) ?_ ?_
    · intro memory p x away
      exact memcpy_outside memory p s _ x away
    · intro memory p source apart
      have copied := @holds_memcpy memory s p _ source
      rw [length_stored] at copied apart
      exact copied apart
  | strndup kernel s n =>
    obtain ⟨bound, readable, safe⟩ := copies
    have short := readable.short tracks
    have source : Holds state.heap.mem s (text.map CChar.byte) ∧ strnlen state.heap.mem s n = text.length ∧
        text.length + 16 < addressSpace ∧
        text.length ≤ (if text.length = n then text.map CChar.byte else stored text).length := by
      obtain ⟨holds, -⟩ := readable
      split at holds
      · next full =>
        subst full
        rw [if_pos rfl, List.length_map] at short ⊢
        exact ⟨holds, strnlen_full holds, short, Nat.le_refl _⟩
      · next partly =>
        rw [if_neg partly, length_stored] at short ⊢
        refine ⟨(holds_append.mp holds).1, ?_, by omega, by omega⟩
        rw [strnlen_stored holds]
        omega
    obtain ⟨-, measured, short, covers⟩ := source
    simp only [execCopy, strndup, measured,
      wrap_of_lt (show text.length + 1 < 2 ^ 32 by simp only [addressSpace] at short; omega)]
    refine place_copy tracks safe readable
      (fun memory p => Function.update (memcpy memory p s text.length) (p + text.length) 0) ?_ ?_
    · intro memory p x away
      rw [Function.update_of_ne (by omega), memcpy_outside memory p s _ x (by omega)]
    · intro memory p source apart
      refine holds_terminated ?_ (by omega)
      split at source
      · exact source
      · exact (holds_append.mp source).1
  | other call => exact copies.elim

/-! ## Runs -/

/-- A call of the program copies a text, or it is one to the allocator or a store. -/
theorem CopyGuarded.cases {call : CopyCall} (guarded : CopyGuarded state call) :
    (∃ text, Copies state text call) ∨ ∃ other, call = .other other ∧ Guarded state other := by
  cases call with
  | strdup kernel s => exact .inl guarded
  | strndup kernel s n => exact .inl guarded
  | other call => exact .inr ⟨call, rfl, guarded⟩

theorem copyStep_of_execCopy {call : CopyCall} {ret : ℕ} {next : State}
    (executed : execCopy state call = some (ret, next)) : copyStep state call = some next := by
  rw [copyStep, executed]
  rfl

/-- Every call of the program returns. -/
theorem copyStep_tracks {call : CopyCall} (tracks : Tracks state arena) (guarded : CopyGuarded state call) :
    ∃ next, copyStep state call = some next ∧ ∃ after, Tracks next after := by
  rcases guarded.cases with ⟨text, copies⟩ | ⟨other, rfl, guarded⟩
  · obtain ⟨ret, next, executed, copied⟩ := copy_step tracks copies
    exact ⟨next, copyStep_of_execCopy executed, copied.tracks⟩
  · obtain ⟨ret, next, after, outcome⟩ := exec_step tracks guarded
    exact ⟨next, copyStep_of_execCopy outcome.executed, after, outcome.tracks⟩

/-- The text is in a live block of its size. -/
structure Keeps (state : State) (p : ℕ) (text : CString) : Prop where
  tracks : ∃ arena, Tracks state arena
  live : state.live p = some (text.length + 1)
  holds : Holds state.heap.mem p (stored text)

theorem Tracks.owns (tracks : Tracks state arena) (known : state.live p = some (text.length + 1)) {x : ℕ}
    (lower : p ≤ x) (upper : x < p + (stored text).length) : arena.Payload x := by
  obtain ⟨above, size, enough, busy⟩ := tracks.accounts.busy_of_live known
  rw [length_stored] at upper
  exact ⟨_, busy, rfl, by simp only; omega, by simp only; omega⟩

theorem Keeps.step {call : CopyCall} (keeps : Keeps state p text) (guarded : CopyGuarded state call)
    (spares : Spares p text call) : ∃ next, copyStep state call = some next ∧ Keeps next p text := by
  obtain ⟨⟨arena, tracks⟩, known, holds⟩ := keeps
  rcases guarded.cases with ⟨other, copies⟩ | ⟨call, rfl, guarded⟩
  · obtain ⟨ret, next, executed, copied⟩ := copy_step tracks copies
    refine ⟨next, copyStep_of_execCopy executed, copied.tracks, copied.live p _ known, ?_⟩
    exact holds.congr fun x lower upper => (copied.keeps x (Tracks.owns tracks known lower upper)).symm
  · obtain ⟨ret, next, after, outcome⟩ := exec_step tracks guarded
    refine ⟨next, copyStep_of_execCopy outcome.executed, ⟨after, outcome.tracks⟩,
      exec_keeps_live tracks guarded outcome.executed known spares, ?_⟩
    apply holds.congr
    intro x lower upper
    by_cases storing : call.IsStore
    · cases call with
      | store address value =>
        obtain ⟨-, rfl⟩ := Prod.mk.inj (Option.some.inj outcome.executed)
        rw [length_stored] at upper
        simp only [Spares] at spares
        exact (Function.update_of_ne (by omega) _ _).symm
      | malloc | calloc | realloc | free | sbrk => exact storing.elim
    · exact (outcome.keeps storing x (Tracks.owns tracks known lower upper)).symm

/-- A block with the text `hi`. -/
def hiCalls : List CopyCall :=
  [.other (.malloc granting 3), .other (.store 4112 104), .other (.store 4113 105), .other (.store 4114 0)]

theorem three_safe (heap : Heap) : SafeRequest granting heap 3 :=
  small_safe granting heap (show 16 + rounded 3 < 2 ^ 31 by decide)

theorem hiCalls_permitted : Permitted copyStep CopyGuarded (State.initial (fun _ => 0) 4096) hiCalls := by
  have writable (state : State) (known : state.live 4112 = some 3) (size : state.heap.blockSize 4112 = 8) {k : ℕ}
      (inside : k < 8) : Respects state (.store (4112 + k) 0) :=
    .inl ⟨4112, 3, known, by omega, by omega⟩
  refine .cons ⟨trivial, three_safe _⟩ rfl ?_
  refine .cons ⟨writable _ rfl rfl (show 0 < 8 by decide), trivial⟩ rfl ?_
  refine .cons ⟨writable _ rfl rfl (show 1 < 8 by decide), trivial⟩ rfl ?_
  exact .cons ⟨writable _ rfl rfl (show 2 < 8 by decide), trivial⟩ rfl trivial

theorem hiCalls_run :
    ∃ state next, run copyStep (State.initial (fun _ => 0) 4096) hiCalls = some state ∧
      execCopy state (.strdup granting 4112) = some (4136, next) ∧
      Readable state 4112 (stored (cstr "hi")) ∧ next.live 4112 = some 3 ∧ next.heap.blockSize 4112 = 8 :=
  ⟨_, _, rfl, rfl, ⟨⟨rfl, rfl, rfl, trivial⟩, 4112, 3, rfl, by decide, by decide⟩, rfl, rfl⟩

end CLite.Text
