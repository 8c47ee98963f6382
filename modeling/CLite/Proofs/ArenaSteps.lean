import CLite.Proofs.FreeRefines

/-! # What allocation and release do to an arena

Both keep all busy blocks except the one released, allocation adds exactly one busy block of at least
the requested size at an address where none was busy, and neither leaves a gap in a heap that had none.
-/

namespace CLite

open FreeList

/-- The break does not move down, and a heap without gaps stays without gaps. -/
structure Arena.Grows (before after : Arena) : Prop where
  brk : before.brk ≤ after.brk
  tiles : ∀ lo, Tiles headerSize lo before.brk before.blocks → Tiles headerSize lo after.brk after.blocks

namespace Arena

theorem Grows.refl (arena : Arena) : arena.Grows arena := ⟨le_rfl, fun _ layout => layout⟩

theorem Grows.trans {first second third : Arena} (left : first.Grows second)
    (right : second.Grows third) : first.Grows third :=
  ⟨left.brk.trans right.brk, fun lo layout => right.tiles lo (left.tiles lo layout)⟩

theorem release_grows (arena : Arena) (addr : ℕ) : arena.Grows (arena.release addr) :=
  ⟨le_rfl, fun _ layout => merge_tiles (release_tiles layout)⟩

theorem busy_mem_release {arena : Arena} {addr a s : ℕ} :
    ⟨a, s, false⟩ ∈ (arena.release addr).blocks ↔ ⟨a, s, false⟩ ∈ arena.blocks ∧ a ≠ addr := by
  rw [release_blocks, busy_mem_merge_iff, busy_mem_release_iff]

variable {kernel : Kernel} {arena after : Arena} {n ptr a s : ℕ}

namespace Allocates

theorem eq_of_null (allocates : arena.Allocates kernel n ptr after) (null : ptr = 0) : after = arena := by
  cases allocates with
  | refused => rfl
  | reused => omega
  | grown => omega

theorem grows (allocates : arena.Allocates kernel n ptr after) : arena.Grows after := by
  cases allocates with
  | refused => exact .refl arena
  | reused request pre e post shape free =>
    exact ⟨le_rfl, fun lo layout => carve_tiles (shape ▸ layout)⟩
  | grown request unfit granted =>
    refine ⟨by simp only [grow_brk]; omega, fun lo layout => ?_⟩
    simp only [grow_blocks, grow_brk]
    exact Tiles.append_cons.mpr ⟨layout, rfl⟩

/-- The block behind the returned pointer is busy and at least as large as the rounded request. -/
theorem granted (allocates : arena.Allocates kernel n ptr after) (served : ptr ≠ 0) :
    16 ≤ ptr ∧ ∃ size, rounded n ≤ size ∧ ⟨ptr - 16, size, false⟩ ∈ after.blocks := by
  cases allocates with
  | refused => exact (served rfl).elim
  | reused request pre e post shape free fits =>
    obtain ⟨size, rest, carved, large⟩ := carve_head headerSize 16 fits
    refine ⟨by omega, size, large, ?_⟩
    simp [carved]
  | grown request unfit granted => exact ⟨by omega, rounded n, le_rfl, by simp⟩

/-- The returned address was not busy before. -/
theorem fresh (allocates : arena.Allocates kernel n ptr after) (served : ptr ≠ 0) :
    ⟨ptr - 16, s, false⟩ ∉ arena.blocks := by
  intro busy
  cases allocates with
  | refused => exact served rfl
  | reused request pre e post shape free =>
    have same := arena.layout.eq_of_addr_eq (by decide) busy (show e ∈ arena.blocks by simp [shape])
      (by simp)
    exact Bool.false_ne_true ((congrArg Extent.free same).trans free)
  | grown =>
    have inside := (arena.bounds busy).2
    simp only at inside
    omega

theorem busy_kept (allocates : arena.Allocates kernel n ptr after)
    (busy : ⟨a, s, false⟩ ∈ arena.blocks) : ⟨a, s, false⟩ ∈ after.blocks := by
  cases allocates with
  | refused => exact busy
  | reused request pre e post shape free =>
    have other : (⟨a, s, false⟩ : Extent) ≠ e := by
      rintro rfl
      exact Bool.false_ne_true free
    rw [shape] at busy
    simp only [List.mem_append, List.mem_cons, other, false_or, reuse_blocks] at busy ⊢
    tauto
  | grown => simp [busy]

/-- The only block that becomes busy is the one handed out. -/
theorem busy_cases (allocates : arena.Allocates kernel n ptr after)
    (busy : ⟨a, s, false⟩ ∈ after.blocks) :
    ⟨a, s, false⟩ ∈ arena.blocks ∨ ptr ≠ 0 ∧ a + 16 = ptr := by
  cases allocates with
  | refused => exact .inl busy
  | reused request pre e post shape free =>
    rw [shape]
    simp only [reuse_blocks, List.mem_append] at busy
    rcases busy with before | carved | behind
    · exact .inl (by simp [before])
    · exact .inr ⟨by omega, by rw [busy_mem_carve carved]⟩
    · exact .inl (by simp [behind])
  | grown request =>
    simp only [grow_blocks, List.mem_append, List.mem_singleton, Extent.mk.injEq] at busy
    rcases busy with before | ⟨rfl, -⟩
    · exact .inl before
    · exact .inr ⟨by omega, rfl⟩

/-- The payload handed out belongs to no block that was busy before. -/
theorem payload_fresh {size x : ℕ} (allocates : arena.Allocates kernel n ptr after) (served : ptr ≠ 0)
    (granted : ⟨ptr - 16, size, false⟩ ∈ after.blocks) (lower : ptr ≤ x) (upper : x < ptr + size) :
    ¬ arena.Payload x := by
  rintro ⟨⟨a, s, flag⟩, member, busy, above, below⟩
  simp only at busy above below
  subst busy
  have different : (⟨a, s, false⟩ : Extent) ≠ ⟨ptr - 16, size, false⟩ := by
    rintro same
    rw [same] at member
    exact allocates.fresh served member
  have apart := after.apart (allocates.busy_kept member) granted different
  have := (allocates.granted served).1
  dsimp only at apart
  omega

end Allocates

end Arena

end CLite
