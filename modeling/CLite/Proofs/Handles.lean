import CLite.Spec.Lifetimes

/-! # What the functions on handles own

One triple for each function of `Model.Lifetimes`: what it needs, and what is owned afterwards. A function that
returns nothing gives back what it has taken, except for `fopen` and `freopen`.
-/

namespace CLite

open Ownership

@[simp] theorem blocks_nil : blocks [] = 0 := rfl

@[simp] theorem blocks_cons (number : ℕ) (numbers : List ℕ) :
    blocks (number :: numbers) = .block number ::ₘ blocks numbers := rfl

theorem blocks_append (first second : List ℕ) : blocks (first ++ second) = blocks first + blocks second := by
  rw [blocks, List.map_append, ← Multiset.coe_add, blocks, blocks]

section Functions

variable (system : ResourceSystem)

theorem freeOwned_runs (block : Option ℕ) :
    Runs (freeOwned block) (blocks block.toList) fun _ owned => owned = 0 := by
  cases block with
  | none => exact runs_pure rfl
  | some block => exact runs_release rfl rfl

/-- What a request for a block may lead to. -/
def MallocResult (mine : Multiset Resource) : Option ℕ → Multiset Resource → Prop
  | none, owned => owned = mine ∧ ¬ system.malloc.Generous
  | some block, owned => owned = .block block ::ₘ mine

theorem malloc_runs (mine : Multiset Resource) : Runs (acquire system.malloc) mine (MallocResult system mine) :=
  runs_acquire (fun poor => ⟨rfl, poor⟩) fun _ => rfl

theorem fdopenOwned_runs (fd : ℕ) : Runs (fdopenOwned system fd) {.descriptor fd} fun stream owned =>
    owned = stream.elim {.descriptor fd} FileHandle.owned := by
  apply (malloc_runs system _).bind
  rintro (_ | block) _ granted
  · exact runs_pure granted.1
  · obtain rfl := granted
    exact runs_pure (Multiset.cons_swap _ _ _)

/-- A descriptor that was opened is lost if there is no memory for the stream. -/
theorem fopenOwned_runs : Runs (fopenOwned system) 0 fun stream owned => ∃ lost,
    owned = stream.elim 0 FileHandle.owned + lost ∧ lost.card ≤ if stream.isSome then 0 else 1 := by
  have opened : Runs (acquire system.opens) 0 fun fd owned => owned = ↑(fd.map Resource.descriptor).toList :=
    runs_acquire (fun _ => rfl) fun _ => rfl
  apply opened.bind
  rintro fd _ rfl
  cases fd with
  | none => exact runs_pure ⟨0, rfl, Nat.zero_le _⟩
  | some fd =>
    apply (fdopenOwned_runs system fd).mono
    rintro stream _ rfl
    cases stream with
    | none => exact ⟨{.descriptor fd}, (zero_add _).symm, Nat.le_refl _⟩
    | some stream => exact ⟨0, (add_zero _).symm, Nat.le_refl _⟩

/-- The memory of the stream is lost if the file cannot be opened. -/
theorem freopenOwned_runs (stream : FileHandle) : Runs (freopenOwned system stream) stream.owned
    fun reopened owned => ∃ lost,
      owned = reopened.elim 0 FileHandle.owned + lost ∧ lost.card ≤ if reopened.isSome then 0 else 1 := by
  have closed : Runs (release (Resource.descriptor stream.fd)) stream.owned
      fun _ owned => owned = blocks stream.block.toList := runs_release rfl rfl
  apply closed.bind
  rintro _ _ rfl
  have opened : Runs (acquire system.opens) (blocks stream.block.toList)
      fun fd owned => owned = ↑(fd.map Resource.descriptor).toList + blocks stream.block.toList :=
    runs_acquire (fun _ => (zero_add _).symm) fun _ => rfl
  apply opened.bind
  rintro fd _ rfl
  cases fd with
  | none =>
    refine runs_pure ⟨blocks stream.block.toList, rfl, ?_⟩
    cases stream.block with
    | none => exact Nat.zero_le _
    | some block => exact Nat.le_refl _
  | some fd => exact runs_pure ⟨0, (add_zero _).symm, Nat.le_refl _⟩

theorem fcloseOwned_runs (stream : FileHandle) :
    Runs (fcloseOwned stream) stream.owned fun _ owned => owned = 0 := by
  have closed : Runs (release (Resource.descriptor stream.fd)) stream.owned
      fun _ owned => owned = blocks stream.block.toList := runs_release rfl rfl
  apply closed.bind
  rintro _ _ rfl
  exact freeOwned_runs stream.block

/-- Without a buffer the directory has no names, which happens only if memory was refused. -/
theorem opendirOwned_runs : Runs (opendirOwned system) 0 fun dirp owned =>
    owned = dirp.elim 0 DirHandle.owned ∧
      ((dirp.bind DirHandle.buf).isSome ∨ ¬ (system.opens.Generous ∧ system.malloc.Generous)) := by
  have opened : Runs (acquire system.opens) 0 fun fd owned =>
      owned = ↑(fd.map Resource.descriptor).toList ∧ (fd.isSome ∨ ¬ system.opens.Generous) :=
    runs_acquire (fun poor => ⟨rfl, .inr poor⟩) fun _ => ⟨rfl, .inl rfl⟩
  apply opened.bind
  rintro fd _ ⟨rfl, supplied⟩
  cases fd with
  | none => exact runs_pure ⟨rfl, .inr fun generous => supplied.elim Bool.false_ne_true fun poor => poor generous.1⟩
  | some fd =>
    apply (malloc_runs system _).bind
    rintro (_ | block) _ granted
    · obtain ⟨rfl, poor⟩ := granted
      have closed : Runs (release (Resource.descriptor fd)) {Resource.descriptor fd} fun _ owned => owned = 0 :=
        runs_release rfl rfl
      apply closed.bind
      rintro _ _ rfl
      exact runs_pure ⟨rfl, .inr fun generous => poor generous.2⟩
    · obtain rfl := granted
      apply (malloc_runs system _).bind
      rintro (_ | buf) _ granted
      · obtain ⟨rfl, poor⟩ := granted
        refine runs_pure ⟨?_, .inr fun generous => poor generous.2⟩
        exact Multiset.cons_swap (Resource.block block) (.descriptor fd) 0
      · obtain rfl := granted
        refine runs_pure ⟨?_, .inl rfl⟩
        change Resource.block buf ::ₘ .block block ::ₘ .descriptor fd ::ₘ 0 =
          .descriptor fd ::ₘ .block block ::ₘ .block buf ::ₘ 0
        rw [Multiset.cons_swap (Resource.block block), Multiset.cons_swap (Resource.block buf),
          Multiset.cons_swap (Resource.block buf)]

theorem closedirOwned_runs (dirp : DirHandle) :
    Runs (closedirOwned dirp) dirp.owned fun _ owned => owned = 0 := by
  have split : dirp.owned = blocks dirp.buf.toList + {.descriptor dirp.fd, .block dirp.block} := by
    rw [add_comm]
    rfl
  apply (freeOwned_runs dirp.buf).call split
  rintro _ _ rfl
  have closed : Runs (release (Resource.descriptor dirp.fd)) {.descriptor dirp.fd, .block dirp.block}
      fun _ owned => owned = {.block dirp.block} := runs_release rfl rfl
  rw [zero_add]
  apply closed.bind
  rintro _ _ rfl
  exact runs_release rfl rfl

theorem getaddrinfoOwned_runs (node : CString) : Runs (getaddrinfoOwned system node) 0 fun res owned =>
    owned = res.elim 0 AddrinfoHandle.owned := by
  have allocated (mine : Multiset Resource) : Runs (acquire system.malloc) mine
      fun block owned => owned = blocks block.toList + mine :=
    runs_acquire (fun _ => (zero_add _).symm) fun _ => rfl
  rw [getaddrinfoOwned]
  split
  next =>
    apply (allocated 0).bind
    rintro ai _ rfl
    apply (allocated _).bind
    rintro sin _ rfl
    -- Whatever was granted is freed unless both were.
    have undone : Runs (do freeOwned ai; freeOwned sin; pure none) (blocks sin.toList + (blocks ai.toList + 0))
        fun res owned => owned = Option.elim res 0 AddrinfoHandle.owned := by
      apply (freeOwned_runs ai).call (show _ = _ + blocks sin.toList by rw [add_zero, add_comm])
      rintro _ _ rfl
      apply (freeOwned_runs sin).call (add_comm _ _)
      rintro _ _ rfl
      exact runs_pure rfl
    rcases ai with _ | ai
    · exact undone
    · rcases sin with _ | sin
      · exact undone
      · exact runs_pure rfl
  next => exact runs_pure rfl

theorem freeaddrinfoOwned_runs (res : List AddrinfoHandle) :
    Runs (freeaddrinfoOwned res) (res.map AddrinfoHandle.owned).sum fun _ owned => owned = 0 := by
  induction res with
  | nil => exact runs_pure rfl
  | cons first rest ih =>
    have addr : Runs (release (Resource.block first.addr)) first.owned
        fun _ owned => owned = {.block first.block} := runs_release rfl rfl
    apply addr.call List.sum_cons
    rintro _ _ rfl
    have info : Runs (release (Resource.block first.block)) {.block first.block} fun _ owned => owned = 0 :=
      runs_release rfl rfl
    apply info.call rfl
    rintro _ _ rfl
    rwa [zero_add]

end Functions

end CLite
