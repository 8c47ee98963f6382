import Mathlib.Algebra.BigOperators.Group.List.Basic
import CLite.Proofs.GlobMemory

/-! # Nothing is released twice and little is lost

Every function that takes descriptors or memory hands them to a handle of the program or gives them back. So in every
run everything that is held belongs to one handle, apart from what failed calls have lost.
-/

namespace CLite

open Ownership CallRun

/-! ## Single calls -/

/-- What a call owns at its end belongs to the handles that it leaves, except for one resource for each failure. -/
def Settled (result : CallResult) (left : Multiset Resource) : Prop :=
  ∃ lost, left = owned result.handles + lost ∧ lost.card ≤ result.failures

theorem Settled.exactly {handles : List Handle} {left : Multiset Resource} (all : left = owned handles) :
    Settled ⟨handles, 0⟩ left :=
  ⟨0, by rw [all, add_zero], Nat.le_refl _⟩

theorem owned_singleton (handle : Handle) : owned [handle] = handle.owned := add_zero _

theorem owned_append (first second : List Handle) : owned (first ++ second) = owned first + owned second := by
  rw [owned, List.map_append, List.sum_append, owned, owned]

theorem Settled.one {handle : Handle} {left : Multiset Resource} (all : left = handle.owned) :
    Settled ⟨[handle], 0⟩ left := .exactly (all.trans (owned_singleton handle).symm)

/-- A program that gives everything back. -/
theorem Runs.settled_nothing {program : Program Resource Unit} {mine : Multiset Resource}
    (runs : Runs program mine fun _ left => left = 0) : Runs (do program; pure ⟨[], 0⟩) mine Settled := by
  apply runs.bind
  rintro _ _ rfl
  exact runs_pure (.exactly rfl)

variable (system : ResourceSystem) (fs : FileSystem)

/-- A program that makes a handle or has nothing. -/
theorem Runs.settled_option {α : Type} {program : Program Resource (Option α)} {handle : α → Handle}
    {mine : Multiset Resource}
    (runs : Runs program mine fun made left => left = made.elim 0 fun value => (handle value).owned) :
    Runs (do let made ← program; pure ⟨(made.map handle).toList, 0⟩) mine Settled := by
  apply runs.bind
  rintro (_ | value) _ rfl
  · exact runs_pure (.exactly rfl)
  · exact runs_pure (.one rfl)

theorem MakeCall.perform_runs (call : MakeCall) {p : Lifetimes}
    (allowed : LifetimeDiscipline system p (.make call)) : Runs (call.perform system fs) 0 Settled := by
  cases call with
  | «open» =>
    apply Runs.settled_option
    exact runs_acquire (fun _ => rfl) fun _ => rfl
  | malloc =>
    apply Runs.settled_option
    exact runs_acquire (fun _ => rfl) fun _ => rfl
  | fopen =>
    apply (fopenOwned_runs system).bind
    rintro (_ | stream) _ ⟨lost, rfl, few⟩
    · exact runs_pure ⟨lost, rfl, few⟩
    · exact runs_pure ⟨lost, by rw [owned_singleton]; rfl, few⟩
  | opendir =>
    apply Runs.settled_option
    apply (opendirOwned_runs system).mono
    rintro dirp _ ⟨rfl, -⟩
    rfl
  | getaddrinfo node =>
    apply Runs.settled_option
    apply (getaddrinfoOwned_runs system node).mono
    rintro (_ | res) _ rfl
    · rfl
    · exact (add_zero _).symm
  | glob pattern flags =>
    apply (globOwned_runs allowed.1).bind
    rintro _ _ (⟨some, chosen⟩ | ⟨nocheck, chosen, text⟩ | chosen | ⟨reason, few, left⟩)
    · exact runs_pure (.one rfl)
    · exact runs_pure (.one rfl)
    · exact runs_pure (.exactly rfl)
    · obtain ⟨few, empty⟩ := few allowed.2
      refine runs_pure ⟨_, ?_, few⟩
      rw [owned_singleton, Handle.owned, OwnedGlob.owned_eq_zero empty, zero_add]

theorem UseCall.perform_runs {call : UseCall} {handle : Handle} {program : Program Resource CallResult}
    (performs : call.perform system handle = some program) : Runs program handle.owned Settled := by
  unfold UseCall.perform at performs
  split at performs
  all_goals cases performs
  case h_1 fd => exact Runs.settled_nothing (runs_release rfl rfl)
  case h_2 block => exact Runs.settled_nothing (runs_release rfl rfl)
  case h_3 block =>
    have moved : Runs (exchange system.malloc block) {Resource.block block}
        fun moved left => left = {.block (moved.getD block)} := runs_exchange rfl (fun _ => rfl) fun _ => rfl
    apply moved.bind
    rintro _ _ rfl
    exact runs_pure (.one rfl)
  case h_4 fd =>
    apply (fdopenOwned_runs system fd).bind
    rintro (_ | stream) _ rfl
    · exact runs_pure (.one rfl)
    · exact runs_pure (.one rfl)
  case h_5 stream =>
    apply (freopenOwned_runs system stream).bind
    rintro (_ | stream) _ ⟨lost, rfl, few⟩
    · exact runs_pure ⟨lost, rfl, few⟩
    · exact runs_pure ⟨lost, by rw [owned_singleton]; rfl, few⟩
  case h_6 stream => exact Runs.settled_nothing (fcloseOwned_runs stream)
  case h_7 dirp => exact Runs.settled_nothing (closedirOwned_runs dirp)
  case h_8 res => exact Runs.settled_nothing (freeaddrinfoOwned_runs res)
  case h_9 pglob =>
    apply (globfreeOwned_runs pglob).bind
    rintro after _ ⟨rfl, empty⟩
    exact runs_pure (.one (OwnedGlob.owned_eq_zero empty).symm)

/-! ## Runs -/

/-- Everything held is owned by one handle or was lost, and each loss has its failure. -/
def Accounted (p : Lifetimes) : Prop :=
  ∃ lost, p.store.held = owned p.handles + lost ∧ p.store.held.Nodup ∧ lost.card ≤ p.failures

/-- A handle apart from the others. -/
theorem owned_eraseIdx {handles : List Handle} {index : ℕ} {handle : Handle}
    (found : handles[index]? = some handle) : owned handles = handle.owned + owned (handles.eraseIdx index) := by
  obtain ⟨inside, rfl⟩ := List.getElem?_eq_some_iff.mp found
  have moved := (List.getElem_cons_eraseIdx_perm inside).map Handle.owned
  rw [owned, ← moved.sum_eq, List.map_cons, List.sum_cons, owned]

/-- A call that owns what is no other handle's leaves the program accounted for. -/
theorem Settled.accounted {result : CallResult} {left lost : Multiset Resource} {handles : List Handle}
    {store : Ownership.Store Resource} {failures : ℕ} (settled : Settled result left)
    (held : store.held = left + (owned handles + lost)) (distinct : store.held.Nodup) (few : lost.card ≤ failures) :
    Accounted ⟨result.handles ++ handles, failures + result.failures, store⟩ := by
  obtain ⟨more, rfl, fewer⟩ := settled
  refine ⟨more + lost, ?_, distinct, ?_⟩
  · rw [held, owned_append]
    abel
  · rw [Multiset.card_add, add_comm]
    exact Nat.add_le_add few fewer

theorem lifetimeStep_accounted (p : Lifetimes) (call : LifetimeCall) (accounted : Accounted p)
    (allowed : LifetimeDiscipline system p call) :
    ∃ next, lifetimeStep system fs p call = some next ∧ Accounted next := by
  obtain ⟨lost, held, distinct, few⟩ := accounted
  cases call with
  | make call =>
    obtain ⟨result, left, store, ran, after, distinct, settled⟩ :=
      (call.perform_runs system fs allowed).exec (held.trans (zero_add _).symm) distinct
    refine ⟨_, ?_, settled.accounted after distinct few⟩
    rw [lifetimeStep, ran]
    rfl
  | use call index =>
    obtain ⟨handle, found, defined⟩ := allowed
    obtain ⟨program, performs⟩ := Option.isSome_iff_exists.mp defined
    rw [owned_eraseIdx found, add_assoc] at held
    obtain ⟨result, left, store, ran, after, distinct, settled⟩ :=
      (UseCall.perform_runs system performs).exec held distinct
    refine ⟨_, ?_, settled.accounted after distinct few⟩
    simp only [lifetimeStep, found, performs, ran, Option.bind_eq_bind, Option.bind_some]

/-- Whatever `open` and `malloc` refuse, a program that uses its handles only as what they are, and calls `glob` only
without `GLOB_APPEND` and with patterns whose text fits into the path array, releases nothing twice. Each descriptor
and each block that is held belongs to exactly one of its handles or was lost. There are no more losses than calls of
`fopen` and `freopen` that returned nothing and calls of `glob` that returned `GLOB_NOSPACE`. -/
theorem lifetimes_accounted (calls : List LifetimeCall)
    (permitted : Permitted (lifetimeStep system fs) (LifetimeDiscipline system) standardStreams calls) :
    ∃ final lost, run (lifetimeStep system fs) standardStreams calls = some final ∧
      final.store.held = owned final.handles + lost ∧ final.store.held.Nodup ∧ lost.card ≤ final.failures := by
  have initial : Accounted standardStreams := ⟨0, by decide, by decide, Nat.le_refl _⟩
  obtain ⟨final, finished, lost, held, distinct, few⟩ :=
    run_invariant Accounted (lifetimeStep_accounted system fs) initial permitted
  exact ⟨final, lost, finished, held, distinct, few⟩

/-- The first number of a list whose resource is not held. -/
def pool {kind : ℕ → Resource} (numbers : List ℕ) : Supply kind where
  grant _ held := numbers.find? fun number => kind number ∉ held
  fresh _ held number granted := by simpa using List.find?_some granted

/-- Three descriptors and two blocks besides what the standard streams have. -/
def smallSystem : ResourceSystem where
  opens := pool [3, 4, 5]
  malloc := pool [0, 1]

/-- While a directory is open there is no memory for the stream, and its descriptor is lost. -/
theorem lifetimes_accounted_small :
    ∃ final lost, run (lifetimeStep smallSystem (oneEntry .other)) standardStreams
        [.make .opendir, .make .fopen, .use .closedir 0, .make (.glob [chr '*'] 0), .use .freopen 1] = some final ∧
      final.store.held = owned final.handles + lost ∧ final.store.held.Nodup ∧ lost.card ≤ final.failures := by
  apply lifetimes_accounted
  refine .cons trivial rfl ?_
  refine .cons trivial rfl ?_
  refine .cons ⟨_, rfl, rfl⟩ rfl ?_
  refine .cons ⟨by decide, by decide⟩ rfl ?_
  exact .cons ⟨_, rfl, rfl⟩ rfl trivial

end CLite
