import Mathlib.Algebra.Order.Group.Multiset
import Mathlib.Data.Multiset.AddSub
import Mathlib.Data.Multiset.UnionInter
import Mathlib.Tactic.Abel

/-! # Programs that own resources

A program acquires resources from a supply, which may refuse, and releases them. To release what is not held is a
fault. `Runs` says that a program which owns some of the resources ends without a fault, whatever else is held, and
that it leaves alone what it does not own.
-/

namespace Ownership

variable {ρ κ α β : Type} {kind : κ → ρ}

/-- Where the resources of one kind come from: what a request is granted, if anything, is not held yet. -/
structure Supply (kind : κ → ρ) where
  grant : ℕ → Multiset ρ → Option κ
  fresh : ∀ request held key, grant request held = some key → kind key ∉ held

/-- Nothing is ever refused. -/
def Supply.Generous (supply : Supply kind) : Prop := ∀ request held, supply.grant request held ≠ none

/-- What is held, and the number of requests so far. -/
structure Store (ρ : Type) where
  held : Multiset ρ
  requests : ℕ

/-- A program on resources; it faults with `none`. -/
abbrev Program (ρ : Type) := StateT (Store ρ) Option

/-- The program, owning `mine`, ends without a fault and owns then what the postcondition says. -/
def Runs (program : Program ρ α) (mine : Multiset ρ) (post : α → Multiset ρ → Prop) : Prop :=
  ∀ frame requests, (mine + frame).Nodup →
    ∃ result owned later, program ⟨mine + frame, requests⟩ = some (result, ⟨owned + frame, later⟩) ∧
      (owned + frame).Nodup ∧ post result owned

variable {program : Program ρ α} {mine others : Multiset ρ} {post : α → Multiset ρ → Prop}

theorem runs_pure {result : α} (holds : post result mine) : Runs (pure result) mine post := by
  intro frame requests distinct
  exact ⟨result, mine, requests, rfl, distinct, holds⟩

theorem Runs.bind {next : α → Program ρ β} {after : β → Multiset ρ → Prop} (first : Runs program mine post)
    (second : ∀ result owned, post result owned → Runs (next result) owned after) :
    Runs (program >>= next) mine after := by
  intro frame requests distinct
  obtain ⟨result, owned, later, ran, distinct, holds⟩ := first frame requests distinct
  obtain ⟨final, left, last, finished, distinct, holds⟩ := second result owned holds frame later distinct
  refine ⟨final, left, last, ?_, distinct, holds⟩
  change (program _).bind _ = _
  rw [ran]
  exact finished

theorem Runs.mono {weaker : α → Multiset ρ → Prop} (runs : Runs program mine post)
    (implies : ∀ result owned, post result owned → weaker result owned) : Runs program mine weaker := by
  intro frame requests distinct
  obtain ⟨result, owned, later, ran, distinct, holds⟩ := runs frame requests distinct
  exact ⟨result, owned, later, ran, distinct, implies result owned holds⟩

/-- What a program does not need is still owned afterwards. -/
theorem Runs.frame (runs : Runs program mine post) (others : Multiset ρ) :
    Runs program (mine + others) fun result owned => ∃ left, owned = left + others ∧ post result left := by
  intro frame requests distinct
  rw [add_assoc] at distinct
  obtain ⟨result, owned, later, ran, distinct, holds⟩ := runs (others + frame) requests distinct
  refine ⟨result, owned + others, later, ?_, ?_, owned, rfl, holds⟩
  · rw [add_assoc, add_assoc, ran]
  · rwa [add_assoc]

/-- A program calls another with what that needs, and keeps the rest. -/
theorem Runs.call {needed : Multiset ρ} {next : α → Program ρ β} {after : β → Multiset ρ → Prop}
    (first : Runs program needed post) (split : mine = needed + others)
    (second : ∀ result owned, post result owned → Runs (next result) (owned + others) after) :
    Runs (program >>= next) mine after := by
  subst split
  apply (first.frame others).bind
  rintro result _ ⟨owned, rfl, holds⟩
  exact second result owned holds

/-- The program in a store that holds what it owns and a frame. -/
theorem Runs.exec (runs : Runs program mine post) {store : Store ρ} {frame : Multiset ρ}
    (held : store.held = mine + frame) (distinct : store.held.Nodup) :
    ∃ result owned next, program store = some (result, next) ∧ next.held = owned + frame ∧ next.held.Nodup ∧
      post result owned := by
  obtain ⟨all, requests⟩ := store
  obtain rfl : all = mine + frame := held
  obtain ⟨result, owned, later, ran, distinct, holds⟩ := runs frame requests distinct
  exact ⟨result, owned, ⟨owned + frame, later⟩, ran, rfl, distinct, holds⟩

/-! ## Acquiring and releasing -/

def acquire (supply : Supply kind) : Program ρ (Option κ) := fun store =>
  match supply.grant store.requests store.held with
  | none => some (none, { store with requests := store.requests + 1 })
  | some key => some (some key, ⟨kind key ::ₘ store.held, store.requests + 1⟩)

variable [DecidableEq ρ]

def release (resource : ρ) : Program ρ Unit := fun store =>
  if resource ∈ store.held then some ((), { store with held := store.held.erase resource }) else none

/-- A resource in place of another one, which may be that one again; if it is refused, the old one is kept. -/
def exchange (supply : Supply kind) (old : κ) : Program ρ (Option κ) := fun store =>
  if kind old ∈ store.held then
    match supply.grant store.requests (store.held.erase (kind old)) with
    | none => some (none, { store with requests := store.requests + 1 })
    | some key => some (some key, ⟨kind key ::ₘ store.held.erase (kind old), store.requests + 1⟩)
  else none

omit [DecidableEq ρ] in
theorem runs_acquire {supply : Supply kind} {post : Option κ → Multiset ρ → Prop}
    (refused : ¬ supply.Generous → post none mine) (granted : ∀ key, post (some key) (kind key ::ₘ mine)) :
    Runs (acquire supply) mine post := by
  intro frame requests distinct
  cases answer : supply.grant requests (mine + frame) with
  | none =>
    refine ⟨none, mine, requests + 1, ?_, distinct, refused fun generous => generous _ _ answer⟩
    rw [acquire, answer]
  | some key =>
    refine ⟨some key, kind key ::ₘ mine, requests + 1, ?_, ?_, granted key⟩
    · rw [acquire, answer, Multiset.cons_add]
    · rw [Multiset.cons_add, Multiset.nodup_cons]
      exact ⟨supply.fresh _ _ _ answer, distinct⟩

theorem runs_release {resource : ρ} {post : Unit → Multiset ρ → Prop} (owned : mine = resource ::ₘ others)
    (holds : post () others) : Runs (release resource) mine post := by
  subst owned
  intro frame requests distinct
  rw [Multiset.cons_add] at distinct
  refine ⟨(), others, requests, ?_, (Multiset.nodup_cons.mp distinct).2, holds⟩
  rw [Multiset.cons_add, release, if_pos (Multiset.mem_cons_self _ _), Multiset.erase_cons_head]

theorem runs_exchange {supply : Supply kind} {old : κ} {post : Option κ → Multiset ρ → Prop}
    (owned : mine = kind old ::ₘ others) (refused : ¬ supply.Generous → post none mine)
    (granted : ∀ key, post (some key) (kind key ::ₘ others)) : Runs (exchange supply old) mine post := by
  subst owned
  intro frame requests distinct
  rw [Multiset.cons_add] at distinct
  have present := Multiset.mem_cons_self (kind old) (others + frame)
  cases answer : supply.grant requests (others + frame) with
  | none =>
    refine ⟨none, kind old ::ₘ others, requests + 1, ?_, ?_, refused fun generous => generous _ _ answer⟩
    · rw [Multiset.cons_add, exchange, if_pos present, Multiset.erase_cons_head, answer]
    · rwa [Multiset.cons_add]
  | some key =>
    refine ⟨some key, kind key ::ₘ others, requests + 1, ?_, ?_, granted key⟩
    · rw [Multiset.cons_add, exchange, if_pos present, Multiset.erase_cons_head, answer, Multiset.cons_add]
    · rw [Multiset.cons_add, Multiset.nodup_cons]
      exact ⟨supply.fresh _ _ _ answer, (Multiset.nodup_cons.mp distinct).2⟩

/-- Release a list of resources, from the front. -/
def releaseAll (resources : List ρ) : Program ρ Unit := resources.forM release

theorem runs_releaseAll {resources : List ρ} {post : Unit → Multiset ρ → Prop}
    (owned : mine = ↑resources + others) (holds : post () others) : Runs (releaseAll resources) mine post := by
  induction resources generalizing mine with
  | nil =>
    rw [Multiset.coe_nil, zero_add] at owned
    subst owned
    exact runs_pure holds
  | cons resource rest ih =>
    have first : Runs (release resource) mine fun _ left => left = ↑rest + others := by
      apply runs_release _ rfl
      rw [owned, ← Multiset.cons_coe, Multiset.cons_add]
    apply first.bind
    intro _ left same
    exact ih same

end Ownership
