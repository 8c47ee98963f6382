import CLite.Proofs.GlobOwned

/-! # The memory that `glob` hands over

A call of `glob` owns at its end what its `glob_t` points to, and nothing else unless memory ran out. The block that
is lost then is the array for the starting point of the expansion. What the `glob_t` of the caller pointed to before
is only read.
-/

namespace CLite

open Ownership

variable {system : ResourceSystem} {fs : FileSystem} {opts : GlobOptions} {pattern : CString} {flags : BitVec 32}
  {pglob : OwnedGlob}

def OwnedGlob.texts (pglob : OwnedGlob) : List CString := pglob.strings.map OwnedString.text

/-- The results that a call starts from. -/
def ownedSeeds (flags : BitVec 32) (pglob : OwnedGlob) : List CString :=
  if hasFlag flags GLOB_APPEND then pglob.texts else []

/-! ## Collecting -/

/-- All strings of a list, one after the other. -/
theorem pushAll_gathers (texts : List CString) : Gathers system (whileOk (globVecPushOwned system) texts) texts := by
  have turn (s : CString) : Gathers system (globVecPushOwned system · s) [s] := globVecPushOwned_gathers s
  have gathers := whileOk_gathers turn texts
  rwa [List.flatMap_singleton'] at gathers

theorem Gathered.imp {before paths : List CString} {room room' : Prop} {result : Bool × OwnedVec}
    (gathered : Gathered system before paths room result) (implies : room' → room) :
    Gathered system before paths room' result := by
  rcases result with ⟨_ | _, after⟩
  · exact fun generous enough => gathered generous (implies enough)
  · exact gathered

/-- A vector that has gathered a part of the paths; at most one other block is lost, and none if it succeeded. -/
def Harvest (system : ResourceSystem) (before paths : List CString) (room : Prop) (result : Bool × OwnedVec)
    (owned : Multiset Resource) : Prop :=
  ∃ lost, owned = result.2.owned + lost ∧ lost.card ≤ (if result.1 then 0 else 1) ∧
    Gathered system before paths room result

theorem Gathered.harvest {before paths : List CString} {room : Prop} {result : Bool × OwnedVec}
    (gathered : Gathered system before paths room result) :
    Harvest system before paths room result result.2.owned :=
  ⟨0, (add_zero _).symm, Nat.zero_le _, gathered⟩

theorem OwnedVec.card_owned (sv : OwnedVec) : sv.owned.card ≤ 1 + sv.strings.length := by
  rw [OwnedVec.owned, Multiset.card_add, blocks, blocks, Multiset.coe_card, Multiset.coe_card, List.length_map,
    List.length_map, List.length_map]
  exact Nat.add_le_add_right Option.length_toList_le _

/-- The results of the expansion are pushed behind those that are there. -/
theorem deliverOwned_runs {out cur : OwnedVec} {ok : Bool}
    (reached : Gathered system [] (frontier fs opts false (splitComponents opts.noescape pattern) [startPath pattern])
      (LevelsBounded fs opts (splitComponents opts.noescape pattern) [startPath pattern]) (ok, cur))
    (wild : globHasMeta opts.noescape pattern = true) (fits : pattern.length < bufferSize) :
    Runs (deliverOwned system ok cur out) out.owned fun result owned => owned = result.2.owned ∧
      Gathered system out.texts (matchesOf fs opts pattern) (Roomy fs opts pattern out.texts) result := by
  have result : matchesOf fs opts pattern =
      frontier fs opts false (splitComponents opts.noescape pattern) [startPath pattern] := by
    rw [matchesOf, if_neg (by rw [wild]; exact Bool.noConfusion), if_neg (Nat.not_le_of_lt fits)]
  cases ok with
  | false => exact runs_pure ⟨rfl, fun generous roomy => reached generous (roomy.1 wild fits)⟩
  | true =>
    rw [← result] at reached
    apply ((pushAll_gathers cur.texts).weaken reached.chosen out).mono
    rintro pushed _ ⟨rfl, gathered⟩
    exact ⟨rfl, gathered.imp fun roomy => roomy.2⟩

theorem globMatchesOwned_runs (short : (globUnescape opts.noescape pattern).length < bufferSize) (out : OwnedVec) :
    Runs (globMatchesOwned system fs opts pattern out) out.owned
      (Harvest system out.texts (matchesOf fs opts pattern) (Roomy fs opts pattern out.texts)) := by
  rw [globMatchesOwned]
  split
  next literal =>
    have result : [globUnescape opts.noescape pattern] = matchesOf fs opts pattern := by
      rw [matchesOf, if_pos literal]
    have push : Gathers system (globVecPushOwned system · (globUnescape opts.noescape pattern)) _ :=
      globVecPushOwned_gathers _
    rw [result] at push
    apply (unescapeOwned_runs short out.owned).bind
    rintro _ _ ⟨rfl, rfl⟩
    apply (push out).mono
    rintro pushed _ ⟨rfl, gathered⟩
    exact (gathered.imp fun roomy => roomy.2).harvest
  next wild =>
    split
    next long =>
      have result : matchesOf fs opts pattern = [] := by rw [matchesOf, if_neg wild, if_pos long]
      rw [result]
      exact runs_pure (Gathered.harvest ⟨[], (List.append_nil _).symm, .refl _⟩)
    next fits =>
      apply (globVecPushOwned_runs none (startPath pattern)).call (zero_add _).symm
      rintro ⟨_ | _, cur⟩ _ pushed
      · obtain ⟨rfl, strings, refused⟩ := pushed
        refine runs_pure ⟨cur.owned, add_comm _ _, ?_, ?_⟩
        · have few := cur.card_owned
          rwa [strings] at few
        · intro generous
          exact absurd (refused generous) (by decide)
      · obtain ⟨rfl, texts⟩ := pushed
        apply (expandComponentsOwned_runs (splitComponents_fit (Nat.lt_of_not_le fits)) cur).call rfl
        rintro ⟨ok, cur⟩ _ ⟨rfl, reached⟩
        rw [texts] at reached
        apply (deliverOwned_runs reached (Bool.of_not_eq_false wild) (Nat.lt_of_not_le fits)).call (add_comm _ _)
        rintro result _ ⟨rfl, gathered⟩
        apply (globVecFreeOwned_runs cur).call (add_comm _ _)
        rintro _ _ rfl
        rw [zero_add]
        exact runs_pure gathered.harvest

theorem globCollectOwned_runs (short : (globUnescape (hasFlag flags GLOB_NOESCAPE) pattern).length < bufferSize) :
    Runs (globCollectOwned system fs pattern flags pglob) 0
      (Harvest system [] (ownedSeeds flags pglob ++ matchesOf fs (globOptions pattern flags) pattern)
        (Roomy fs (globOptions pattern flags) pattern (ownedSeeds flags pglob))) := by
  apply (pushAll_gathers (ownedSeeds flags pglob)).fills.bind
  rintro ⟨_ | _, out⟩ _ ⟨rfl, seeded⟩
  · refine runs_pure (Gathered.harvest ?_)
    intro generous roomy
    apply seeded generous
    have total := roomy.2
    rw [List.length_append] at total
    omega
  · have seeds := seeded.chosen
    apply (globMatchesOwned_runs short out).mono
    rintro ⟨_ | _, final⟩ _ ⟨lost, rfl, few, gathered⟩
    · refine ⟨lost, rfl, few, ?_⟩
      intro generous
      rw [← seeds.2 generous]
      exact gathered generous
    · obtain ⟨added, texts, chosen⟩ := gathered
      exact ⟨lost, rfl, few, _, texts, seeds.append chosen⟩

/-! ## Handing over -/

variable (system fs pattern flags pglob) in
/-- How a call ends, and what it owns then. -/
inductive GlobResult : ℕ × OwnedGlob → Multiset Resource → Prop
  | found {after : OwnedGlob} (some : after.texts ≠ [])
      (chosen : Chosen system after.texts
        (ownedSeeds flags pglob ++ matchesOf fs (globOptions pattern flags) pattern)) :
      GlobResult (0, after) after.owned
  | text {after : OwnedGlob} (nocheck : hasFlag flags GLOB_NOCHECK = true)
      (chosen : Chosen system [] (ownedSeeds flags pglob ++ matchesOf fs (globOptions pattern flags) pattern))
      (text : after.texts = [globUnescape (hasFlag flags GLOB_NOESCAPE) pattern]) :
      GlobResult (0, after) after.owned
  | unmatched
      (chosen : Chosen system [] (ownedSeeds flags pglob ++ matchesOf fs (globOptions pattern flags) pattern)) :
      GlobResult (GLOB_NOMATCH, ⟨0, none, 0⟩) 0
  | nospace {after : OwnedGlob} {lost : Multiset Resource}
      (reason : system.Generous → ¬ Roomy fs (globOptions pattern flags) pattern (ownedSeeds flags pglob))
      (few : hasFlag flags GLOB_APPEND = false → lost.card ≤ 1 ∧ after.pathv = none)
      (left : after.pathv = none ∨ after = pglob) : GlobResult (GLOB_NOSPACE, after) lost

theorem globNothingOwned_runs (short : (globUnescape (hasFlag flags GLOB_NOESCAPE) pattern).length < bufferSize)
    (nothing : Chosen system [] (ownedSeeds flags pglob ++ matchesOf fs (globOptions pattern flags) pattern)) :
    Runs (globNothingOwned system pattern flags pglob) 0 (GlobResult system fs pattern flags pglob) := by
  have refused {after : OwnedGlob} (poor : ¬ system.malloc.Generous) (empty : after.pathv = none) :
      GlobResult system fs pattern flags pglob (GLOB_NOSPACE, after) 0 :=
    .nospace (fun generous => absurd generous.2 poor) (fun _ => ⟨Nat.zero_le _, empty⟩) (.inl empty)
  rw [globNothingOwned]
  split
  next nocheck =>
    apply (unescapeOwned_runs short 0).bind
    rintro _ _ ⟨rfl, rfl⟩
    apply (malloc_runs system 0).bind
    rintro (_ | v) _ granted
    · obtain ⟨rfl, poor⟩ := granted
      exact runs_pure (refused poor rfl)
    · obtain rfl := granted
      apply (malloc_runs system _).bind
      rintro (_ | c) _ granted
      · obtain ⟨rfl, poor⟩ := granted
        have freed : Runs (release (Resource.block v)) {Resource.block v} fun _ owned => owned = 0 :=
          runs_release rfl rfl
        apply freed.bind
        rintro _ _ rfl
        exact runs_pure (refused poor rfl)
      · obtain rfl := granted
        apply runs_pure
        rw [Multiset.cons_swap]
        exact .text nocheck nothing rfl
  next => exact runs_pure (.unmatched nothing)

theorem strings_pointers (v : ℕ) (strings : List OwnedString) :
    OwnedGlob.strings ⟨strings.length, some (v, strings.map some ++ [none]), 0⟩ = strings := by
  change ((strings.map some ++ [none]).take strings.length).filterMap id = strings
  rw [List.take_left' (List.length_map _), List.filterMap_map]
  exact List.filterMap_some

theorem globHandOver_runs (out : OwnedArray) (nonempty : out.strings ≠ [])
    (chosen : Chosen system (OwnedVec.texts out)
      (ownedSeeds flags pglob ++ matchesOf fs (globOptions pattern flags) pattern)) :
    Runs (globHandOver system pglob out) (OwnedVec.owned out) (GlobResult system fs pattern flags pglob) := by
  apply (malloc_runs system _).bind
  rintro (_ | v) _ granted
  · obtain ⟨rfl, poor⟩ := granted
    apply (globVecFreeOwned_runs out).bind
    rintro _ _ rfl
    exact runs_pure
      (.nospace (fun generous => absurd generous.2 poor) (fun _ => ⟨Nat.zero_le _, rfl⟩) (.inl rfl))
  · obtain rfl := granted
    have freed : Runs (release (Resource.block out.v)) (.block v ::ₘ OwnedVec.owned out)
        fun _ owned => owned = .block v ::ₘ blocks (out.strings.map OwnedString.block) := by
      refine runs_release ?_ rfl
      rw [Multiset.cons_swap]
      rfl
    apply freed.bind
    rintro _ _ rfl
    apply runs_pure
    have texts : OwnedGlob.texts ⟨out.strings.length, some (v, out.strings.map some ++ [none]), 0⟩ =
        OwnedVec.texts out := congrArg (List.map OwnedString.text) (strings_pointers v out.strings)
    have owned : OwnedGlob.owned ⟨out.strings.length, some (v, out.strings.map some ++ [none]), 0⟩ =
        .block v ::ₘ blocks (out.strings.map OwnedString.block) := by
      rw [OwnedGlob.owned, strings_pointers]
      rfl
    rw [← texts] at chosen
    rw [← owned]
    refine .found ?_ chosen
    rw [texts]
    exact mt List.map_eq_nil_iff.mp nonempty

theorem globOwned_runs (short : (globUnescape (hasFlag flags GLOB_NOESCAPE) pattern).length < bufferSize) :
    Runs (globOwned system fs pattern flags pglob) 0 (GlobResult system fs pattern flags pglob) := by
  apply (globCollectOwned_runs short).bind
  rintro ⟨_ | _, out⟩ _ ⟨lost, rfl, few, gathered⟩
  · change Runs (if hasFlag flags GLOB_APPEND then _ else _) _ _
    split
    next append =>
      exact runs_pure (.nospace gathered (fun plain => absurd append (by rw [plain]; decide)) (.inr rfl))
    next =>
      apply (globVecFreeOwned_runs out).call rfl
      rintro _ _ rfl
      rw [zero_add]
      exact runs_pure (.nospace gathered (fun _ => ⟨few, rfl⟩) (.inl rfl))
  · obtain rfl : lost = 0 := Multiset.card_eq_zero.mp (Nat.le_zero.mp few)
    have chosen := gathered.chosen
    rw [add_zero]
    rcases out with _ | array
    · exact globNothingOwned_runs short chosen
    · change Runs (if array.strings = [] then _ else _) _ _
      split
      next nothing =>
        rw [OwnedVec.texts, OwnedVec.strings, nothing] at chosen
        apply (globVecFreeOwned_runs (some array)).bind
        rintro _ _ rfl
        exact globNothingOwned_runs short chosen
      next nonempty => exact globHandOver_runs array nonempty chosen

theorem OwnedGlob.owned_eq_zero {pglob : OwnedGlob} (empty : pglob.pathv = none) : pglob.owned = 0 := by
  rw [OwnedGlob.owned, OwnedGlob.strings, empty]
  rfl

theorem globfreeOwned_runs (pglob : OwnedGlob) :
    Runs (globfreeOwned pglob) pglob.owned fun after owned => owned = 0 ∧ after.pathv = none := by
  rw [globfreeOwned]
  split
  next empty =>
    exact runs_pure ⟨OwnedGlob.owned_eq_zero empty, empty⟩
  next v pointers array =>
    have strings : Runs (releaseAll (pglob.strings.map fun s => Resource.block s.block)) pglob.owned
        fun _ owned => owned = {.block v} := by
      apply runs_releaseAll _ rfl
      rw [OwnedGlob.owned, add_comm, blocks, List.map_map, array]
      rfl
    apply strings.bind
    rintro _ _ rfl
    have freed : Runs (release (Resource.block v)) {Resource.block v} fun _ owned => owned = 0 := runs_release rfl rfl
    apply freed.bind
    rintro _ _ rfl
    exact runs_pure ⟨rfl, rfl⟩

end CLite
