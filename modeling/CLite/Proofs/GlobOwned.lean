import Mathlib.Data.List.Flatten
import CLite.Proofs.GlobExpand
import CLite.Proofs.Handles

/-! # The expansion under refusals

Whatever is refused, a vector owns its array and its strings and every loop of the expansion keeps it so. A loop that
does not fail adds a part of the paths that it stands for, in their order, and all of them if nothing is refused.
-/

namespace CLite

open Ownership

def OwnedVec.owned (sv : OwnedVec) : Multiset Resource :=
  blocks (sv.map OwnedArray.v).toList + blocks (sv.strings.map OwnedString.block)

/-- Nothing is ever refused. -/
def ResourceSystem.Generous (system : ResourceSystem) : Prop := system.opens.Generous ∧ system.malloc.Generous

/-- What was found is a part of what there is, and all of it if nothing was refused. -/
def Chosen (system : ResourceSystem) (found all : List CString) : Prop :=
  found.Sublist all ∧ (system.Generous → found = all)

variable {system : ResourceSystem}

theorem Chosen.refl (paths : List CString) : Chosen system paths paths := ⟨.refl _, fun _ => rfl⟩

theorem Chosen.refused (poor : ¬ system.Generous) (all : List CString) : Chosen system [] all :=
  ⟨List.nil_sublist _, fun generous => absurd generous poor⟩

theorem Chosen.append {found all found' all' : List CString} (first : Chosen system found all)
    (second : Chosen system found' all') : Chosen system (found ++ found') (all ++ all') := by
  refine ⟨first.1.append second.1, ?_⟩
  intro generous
  rw [first.2 generous, second.2 generous]

/-- What was made of a vector with the texts `before`: a part of the paths was added, or the call failed. With
everything granted it fails only if there is not enough room. -/
def Gathered (system : ResourceSystem) (before paths : List CString) (room : Prop) : Bool × OwnedVec → Prop
  | (true, after) => ∃ added, after.texts = before ++ added ∧ Chosen system added paths
  | (false, _) => system.Generous → ¬ room

/-- A loop that owns nothing but its vector, and stands for the paths. -/
def Gathers (system : ResourceSystem) (body : OwnedVec → Program Resource (Bool × OwnedVec))
    (paths : List CString) : Prop :=
  ∀ sv, Runs (body sv) sv.owned fun result owned => owned = result.2.owned ∧
    Gathered system sv.texts paths ((sv.texts ++ paths).length ≤ GLOB_MAX_MATCHES) result

theorem Gathers.nothing : Gathers system (fun sv => pure (true, sv)) [] := by
  intro sv
  exact runs_pure ⟨rfl, [], (List.append_nil _).symm, .refl _⟩

/-! ## Vectors -/

theorem globVecFreeOwned_runs (sv : OwnedVec) :
    Runs (globVecFreeOwned sv) sv.owned fun _ owned => owned = 0 := by
  cases sv with
  | none => exact runs_pure rfl
  | some array =>
    have strings : Runs (releaseAll (array.strings.map fun s => Resource.block s.block)) (OwnedVec.owned (some array))
        fun _ owned => owned = {.block array.v} := by
      apply runs_releaseAll _ rfl
      rw [OwnedVec.owned, add_comm, blocks, List.map_map]
      rfl
    apply strings.bind
    rintro _ _ rfl
    exact runs_release rfl rfl

/-- The vector after an attempt to make room for one more pointer. -/
def GrowResult (system : ResourceSystem) (sv : OwnedVec) : Option OwnedArray → Multiset Resource → Prop
  | none, owned => owned = sv.owned ∧ ¬ system.Generous
  | some array, owned => owned = OwnedVec.owned (some array) ∧ array.strings = sv.strings

theorem globVecGrowOwned_runs (sv : OwnedVec) :
    Runs (globVecGrowOwned system sv) sv.owned (GrowResult system sv) := by
  cases sv with
  | none =>
    apply (malloc_runs system 0).bind
    rintro (_ | v) _ granted
    · exact runs_pure ⟨granted.1, fun generous => granted.2 generous.2⟩
    · exact runs_pure ⟨granted, rfl⟩
  | some array =>
    rw [globVecGrowOwned]
    split
    next =>
      have moved : Runs (exchange system.malloc array.v) (OwnedVec.owned (some array)) fun v owned =>
          owned = .block (v.getD array.v) ::ₘ blocks (array.strings.map OwnedString.block) ∧
            (v = none → ¬ system.malloc.Generous) :=
        runs_exchange rfl (fun poor => ⟨rfl, fun _ => poor⟩) fun v => ⟨rfl, fun empty => absurd empty (by simp)⟩
      apply moved.bind
      rintro (_ | v) _ ⟨rfl, refused⟩
      · exact runs_pure ⟨rfl, fun generous => refused rfl generous.2⟩
      · exact runs_pure ⟨rfl, rfl⟩
    next => exact runs_pure ⟨rfl, rfl⟩

theorem OwnedVec.length_texts (sv : OwnedVec) : sv.texts.length = sv.strings.length := List.length_map ..

theorem OwnedVec.owned_push (array : OwnedArray) (s : OwnedString) :
    OwnedVec.owned (some { array with strings := array.strings ++ [s] }) =
      .block s.block ::ₘ OwnedVec.owned (some array) := by
  simp only [OwnedVec.owned, OwnedVec.strings, List.map_append, blocks_append, List.map_cons, List.map_nil,
    blocks_cons, blocks_nil, Option.map_some]
  rw [← add_assoc, ← Multiset.singleton_add, ← Multiset.singleton_add, add_zero]
  exact add_comm _ _

/-- The vector after an attempt to push a string; a failed one leaves its strings as they were. -/
def PushResult (system : ResourceSystem) (sv : OwnedVec) (s : CString) : Bool × OwnedVec → Multiset Resource → Prop
  | (true, after), owned => owned = after.owned ∧ after.texts = sv.texts ++ [s]
  | (false, after), owned => owned = after.owned ∧ after.strings = sv.strings ∧
      (system.Generous → GLOB_MAX_MATCHES ≤ sv.strings.length)

theorem globVecPushOwned_runs (sv : OwnedVec) (s : CString) :
    Runs (globVecPushOwned system sv s) sv.owned (PushResult system sv s) := by
  rw [globVecPushOwned]
  split
  next full => exact runs_pure ⟨rfl, rfl, fun _ => full⟩
  next =>
    apply (globVecGrowOwned_runs sv).bind
    rintro (_ | array) _ grown
    · exact runs_pure ⟨grown.1, rfl, fun generous => absurd generous grown.2⟩
    · obtain ⟨rfl, strings⟩ := grown
      apply (malloc_runs system _).bind
      rintro (_ | c) _ granted
      · exact runs_pure ⟨granted.1, strings, fun generous => absurd generous.2 granted.2⟩
      · refine runs_pure ⟨?_, ?_⟩
        · rw [OwnedVec.owned_push]
          exact granted
        · rw [OwnedVec.texts, OwnedVec.texts, ← strings, OwnedVec.strings, List.map_append]
          rfl

theorem globVecPushOwned_gathers (s : CString) : Gathers system (globVecPushOwned system · s) [s] := by
  intro sv
  apply (globVecPushOwned_runs sv s).mono
  rintro ⟨_ | _, after⟩ _ pushed
  · refine ⟨pushed.1, ?_⟩
    intro generous
    rw [List.length_append, sv.length_texts]
    exact Nat.not_le_of_lt (Nat.lt_succ_of_le (pushed.2.2 generous))
  · exact ⟨pushed.1, [s], pushed.2, .refl _⟩

theorem pushPathOwned_gathers (path : Option CString) :
    Gathers system (pushPathOwned system · path) path.toList := by
  cases path with
  | none => exact .nothing
  | some path => exact globVecPushOwned_gathers path

/-- A loop adds what its turns add, in order. -/
theorem whileOk_gathers {α : Type} {body : OwnedVec → α → Program Resource (Bool × OwnedVec)}
    {adds : α → List CString} (turn : ∀ item, Gathers system (body · item) (adds item)) (items : List α) :
    Gathers system (whileOk body items) (items.flatMap adds) := by
  induction items with
  | nil => exact .nothing
  | cons item rest ih =>
    intro sv
    apply (turn item sv).bind
    rintro ⟨_ | _, mid⟩ _ ⟨rfl, gathered⟩
    · refine runs_pure ⟨rfl, ?_⟩
      intro generous room
      apply gathered generous
      simp only [List.flatMap_cons, List.length_append] at room ⊢
      omega
    · obtain ⟨first, texts, chosen⟩ := gathered
      apply (ih mid).mono
      rintro ⟨_ | _, final⟩ _ ⟨rfl, gathered⟩
      · refine ⟨rfl, ?_⟩
        intro generous room
        apply gathered generous
        rwa [texts, chosen.2 generous, List.append_assoc]
      · obtain ⟨more, final, others⟩ := gathered
        exact ⟨rfl, first ++ more, by rw [final, texts, List.append_assoc], chosen.append others⟩

/-! ## Levels -/

variable {fs : FileSystem} {opts : GlobOptions}

theorem opendirNames_runs (name : CString) : Runs (opendirNames system fs name) 0 fun result owned =>
    owned = result.elim 0 (fun opened => opened.1.owned) ∧
      ∃ names, Chosen system names ((fs.opendir name).getD []) ∧ result.elim [] Prod.snd = names := by
  rw [opendirNames]
  split
  next absent => exact runs_pure ⟨rfl, [], by rw [absent]; exact .refl [], rfl⟩
  next names listed =>
    apply (opendirOwned_runs system).bind
    rintro dirp _ ⟨rfl, supplied⟩
    rw [listed, Option.getD_some]
    cases dirp with
    | none => exact runs_pure ⟨rfl, [], .refused (supplied.resolve_left Bool.false_ne_true) _, rfl⟩
    | some dirp =>
      refine runs_pure ⟨rfl, _, ?_, rfl⟩
      change Chosen system (if dirp.buf.isSome then names else []) names
      split
      next => exact .refl _
      next none => exact .refused (supplied.resolve_left none) _

/-- Fewer names give fewer paths. -/
theorem Chosen.filterMap {found all : List CString} (chosen : Chosen system found all)
    (path : CString → Option CString) : Chosen system (found.filterMap path) (all.filterMap path) := by
  refine ⟨chosen.1.filterMap path, ?_⟩
  intro generous
  rw [chosen.2 generous]

theorem Chosen.trans {found mid all : List CString} (first : Chosen system found mid)
    (second : Chosen system mid all) : Chosen system found all :=
  ⟨first.1.trans second.1, fun generous => (first.2 generous).trans (second.2 generous)⟩

/-- A loop over a part of the items still stands for all the paths. -/
theorem Gathers.weaken {body : OwnedVec → Program Resource (Bool × OwnedVec)} {part all : List CString}
    (gathers : Gathers system body part) (chosen : Chosen system part all) : Gathers system body all := by
  intro sv
  apply (gathers sv).mono
  rintro ⟨_ | _, final⟩ _ ⟨rfl, gathered⟩
  · refine ⟨rfl, ?_⟩
    intro generous
    rw [← chosen.2 generous]
    exact gathered generous
  · obtain ⟨added, texts, some⟩ := gathered
    exact ⟨rfl, added, texts, some.trans chosen⟩

theorem expandDirectoryOwned_gathers (last : Bool) {comp : CString}
    (wild : globHasMeta opts.noescape comp = true) (dir : CString) :
    Gathers system (expandDirectoryOwned system fs opts last comp · dir) (levelPaths fs opts last comp dir) := by
  intro sv
  rw [levelPaths, if_pos wild, entries]
  apply (opendirNames_runs _).call (zero_add _).symm
  rintro opened _ ⟨rfl, names, chosen, listed⟩
  have paths := chosen.filterMap (wildcardPath fs opts last comp dir)
  subst listed
  rcases opened with _ | ⟨dp, names⟩
  · have skipped := Gathers.nothing.weaken paths
    rw [show Option.elim (none : Option (DirHandle × List CString)) 0 (fun opened => opened.1.owned) + sv.owned =
      sv.owned from zero_add _]
    exact skipped sv
  · have loop : Gathers system (whileOk (fun next name => pushPathOwned system next
        (wildcardPath fs opts last comp dir name)) names) (names.filterMap (wildcardPath fs opts last comp dir)) := by
      rw [List.filterMap_eq_flatMap_toList]
      exact whileOk_gathers (fun name => pushPathOwned_gathers _) names
    apply ((loop.weaken paths) sv).call (add_comm _ _)
    rintro result _ ⟨rfl, gathered⟩
    apply (closedirOwned_runs dp).call (add_comm _ _)
    rintro _ _ rfl
    exact runs_pure ⟨zero_add _, gathered⟩

theorem unescapeOwned_runs {noescape : Bool} {src : CString} (short : (globUnescape noescape src).length < bufferSize)
    (mine : Multiset Resource) : Runs (unescapeOwned noescape src) mine fun lit owned =>
      lit = globUnescape noescape src ∧ owned = mine := by
  rw [unescapeOwned, if_pos short]
  exact runs_pure ⟨rfl, rfl⟩

/-- A loop that fills a new vector. -/
theorem Gathers.fills {body : OwnedVec → Program Resource (Bool × OwnedVec)} {paths : List CString}
    (gathers : Gathers system body paths) : Runs (body none) 0 fun result owned => owned = result.2.owned ∧
      Gathered system [] paths (paths.length ≤ GLOB_MAX_MATCHES) result := gathers none

theorem Gathered.chosen {paths : List CString} {room : Prop} {after : OwnedVec}
    (gathered : Gathered system [] paths room (true, after)) : Chosen system after.texts paths := by
  obtain ⟨added, texts, chosen⟩ := gathered
  rwa [texts]

/-- The next level, while the vector of this one is only read. -/
theorem expandLevelOwned_runs (last : Bool) {comp : CString}
    (short : (globUnescape opts.noescape comp).length < bufferSize) (cur : OwnedVec) :
    Runs (expandLevelOwned system fs opts last comp cur) 0 fun result owned => owned = result.2.owned ∧
      Gathered system [] (cur.texts.flatMap (levelPaths fs opts last comp))
        ((cur.texts.flatMap (levelPaths fs opts last comp)).length ≤ GLOB_MAX_MATCHES) result := by
  rw [expandLevelOwned]
  split
  next wild => exact (whileOk_gathers (expandDirectoryOwned_gathers last wild) _).fills
  next literal =>
    apply (unescapeOwned_runs short 0).bind
    rintro _ _ ⟨rfl, rfl⟩
    have turn (dir : CString) : Gathers system
        (fun next => pushPathOwned system next (literalPath fs opts last (globUnescape opts.noescape comp) dir))
        (levelPaths fs opts last comp dir) := by
      rw [levelPaths, if_neg literal]
      exact pushPathOwned_gathers _
    exact (whileOk_gathers turn _).fills

theorem frontier_sublist (more : Bool) (comps : List CString) {some all : List CString} (part : some.Sublist all) :
    (frontier fs opts more comps some).Sublist (frontier fs opts more comps all) := by
  induction comps generalizing some all with
  | nil => exact part
  | cons comp rest ih =>
    simp only [frontier]
    split
    · exact ih part
    · exact ih (part.flatMap _)

theorem Chosen.frontier {some all : List CString} (chosen : Chosen system some all) (comps : List CString) :
    Chosen system (frontier fs opts false comps some) (CLite.frontier fs opts false comps all) := by
  refine ⟨frontier_sublist false comps chosen.1, ?_⟩
  intro generous
  rw [chosen.2 generous]

theorem expandComponentsOwned_runs {comps : List CString}
    (short : ∀ comp ∈ comps, (globUnescape opts.noescape comp).length < bufferSize) (cur : OwnedVec) :
    Runs (expandComponentsOwned system fs opts comps cur) cur.owned fun result owned => owned = result.2.owned ∧
      Gathered system [] (frontier fs opts false comps cur.texts) (LevelsBounded fs opts comps cur.texts)
        result := by
  induction comps generalizing cur with
  | nil => exact runs_pure ⟨rfl, cur.texts, rfl, .refl _⟩
  | cons comp rest ih =>
    have ih := ih fun c member => short c (List.mem_cons_of_mem comp member)
    rw [expandComponentsOwned, frontier, LevelsBounded, Bool.not_false, Bool.true_and]
    split
    next => exact ih cur
    next =>
      apply (expandLevelOwned_runs (rest = []) (short comp (List.mem_cons_self ..)) cur).call (zero_add _).symm
      rintro ⟨ok, next⟩ _ ⟨rfl, gathered⟩
      apply (globVecFreeOwned_runs cur).call (add_comm _ _)
      rintro _ _ rfl
      rw [zero_add]
      cases ok with
      | false =>
        rw [if_pos (.inr rfl)]
        exact runs_pure ⟨rfl, fun generous bounded => gathered generous bounded.1⟩
      | true =>
        have level := gathered.chosen
        split
        next ends =>
          have nothing : next.texts = [] := by
            rw [OwnedVec.texts, ends.resolve_right Bool.noConfusion]
            rfl
          refine runs_pure ⟨rfl, [], nothing, ?_⟩
          rw [nothing] at level
          have reached : Chosen system (frontier fs opts false rest []) _ := level.frontier rest
          rwa [frontier_nil] at reached
        next =>
          apply (ih next).mono
          rintro ⟨_ | _, final⟩ _ ⟨rfl, reached⟩
          · refine ⟨rfl, ?_⟩
            intro generous bounded
            apply reached generous
            rw [level.2 generous]
            exact bounded.2
          · exact ⟨rfl, final.texts, rfl, reached.chosen.trans (level.frontier rest)⟩

end CLite
