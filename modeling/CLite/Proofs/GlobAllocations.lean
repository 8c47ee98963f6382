import CLite.Lib.Metered
import CLite.Proofs.GlobExpand
import CLite.Spec.GlobAllocations

/-! # The allocations of the expansion

Collecting the results stops at the first allocation that is refused, and makes as many allocations as their
numbers tell when none is.
-/

namespace CLite

open Fallible Oracle

variable {fs : FileSystem} {opts : GlobOptions} {pattern : CString} {flags : BitVec 32} {pglob : GlobT}

/-! ## A refused allocation stops the expansion -/

theorem allocate_eq_request (succeeds : ℕ → Bool) : allocate succeeds = request succeeds := rfl

theorem globVecGrow_metered (sv : GlobVec) : Metered Stop.nospace fun succeeds => globVecGrow succeeds sv := by
  simp only [globVecGrow, allocate_eq_request]
  split
  · exact .ask (.pure _)
  · exact .pure _

theorem globVecPush_metered (sv : GlobVec) (s : CString) :
    Metered Stop.nospace fun succeeds => globVecPush succeeds sv s := by
  simp only [globVecPush, allocate_eq_request]
  split
  · exact .throw _
  · exact (globVecGrow_metered sv).bind fun cap => .ask (.pure _)

theorem pushPath_metered (next : GlobVec) (path : Option CString) :
    Metered Stop.nospace fun succeeds => pushPath succeeds next path := by
  cases path with
  | none => exact .pure next
  | some path => exact globVecPush_metered next path

theorem globUnescapeTo_metered (noescape : Bool) (src : CString) :
    Metered Stop.nospace fun _ => globUnescapeTo noescape src := by
  simp only [globUnescapeTo]
  split
  · exact .pure _
  · exact .throw _

theorem expandDirectory_metered (fs : FileSystem) (opts : GlobOptions) (last : Bool) (comp : CString)
    (next : GlobVec) (dir : CString) :
    Metered Stop.nospace fun succeeds => expandDirectory fs succeeds opts last comp next dir := by
  simp only [expandDirectory]
  split
  · exact .pure _
  · exact .foldlM (fun next name => pushPath_metered next _) _ _

theorem expandLevel_metered (fs : FileSystem) (opts : GlobOptions) (last : Bool) (comp : CString)
    (cur : GlobVec) :
    Metered Stop.nospace fun succeeds => expandLevel fs succeeds opts last comp cur := by
  simp only [expandLevel]
  split
  · exact .foldlM (expandDirectory_metered fs opts last comp) _ _
  · exact (globUnescapeTo_metered _ _).bind fun lit => .foldlM (fun next dir => pushPath_metered next _) _ _

theorem expandComponents_metered (fs : FileSystem) (opts : GlobOptions) (comps : List CString) (cur : GlobVec) :
    Metered Stop.nospace fun succeeds => expandComponents fs succeeds opts comps cur := by
  induction comps generalizing cur with
  | nil => exact .pure cur
  | cons comp rest ih =>
    simp only [expandComponents]
    split
    · exact ih cur
    · refine (expandLevel_metered fs opts _ comp cur).bind fun next => ?_
      split
      · exact .pure next
      · exact ih next

theorem globMatches_metered (fs : FileSystem) (opts : GlobOptions) (pattern : CString) (out : GlobVec) :
    Metered Stop.nospace fun succeeds => globMatches fs succeeds opts pattern out := by
  simp only [globMatches]
  split
  · exact (globUnescapeTo_metered _ _).bind fun lit => globVecPush_metered out lit
  · split
    · exact .pure out
    · refine (globVecPush_metered _ _).bind fun cur => ?_
      refine (expandComponents_metered fs opts _ cur).bind fun cur => ?_
      exact .foldlM globVecPush_metered _ _

theorem globCollect_metered (fs : FileSystem) (pattern : CString) (flags : BitVec 32) (pglob : GlobT) :
    Metered Stop.nospace fun succeeds => globCollect fs succeeds pattern flags pglob :=
  (Metered.foldlM globVecPush_metered _ _).bind fun out => globMatches_metered fs _ pattern out

/-! ## The number of allocations -/

/-- Vectors that have grown by pushes. -/
def GlobVec.Grown (sv : GlobVec) : Prop := sv.cap = capacityFor sv.v.length

/-- The program appends the paths when all allocations succeed, and makes those that their number tells. -/
def CountsTo (body : GlobVec → GlobM GlobVec) (paths : List CString) : Prop :=
  ∀ sv : GlobVec, sv.Grown → (sv.v ++ paths).length ≤ GLOB_MAX_MATCHES → ∀ count, ∃ sv' stop,
    (body sv).run count = .ok (sv', stop) ∧ sv'.v = sv.v ++ paths ∧ sv'.Grown ∧
      stop + allocationsFor sv.v.length = count + allocationsFor (sv.v ++ paths).length

theorem CountsTo.nothing : CountsTo pure [] := by
  intro sv grown _ count
  exact ⟨sv, count, rfl, (List.append_nil _).symm, grown, by rw [List.append_nil]⟩

theorem globVecGrow_run (sv : GlobVec) (count : ℕ) :
    (globVecGrow (fun _ => true) sv).run count =
      .ok (if sv.cap < sv.v.length + 1 then if sv.cap = 0 then 16 else sv.cap * 2 else sv.cap,
        count + if sv.cap < sv.v.length + 1 then 1 else 0) := by
  rw [globVecGrow]
  split <;> rfl

theorem globVecPush_countsTo (s : CString) : CountsTo (globVecPush (fun _ => true) · s) [s] := by
  intro sv grown fits count
  rw [List.length_append, List.length_singleton] at fits
  have capacity : capacityFor (sv.v.length + 1) =
      if sv.cap < sv.v.length + 1 then if sv.cap = 0 then 16 else sv.cap * 2 else sv.cap := by
    rw [capacityFor, grown]
  have full : ¬ GLOB_MAX_MATCHES ≤ sv.v.length := Nat.not_le_of_lt fits
  have bound : (sv.v ++ [s]).length ≤ GLOB_MAX_MATCHES := by
    rw [List.length_append]
    exact fits
  have ran : (globVecPush (fun _ => true) sv s).run count =
      .ok (⟨sv.v ++ [s], capacityFor (sv.v.length + 1), bound⟩,
        count + (if sv.cap < sv.v.length + 1 then 1 else 0) + 1) := by
    simp only [globVecPush, dif_neg full, StateT.run_bind, globVecGrow_run, capacity]
    rfl
  refine ⟨_, _, ran, rfl, ?_, ?_⟩
  · rw [GlobVec.Grown, List.length_append, List.length_singleton]
  · rw [List.length_append, List.length_singleton, allocationsFor, ← grown]
    omega

theorem pushPath_countsTo (path : Option CString) :
    CountsTo (pushPath (fun _ => true) · path) path.toList := by
  cases path with
  | none => exact .nothing
  | some path => exact globVecPush_countsTo path

theorem CountsTo.foldlM {α : Type} {body : GlobVec → α → GlobM GlobVec} {adds : α → List CString}
    (turn : ∀ item, CountsTo (body · item) (adds item)) (items : List α) :
    CountsTo (items.foldlM body ·) (items.flatMap adds) := by
  induction items with
  | nil => exact .nothing
  | cons item items ih =>
    intro sv grown fits count
    rw [List.flatMap_cons, ← List.append_assoc] at fits ⊢
    obtain ⟨mid, there, ran, paths, kept, counted⟩ := turn item sv grown
      (le_trans (by simp only [List.length_append]; omega) fits) count
    rw [← paths] at fits counted ⊢
    obtain ⟨final, stop, finished, result, still, total⟩ := ih mid kept fits there
    refine ⟨final, stop, ?_, result, still, by omega⟩
    simp only [List.foldlM_cons]
    exact (run_bind_of_ok ran).trans finished

theorem foldlM_push_countsTo (paths : List CString) :
    CountsTo (paths.foldlM (globVecPush fun _ => true) ·) paths := by
  have counts := CountsTo.foldlM globVecPush_countsTo paths
  rwa [List.flatMap_singleton'] at counts

theorem expandDirectory_countsTo (fs : FileSystem) (last : Bool) {comp : CString}
    (wild : globHasMeta opts.noescape comp = true) (dir : CString) :
    CountsTo (expandDirectory fs (fun _ => true) opts last comp · dir) (levelPaths fs opts last comp dir) := by
  simp only [levelPaths, if_pos wild, entries, expandDirectory]
  cases fs.opendir (if dir = [] then [chr '.'] else dir) with
  | none => exact .nothing
  | some names =>
    rw [Option.getD_some, List.filterMap_eq_flatMap_toList]
    exact .foldlM (fun name => pushPath_countsTo _) names

theorem GlobVec.grown_empty : GlobVec.empty.Grown := rfl

/-- A program that fills a new vector. -/
theorem CountsTo.fills {body : GlobVec → GlobM GlobVec} {paths : List CString} (counts : CountsTo body paths)
    (fits : paths.length ≤ GLOB_MAX_MATCHES) (count : ℕ) : ∃ sv,
    (body .empty).run count = .ok (sv, count + allocationsFor paths.length) ∧ sv.v = paths ∧ sv.Grown := by
  obtain ⟨sv, stop, ran, result, grown, counted⟩ := counts .empty GlobVec.grown_empty fits count
  obtain rfl : stop = count + allocationsFor paths.length := counted
  exact ⟨sv, ran, result, grown⟩

theorem expandLevel_run (fs : FileSystem) (last : Bool) {comp : CString}
    (short : (globUnescape opts.noescape comp).length < bufferSize) (cur : GlobVec)
    (fits : (cur.v.flatMap (levelPaths fs opts last comp)).length ≤ GLOB_MAX_MATCHES) (count : ℕ) : ∃ next,
    (expandLevel fs (fun _ => true) opts last comp cur).run count =
        .ok (next, count + allocationsFor (cur.v.flatMap (levelPaths fs opts last comp)).length) ∧
      next.v = cur.v.flatMap (levelPaths fs opts last comp) ∧ next.Grown := by
  rw [expandLevel]
  split
  next wild => exact (CountsTo.foldlM (expandDirectory_countsTo fs last wild) cur.v).fills fits count
  next literal =>
    have turn (dir : CString) : CountsTo
        (fun next => pushPath (fun _ => true) next
          (literalPath fs opts last (globUnescape opts.noescape comp) dir))
        (levelPaths fs opts last comp dir) := by
      rw [levelPaths, if_neg literal]
      exact pushPath_countsTo _
    rw [expandLiteral, globUnescapeTo, if_pos short, pure_bind]
    exact (CountsTo.foldlM turn cur.v).fills fits count

theorem levelAllocations_nil (fs : FileSystem) (opts : GlobOptions) (comps : List CString) :
    levelAllocations fs opts comps [] = 0 := by
  induction comps with
  | nil => rfl
  | cons comp rest ih =>
    rw [levelAllocations]
    split
    · exact ih
    · rw [List.flatMap_nil, ih]
      rfl

theorem expandComponents_run (fs : FileSystem) {comps : List CString}
    (short : ∀ comp ∈ comps, (globUnescape opts.noescape comp).length < bufferSize) (cur : GlobVec)
    (bounded : LevelsBounded fs opts comps cur.v) (count : ℕ) : ∃ final,
    (expandComponents fs (fun _ => true) opts comps cur).run count =
        .ok (final, count + levelAllocations fs opts comps cur.v) ∧
      final.v = frontier fs opts false comps cur.v := by
  induction comps generalizing cur count with
  | nil => exact ⟨cur, rfl, rfl⟩
  | cons comp rest ih =>
    have ih := ih fun c member => short c (List.mem_cons_of_mem comp member)
    rw [LevelsBounded] at bounded
    rw [expandComponents, levelAllocations, frontier, Bool.not_false, Bool.true_and]
    split
    next empty =>
      rw [if_pos empty] at bounded
      exact ih cur bounded count
    next nonempty =>
      rw [if_neg nonempty] at bounded
      obtain ⟨next, ran, level, -⟩ := expandLevel_run fs (rest = []) (short comp (List.mem_cons_self ..)) cur
        bounded.1 count
      rw [← level] at ran bounded ⊢
      rw [run_bind_of_ok ran, ← Nat.add_assoc]
      split
      next dead =>
        rw [dead, levelAllocations_nil, frontier_nil]
        exact ⟨next, rfl, dead⟩
      next alive => exact ih next bounded.2 _

/-- With memory for everything, the matches are pushed behind what is there. -/
theorem globMatches_run (fs : FileSystem) (out : GlobVec) (grown : out.Grown)
    (roomy : Roomy fs opts pattern out.v) (fits : ¬ LiteralOverrun opts pattern) (count : ℕ) : ∃ final stop,
    (globMatches fs (fun _ => true) opts pattern out).run count = .ok (final, stop) ∧
      final.v = out.v ++ matchesOf fs opts pattern ∧
      stop + allocationsFor out.v.length = count + collectAllocations fs opts pattern out.v := by
  obtain ⟨bounded, total⟩ := roomy
  rw [collectAllocations, expansionAllocations]
  rw [globMatches]
  split
  next literal =>
    have short : (globUnescape opts.noescape pattern).length < bufferSize := by
      by_contra long
      exact fits ⟨literal, Nat.le_of_not_lt long⟩
    have result : matchesOf fs opts pattern = [globUnescape opts.noescape pattern] := by
      rw [matchesOf, if_pos literal]
    rw [result] at total ⊢
    obtain ⟨final, stop, ran, found, -, counted⟩ := globVecPush_countsTo _ out grown total count
    rw [globUnescapeTo, if_pos short, pure_bind, if_pos (.inl literal), Nat.zero_add]
    exact ⟨final, stop, ran, found, counted⟩
  next wild =>
    split
    next long =>
      have result : matchesOf fs opts pattern = [] := by rw [matchesOf, if_neg wild, if_pos long]
      rw [result, List.append_nil, if_pos (.inr long), Nat.zero_add]
      exact ⟨out, count, rfl, rfl, rfl⟩
    next short =>
      have result : matchesOf fs opts pattern =
          frontier fs opts false (splitComponents opts.noescape pattern) [startPath pattern] := by
        rw [matchesOf, if_neg wild, if_neg short]
      obtain ⟨start, began, shape, -⟩ := (globVecPush_countsTo (startPath pattern)).fills
        (show 1 ≤ GLOB_MAX_MATCHES by decide) count
      have levels := bounded (Bool.of_not_eq_false wild) (Nat.lt_of_not_le short)
      rw [← shape] at levels result
      obtain ⟨cur, expanded, reached⟩ := expandComponents_run fs (splitComponents_fit (Nat.lt_of_not_le short))
        start levels (count + allocationsFor 1)
      rw [← result] at reached
      obtain ⟨final, stop, ran, found, -, counted⟩ := foldlM_push_countsTo _ out grown total
        (count + allocationsFor 1 + levelAllocations fs opts (splitComponents opts.noescape pattern) start.v)
      refine ⟨final, stop, ?_, found, ?_⟩
      · rw [← reached] at ran
        exact (run_bind_of_ok began).trans ((run_bind_of_ok expanded).trans ran)
      · rw [if_neg (not_or.mpr ⟨wild, short⟩), ← shape]
        omega

/-- With memory for everything, collecting takes the allocations that the results tell. -/
theorem globCollect_run (fs : FileSystem)
    (roomy : Roomy fs (globOptions pattern flags) pattern (seeds flags pglob))
    (fits : ¬ LiteralOverrun (globOptions pattern flags) pattern) : ∃ out,
    (globCollect fs (fun _ => true) pattern flags pglob).run 0 =
        .ok (out, collectAllocations fs (globOptions pattern flags) pattern (seeds flags pglob)) ∧
      out.v = seeds flags pglob ++ matchesOf fs (globOptions pattern flags) pattern := by
  have few : (seeds flags pglob).length ≤ GLOB_MAX_MATCHES := by
    have total := roomy.2
    rw [List.length_append] at total
    omega
  obtain ⟨out, seeded, holds, grown⟩ := (foldlM_push_countsTo (seeds flags pglob)).fills few 0
  rw [← holds] at roomy ⊢
  obtain ⟨final, stop, ran, found, counted⟩ := globMatches_run fs out grown roomy fits
    (0 + allocationsFor (seeds flags pglob).length)
  refine ⟨final, ?_, found⟩
  obtain rfl : stop = collectAllocations fs (globOptions pattern flags) pattern out.v := by
    rw [← holds] at counted
    omega
  exact (run_bind_of_ok seeded).trans ran

end CLite
