import Mathlib.Data.List.Chain
import Mathlib.Tactic.Common

/-! # Address-ordered free lists with headers

An extent is a header of `hdr` bytes at `addr` followed by `size` payload bytes. A free list is a list
of extents in address order, each busy or free. Three edits are considered: carving a request out of
a free extent that is large enough, releasing an extent, and merging contiguous free extents in one
left-to-right pass. The lemmas say what each edit does to the layout, to the busy extents, to
contiguity and to any property of single extents, for every header length and splitting threshold.
-/

namespace FreeList

/-- A header at `addr` and `size` payload bytes after it. -/
structure Extent where
  addr : ℕ
  size : ℕ
  free : Bool
deriving DecidableEq, Repr

/-- The first address after the payload. -/
def Extent.stop (hdr : ℕ) (e : Extent) : ℕ := e.addr + hdr + e.size

/-- The extents lie in address order, without overlap, between the two bounds. -/
def Between (hdr : ℕ) : ℕ → ℕ → List Extent → Prop
  | lo, hi, [] => lo ≤ hi
  | lo, hi, e :: es => lo ≤ e.addr ∧ Between hdr (e.stop hdr) hi es

/-- The extents fill the interval between the two bounds without gaps. -/
def Tiles (hdr : ℕ) : ℕ → ℕ → List Extent → Prop
  | lo, hi, [] => lo = hi
  | lo, hi, e :: es => lo = e.addr ∧ Tiles hdr (e.stop hdr) hi es

/-- Two neighbours that a merge pass would join. -/
def Joinable (hdr : ℕ) (a b : Extent) : Prop :=
  a.free = true ∧ b.free = true ∧ a.stop hdr = b.addr

instance (hdr : ℕ) (a b : Extent) : Decidable (Joinable hdr a b) :=
  inferInstanceAs (Decidable (_ ∧ _ ∧ _))

/-- No two consecutive extents are joinable. -/
def Merged (hdr : ℕ) (es : List Extent) : Prop := es.IsChain fun a b => ¬ Joinable hdr a b

variable {hdr slack size lo hi mid : ℕ} {e cur : Extent} {es pre post : List Extent}

namespace Between

theorem le (layout : Between hdr lo hi es) : lo ≤ hi := by
  induction es generalizing lo with
  | nil => exact layout
  | cons e es ih =>
    have tail := ih layout.2
    have head := layout.1
    simp only [Extent.stop] at tail
    omega

theorem mono {lo' hi' : ℕ} (layout : Between hdr lo hi es) (below : lo' ≤ lo) (above : hi ≤ hi') :
    Between hdr lo' hi' es := by
  induction es generalizing lo lo' with
  | nil => exact below.trans (layout.trans above)
  | cons e es ih => exact ⟨below.trans layout.1, ih layout.2 le_rfl⟩

theorem append_cons : Between hdr lo hi (pre ++ e :: post) ↔
    Between hdr lo e.addr pre ∧ Between hdr (e.stop hdr) hi post := by
  induction pre generalizing lo with
  | nil => rfl
  | cons a pre ih => simp only [List.cons_append, Between, ih, and_assoc]

theorem concat (layout : Between hdr lo mid es) (start : mid ≤ e.addr) (stop : e.stop hdr ≤ hi) :
    Between hdr lo hi (es ++ [e]) :=
  append_cons.mpr ⟨layout.mono le_rfl start, stop⟩

/-- Every extent of the list lies between the bounds. -/
theorem mem_bounds (layout : Between hdr lo hi es) (member : e ∈ es) :
    lo ≤ e.addr ∧ e.stop hdr ≤ hi := by
  obtain ⟨pre, post, rfl⟩ := List.append_of_mem member
  obtain ⟨before, after⟩ := append_cons.mp layout
  exact ⟨before.le, after.le⟩

/-- Earlier extents end before later ones begin. -/
theorem pairwise (layout : Between hdr lo hi es) :
    es.Pairwise fun a b => a.stop hdr ≤ b.addr := by
  induction es generalizing lo with
  | nil => exact .nil
  | cons e es ih => exact .cons (fun b member => (layout.2.mem_bounds member).1) (ih layout.2)

/-- Distinct extents of one list occupy disjoint addresses. -/
theorem disjoint {a b : Extent} (layout : Between hdr lo hi es) (first : a ∈ es) (second : b ∈ es)
    (different : a ≠ b) : a.stop hdr ≤ b.addr ∨ b.stop hdr ≤ a.addr := by
  have symmetric : Std.Symm fun a b : Extent => a.stop hdr ≤ b.addr ∨ b.stop hdr ≤ a.addr :=
    ⟨fun _ _ => Or.symm⟩
  have apart : es.Pairwise fun a b => a.stop hdr ≤ b.addr ∨ b.stop hdr ≤ a.addr :=
    layout.pairwise.imp Or.inl
  exact apart.forall first second different

/-- With nonempty headers an address identifies its extent. -/
theorem eq_of_addr_eq {a b : Extent} (layout : Between hdr lo hi es) (header : 0 < hdr)
    (first : a ∈ es) (second : b ∈ es) (same : a.addr = b.addr) : a = b := by
  by_contra different
  have apart := layout.disjoint first second different
  simp only [Extent.stop] at apart
  omega

/-- Each extent takes at least its header, which bounds their number. -/
theorem length_le (layout : Between hdr lo hi es) (header : 0 < hdr) : lo + es.length ≤ hi := by
  induction es generalizing lo with
  | nil => exact layout
  | cons e es ih =>
    have tail := ih layout.2
    have head := layout.1
    simp only [Extent.stop, List.length_cons] at tail ⊢
    omega

end Between

namespace Tiles

theorem append_cons : Tiles hdr lo hi (pre ++ e :: post) ↔
    Tiles hdr lo e.addr pre ∧ Tiles hdr (e.stop hdr) hi post := by
  induction pre generalizing lo with
  | nil => rfl
  | cons a pre ih => simp only [List.cons_append, Tiles, ih, and_assoc]

end Tiles

/-! ## Serving a request -/

/-- Give out an extent, keeping the rest as a free extent when it holds a header and `slack` bytes. -/
def carve (hdr slack size : ℕ) (e : Extent) : List Extent :=
  if size + hdr + slack ≤ e.size then
    [⟨e.addr, size, false⟩, ⟨e.addr + hdr + size, e.size - size - hdr, true⟩]
  else [⟨e.addr, e.size, false⟩]

/-- The extent given out has at least the requested size. -/
theorem carve_head (hdr slack : ℕ) (fits : size ≤ e.size) :
    ∃ granted rest, carve hdr slack size e = ⟨e.addr, granted, false⟩ :: rest ∧ size ≤ granted := by
  unfold carve
  split
  · exact ⟨size, _, rfl, le_rfl⟩
  · exact ⟨e.size, [], rfl, fits⟩

/-- The only busy extent that carving produces stands where the carved extent stood. -/
theorem busy_mem_carve {a s : ℕ} (member : ⟨a, s, false⟩ ∈ carve hdr slack size e) : a = e.addr := by
  unfold carve at member
  split at member
  · simp only [List.mem_cons, Extent.mk.injEq, Bool.false_eq_true, and_false, List.not_mem_nil,
      or_false] at member
    exact member.1
  · exact congrArg Extent.addr (List.mem_singleton.mp member)

theorem carve_between (layout : Between hdr lo hi (pre ++ e :: post)) :
    Between hdr lo hi (pre ++ (carve hdr slack size e ++ post)) := by
  obtain ⟨before, after⟩ := Between.append_cons.mp layout
  unfold carve
  split
  · simp only [List.cons_append, List.nil_append]
    refine Between.append_cons.mpr ⟨before, le_rfl, after.mono ?_ le_rfl⟩
    simp only [Extent.stop]
    omega
  · exact Between.append_cons.mpr ⟨before, after⟩

theorem carve_tiles (layout : Tiles hdr lo hi (pre ++ e :: post)) :
    Tiles hdr lo hi (pre ++ (carve hdr slack size e ++ post)) := by
  obtain ⟨before, after⟩ := Tiles.append_cons.mp layout
  unfold carve
  split
  · simp only [List.cons_append, List.nil_append]
    have same : (⟨e.addr + hdr + size, e.size - size - hdr, true⟩ : Extent).stop hdr = e.stop hdr := by
      simp only [Extent.stop]
      omega
    refine Tiles.append_cons.mpr ⟨before, rfl, ?_⟩
    rw [same]
    exact after
  · exact Tiles.append_cons.mpr ⟨before, after⟩

/-- The free remainder of a carved extent touches nothing that the extent itself did not touch. -/
theorem carve_merged (merged : Merged hdr (pre ++ e :: post)) (free : e.free = true) :
    Merged hdr (pre ++ (carve hdr slack size e ++ post)) := by
  obtain ⟨before, after⟩ := List.isChain_split.mp merged
  have busy (granted : ℕ) : Merged hdr (pre ++ [⟨e.addr, granted, false⟩]) := by
    refine List.isChain_append.mpr ⟨(List.isChain_append.mp before).1, .singleton _, ?_⟩
    rintro a - b ⟨⟩ joinable
    exact Bool.false_ne_true joinable.2.1
  unfold carve
  split
  · simp only [List.cons_append, List.nil_append]
    refine List.isChain_split.mpr ⟨busy _, List.isChain_cons_cons.mpr ?_⟩
    refine ⟨fun joinable => Bool.false_ne_true joinable.1, ?_⟩
    refine after.imp_head fun {b} apart joinable => apart ⟨free, joinable.2.1, ?_⟩
    rw [← joinable.2.2]
    simp only [Extent.stop]
    omega
  · exact List.isChain_split.mpr ⟨busy _,
      after.imp_head fun {b} _ joinable => Bool.false_ne_true joinable.1⟩

/-! ## Releasing and merging -/

/-- Mark the extent with the given address free. -/
def release (addr : ℕ) (es : List Extent) : List Extent :=
  es.map fun e => if e.addr = addr then { e with free := true } else e

/-- One left-to-right pass: the current extent absorbs joinable successors before moving on. -/
def mergeFrom (hdr : ℕ) (cur : Extent) : List Extent → List Extent
  | [] => [cur]
  | e :: es =>
      if Joinable hdr cur e then mergeFrom hdr { cur with size := cur.size + (hdr + e.size) } es
      else cur :: mergeFrom hdr e es

def merge (hdr : ℕ) : List Extent → List Extent
  | [] => []
  | e :: es => mergeFrom hdr e es

theorem release_between (addr : ℕ) (layout : Between hdr lo hi es) :
    Between hdr lo hi (release addr es) := by
  induction es generalizing lo with
  | nil => exact layout
  | cons e es ih =>
    have tail := ih layout.2
    simp only [release, List.map_cons] at tail ⊢
    split
    · exact ⟨layout.1, tail⟩
    · exact ⟨layout.1, tail⟩

theorem release_tiles {addr : ℕ} (layout : Tiles hdr lo hi es) : Tiles hdr lo hi (release addr es) := by
  induction es generalizing lo with
  | nil => exact layout
  | cons e es ih =>
    have tail := ih layout.2
    simp only [release, List.map_cons] at tail ⊢
    split
    · exact ⟨layout.1, tail⟩
    · exact ⟨layout.1, tail⟩

/-- The busy extents of the list, other than the released one, stay busy. -/
theorem busy_mem_release_iff {addr a s : ℕ} :
    ⟨a, s, false⟩ ∈ release addr es ↔ ⟨a, s, false⟩ ∈ es ∧ a ≠ addr := by
  constructor
  · intro member
    obtain ⟨e, present, same⟩ := List.mem_map.mp member
    split at same
    · cases same
    · next other =>
      subst same
      exact ⟨present, other⟩
  · rintro ⟨present, other⟩
    exact List.mem_map.mpr ⟨_, present, if_neg other⟩

theorem Joinable.stop_absorb (joinable : Joinable hdr cur e) :
    ({ cur with size := cur.size + (hdr + e.size) } : Extent).stop hdr = e.stop hdr := by
  have contiguous := joinable.2.2
  simp only [Extent.stop] at contiguous ⊢
  omega

theorem mergeFrom_between (layout : Between hdr lo hi (cur :: es)) :
    Between hdr lo hi (mergeFrom hdr cur es) := by
  induction es generalizing lo cur with
  | nil => exact layout
  | cons e es ih =>
    rw [mergeFrom]
    split
    · next joinable => exact ih ⟨layout.1, joinable.stop_absorb ▸ layout.2.2⟩
    · exact ⟨layout.1, ih layout.2⟩

theorem mergeFrom_tiles (layout : Tiles hdr lo hi (cur :: es)) :
    Tiles hdr lo hi (mergeFrom hdr cur es) := by
  induction es generalizing lo cur with
  | nil => exact layout
  | cons e es ih =>
    rw [mergeFrom]
    split
    · next joinable => exact ih ⟨layout.1, joinable.stop_absorb ▸ layout.2.2⟩
    · exact ⟨layout.1, ih layout.2⟩

/-- A property of extents that absorption preserves survives the whole pass. -/
theorem mergeFrom_forall {P : Extent → Prop}
    (absorb : ∀ a b, P a → P b → P { a with size := a.size + (hdr + b.size) })
    (first : P cur) (rest : ∀ e ∈ es, P e) : ∀ e ∈ mergeFrom hdr cur es, P e := by
  induction es generalizing cur with
  | nil => simpa [mergeFrom] using first
  | cons e es ih =>
    have head := rest e (List.mem_cons_self ..)
    have tail := fun b member => rest b (List.mem_cons_of_mem e member)
    rw [mergeFrom]
    split
    · exact ih (absorb _ _ first head) tail
    · intro b member
      rcases List.mem_cons.mp member with rfl | member
      · exact first
      · exact ih head tail b member

/-- Merging neither creates, moves nor resizes a busy extent. -/
theorem busy_mem_mergeFrom_iff {a s : ℕ} :
    ⟨a, s, false⟩ ∈ mergeFrom hdr cur es ↔ ⟨a, s, false⟩ ∈ cur :: es := by
  induction es generalizing cur with
  | nil => rfl
  | cons e es ih =>
    rw [mergeFrom]
    split
    · next joinable =>
      have curFree : (⟨a, s, false⟩ : Extent) ≠ cur := by
        rintro rfl
        exact Bool.false_ne_true joinable.1
      have nextFree : (⟨a, s, false⟩ : Extent) ≠ e := by
        rintro rfl
        exact Bool.false_ne_true joinable.2.1
      have absorbed : (⟨a, s, false⟩ : Extent) ≠ { cur with size := cur.size + (hdr + e.size) } := by
        intro same
        have flag : false = cur.free := congrArg Extent.free same
        exact Bool.false_ne_true (flag.trans joinable.1)
      simp only [ih, List.mem_cons, curFree, nextFree, absorbed, false_or]
    · simp only [List.mem_cons, ih]

private theorem mergeFrom_head (hdr : ℕ) (cur : Extent) (es : List Extent) :
    ∃ granted rest, mergeFrom hdr cur es = ⟨cur.addr, granted, cur.free⟩ :: rest := by
  induction es generalizing cur with
  | nil => exact ⟨cur.size, [], rfl⟩
  | cons e es ih =>
    rw [mergeFrom]
    split
    · exact ih _
    · exact ⟨cur.size, _, rfl⟩

/-- After the pass no two consecutive extents are joinable, however long the runs were. -/
theorem mergeFrom_merged (cur : Extent) (es : List Extent) : Merged hdr (mergeFrom hdr cur es) := by
  induction es generalizing cur with
  | nil => exact .singleton _
  | cons e es ih =>
    rw [mergeFrom]
    split
    · exact ih _
    · next apart =>
      obtain ⟨granted, rest, shape⟩ := mergeFrom_head hdr e es
      have tail := ih e
      rw [shape] at tail ⊢
      exact List.isChain_cons_cons.mpr ⟨fun joinable => apart joinable, tail⟩

theorem merge_between (layout : Between hdr lo hi es) : Between hdr lo hi (merge hdr es) := by
  cases es with
  | nil => exact layout
  | cons e es => exact mergeFrom_between layout

theorem merge_tiles (layout : Tiles hdr lo hi es) : Tiles hdr lo hi (merge hdr es) := by
  cases es with
  | nil => exact layout
  | cons e es => exact mergeFrom_tiles layout

theorem merge_merged (es : List Extent) : Merged hdr (merge hdr es) := by
  cases es with
  | nil => exact .nil
  | cons e es => exact mergeFrom_merged e es

theorem busy_mem_merge_iff {a s : ℕ} : ⟨a, s, false⟩ ∈ merge hdr es ↔ ⟨a, s, false⟩ ∈ es := by
  cases es with
  | nil => rfl
  | cons e es => exact busy_mem_mergeFrom_iff

theorem merge_forall {P : Extent → Prop}
    (absorb : ∀ a b, P a → P b → P { a with size := a.size + (hdr + b.size) })
    (all : ∀ e ∈ es, P e) : ∀ e ∈ merge hdr es, P e := by
  cases es with
  | nil => exact all
  | cons e es =>
    exact mergeFrom_forall absorb (all e (List.mem_cons_self ..))
      fun b member => all b (List.mem_cons_of_mem e member)

/-- A merged list without busy extents that tiles an interval has at most one extent. -/
theorem Merged.all_free (merged : Merged hdr es) (layout : Tiles hdr lo hi es)
    (free : ∀ e ∈ es, e.free = true) :
    es = [] ∧ lo = hi ∨ ∃ e, es = [e] ∧ e.free = true ∧ e.addr = lo ∧ e.stop hdr = hi := by
  match es with
  | [] => exact .inl ⟨rfl, layout⟩
  | [e] => exact .inr ⟨e, rfl, free e (List.mem_cons_self ..), layout.1.symm, layout.2⟩
  | a :: b :: rest =>
    have joinable : Joinable hdr a b :=
      ⟨free a (by simp), free b (by simp), layout.2.1⟩
    exact ((List.isChain_cons_cons.mp merged).1 joinable).elim

/-! ## Order of releases -/

section Confluence

/-- Merging the rest of the list beforehand does not change a pass. -/
theorem mergeFrom_mergeFrom (cur x : Extent) (es : List Extent) :
    mergeFrom hdr cur (mergeFrom hdr x es) = mergeFrom hdr cur (x :: es) := by
  induction es generalizing cur x with
  | nil => rfl
  | cons y es ih =>
    rw [mergeFrom.eq_def hdr x]
    dsimp only
    split
    · next joinable =>
      -- the first two extents behind `cur` become one, which `cur` absorbs exactly if it absorbs the first
      rw [ih, mergeFrom, mergeFrom]
      rcases em (Joinable hdr cur x) with first | apart
      · have grown : Joinable hdr cur { x with size := x.size + (hdr + y.size) } := first
        have second : Joinable hdr { cur with size := cur.size + (hdr + x.size) } y :=
          ⟨first.1, joinable.2.1, first.stop_absorb.trans joinable.2.2⟩
        rw [if_pos grown, if_pos first, mergeFrom, if_pos second]
        simp only [Nat.add_assoc, Nat.add_left_comm]
      · have apart' : ¬ Joinable hdr cur { x with size := x.size + (hdr + y.size) } := apart
        rw [if_neg apart', if_neg apart, mergeFrom, if_pos joinable]
    · next separate =>
      rw [mergeFrom, mergeFrom]
      split
      · exact ih _ _
      · rw [ih]

theorem mergeFrom_merge (cur : Extent) (es : List Extent) :
    mergeFrom hdr cur (merge hdr es) = mergeFrom hdr cur es := by
  cases es with
  | nil => rfl
  | cons e es => exact mergeFrom_mergeFrom cur e es

/-- Mark one extent free if it has the address. -/
def releaseOne (addr : ℕ) (e : Extent) : Extent := if e.addr = addr then { e with free := true } else e

theorem releaseOne_of_free {addr : ℕ} (free : e.free = true) : releaseOne addr e = e := by
  rw [releaseOne]
  split
  · rw [← free]
  · rfl

theorem release_cons (addr : ℕ) : release addr (e :: es) = releaseOne addr e :: release addr es := rfl

theorem merge_release_mergeFrom (addr : ℕ) (cur : Extent) (es : List Extent) :
    merge hdr (release addr (mergeFrom hdr cur es)) =
      mergeFrom hdr (releaseOne addr cur) (release addr es) := by
  induction es generalizing cur with
  | nil => rfl
  | cons e es ih =>
    rw [mergeFrom]
    split
    · next joinable =>
      have absorbed : releaseOne addr { cur with size := cur.size + (hdr + e.size) } =
          { cur with size := cur.size + (hdr + e.size) } := releaseOne_of_free joinable.1
      rw [ih, absorbed, release_cons, releaseOne_of_free joinable.1, releaseOne_of_free joinable.2.1, mergeFrom,
        if_pos joinable]
    · rw [release_cons, merge, ← mergeFrom_merge, ih, release_cons, mergeFrom_mergeFrom]

/-- A pass before a release makes no difference after the next pass. -/
theorem merge_release_merge (addr : ℕ) (es : List Extent) :
    merge hdr (release addr (merge hdr es)) = merge hdr (release addr es) := by
  cases es with
  | nil => rfl
  | cons e es => exact merge_release_mergeFrom addr e es

/-- A merged list is its own normal form. -/
theorem Merged.merge_eq (merged : Merged hdr es) : merge hdr es = es := by
  cases es with
  | nil => rfl
  | cons e es =>
    rw [merge]
    induction es generalizing e with
    | nil => rfl
    | cons b es ih =>
      obtain ⟨apart, rest⟩ := List.isChain_cons_cons.mp merged
      rw [mergeFrom, if_neg apart, ih b rest]

theorem release_comm (first second : ℕ) (es : List Extent) :
    release first (release second es) = release second (release first es) := by
  simp only [release, List.map_map]
  refine List.map_congr_left fun e _ => ?_
  simp only [Function.comp_apply]
  split_ifs <;> simp_all

theorem release_idem (addr : ℕ) (es : List Extent) : release addr (release addr es) = release addr es := by
  simp only [release, List.map_map]
  refine List.map_congr_left fun e _ => ?_
  simp only [Function.comp_apply]
  split_ifs <;> simp_all

/-- Mark all the extents with the given addresses free. -/
def releaseAll (addrs : List ℕ) (es : List Extent) : List Extent :=
  addrs.foldl (fun es addr => release addr es) es

theorem merge_releaseAll_merge (addrs : List ℕ) (es : List Extent) :
    merge hdr (releaseAll addrs (merge hdr es)) = merge hdr (releaseAll addrs es) := by
  induction addrs generalizing es with
  | nil => exact (merge_merged es).merge_eq
  | cons addr addrs ih =>
    simp only [releaseAll, List.foldl_cons] at ih ⊢
    rw [← ih, merge_release_merge, ih]

/-- The order of releases does not matter. -/
theorem releaseAll_perm {first second : List ℕ} (same : first.Perm second) (es : List Extent) :
    releaseAll first es = releaseAll second es := by
  apply same.foldl_eq'
  intro a _ b _ es
  exact release_comm b a es

/-- Merging introduces no address. -/
theorem addr_mem_merge (member : e ∈ merge hdr es) : ∃ b ∈ es, b.addr = e.addr :=
  merge_forall (P := fun e => ∃ b ∈ es, b.addr = e.addr) (fun _ _ here _ => here)
    (fun b present => ⟨b, present, rfl⟩) e member

theorem addr_mem_release {addr : ℕ} (member : e ∈ release addr es) : ∃ b ∈ es, b.addr = e.addr := by
  obtain ⟨b, present, rfl⟩ := List.mem_map.mp member
  refine ⟨b, present, ?_⟩
  split <;> rfl

end Confluence

end FreeList
