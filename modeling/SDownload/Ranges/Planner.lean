import SDownload.Ranges.Operations
import Mathlib.Tactic.Ring

/-!
# SDownload.Ranges.Planner

What `calculate_ranges` returns.

Everything here is read off three equations for one gap (`fillGap_of_lt`,
`fillGap_last`, `fillGap_cons`) and the recursion of `planFrom`; the loop budget
of `splitGap` does not occur past `splitGap_fuel`. The results the rest of the
development uses:

* `planFrom_tiles`: over a cache of disjoint ranges the plan is a partition of
  the file, in order;
* `planFrom_covers`: over any cache at all the plan leaves no byte out;
* `length_calculateRanges`: how many ranges there are, by the gaps of the cache.
-/

namespace SDownload

/-! ### One gap -/

/-- With budget for every byte of the gap, the budget does not matter. -/
theorem splitGap_fuel {target gapEnd : Int} {closing : Option Int} (htarget : 0 < target) :
    ∀ (fuel fuel' : Nat) {s : Int}, (gapEnd + 1 - s).toNat ≤ fuel →
      (gapEnd + 1 - s).toNat ≤ fuel' →
      splitGap target gapEnd closing fuel s = splitGap target gapEnd closing fuel' s := by
  intro fuel
  induction fuel with
  | zero =>
      intro fuel' s h _
      have hgt : ¬ s ≤ gapEnd := by omega
      cases fuel' <;> simp [splitGap, hgt]
  | succ fuel ih =>
      intro fuel' s h h'
      cases fuel' with
      | zero =>
          have hgt : ¬ s ≤ gapEnd := by omega
          simp [splitGap, hgt]
      | succ fuel' =>
          simp only [splitGap]
          split
          · split
            · rfl
            · rw [ih fuel' (s := s + target - 1 + 1) (by omega) (by omega)]
          · rfl

theorem fillGap_of_lt {target s gapEnd : Int} {closing : Option Int} (h : gapEnd < s) :
    fillGap target s gapEnd closing = [] := by
  have hzero : (gapEnd + 1 - s).toNat = 0 := by omega
  rw [fillGap, hzero, splitGap]

/-- The last piece of a gap takes what is left and the closing end. -/
theorem fillGap_last {target s gapEnd : Int} {closing : Option Int} (h : s ≤ gapEnd)
    (hlast : gapEnd - s + 1 ≤ target) :
    fillGap target s gapEnd closing = [⟨s, closing⟩] := by
  obtain ⟨fuel, hfuel⟩ : ∃ fuel, (gapEnd + 1 - s).toNat = fuel + 1 :=
    Nat.exists_eq_succ_of_ne_zero (by omega)
  simp only [fillGap, hfuel, splitGap, if_pos h, if_pos hlast]

/-- A gap longer than a piece starts with a whole piece. -/
theorem fillGap_cons {target s gapEnd : Int} {closing : Option Int} (htarget : 0 < target)
    (hlong : target < gapEnd - s + 1) :
    fillGap target s gapEnd closing =
      ⟨s, some (s + target - 1)⟩ :: fillGap target (s + target) gapEnd closing := by
  obtain ⟨fuel, hfuel⟩ : ∃ fuel, (gapEnd + 1 - s).toNat = fuel + 1 :=
    Nat.exists_eq_succ_of_ne_zero (by omega)
  have hin : s ≤ gapEnd := by omega
  have hmore : ¬ gapEnd - s + 1 ≤ target := by omega
  have hnext : s + target - 1 + 1 = s + target := by omega
  simp only [fillGap, hfuel, splitGap, if_pos hin, if_neg hmore, hnext]
  rw [splitGap_fuel htarget fuel (gapEnd + 1 - (s + target)).toNat (by omega) le_rfl]

/-- Induction along the pieces of a gap: nothing left, the last piece, a whole piece. -/
theorem gap_induction {target : Int} (gapEnd : Int) (htarget : 0 < target) {motive : Int → Prop}
    (empty : ∀ s, gapEnd < s → motive s)
    (last : ∀ s, s ≤ gapEnd → gapEnd - s + 1 ≤ target → motive s)
    (cons : ∀ s, target < gapEnd - s + 1 → motive (s + target) → motive s) :
    ∀ s, motive s := by
  intro s
  induction hn : (gapEnd + 1 - s).toNat using Nat.strongRecOn generalizing s with
  | ind n ih =>
      by_cases hlt : gapEnd < s
      · exact empty s hlt
      by_cases hlast : gapEnd - s + 1 ≤ target
      · exact last s (by omega) hlast
      · exact cons s (by omega) (ih _ (by omega) (s + target) rfl)

/-! ### Tilings -/

/-- The ranges follow each other without gap or overlap from `pos` up to `goal`, none of them
empty. -/
def Tiles (fileSize : Int) : Int → List ChunkRange → Int → Prop
  | pos, [], goal => pos = goal
  | pos, r :: rest, goal =>
      r.start = pos ∧ pos < r.stop fileSize ∧ Tiles fileSize (r.stop fileSize) rest goal

@[simp] theorem tiles_nil {fileSize pos goal : Int} : Tiles fileSize pos [] goal ↔ pos = goal :=
  Iff.rfl

@[simp] theorem tiles_cons {fileSize pos goal : Int} {r : ChunkRange} {rest : List ChunkRange} :
    Tiles fileSize pos (r :: rest) goal ↔
      r.start = pos ∧ pos < r.stop fileSize ∧ Tiles fileSize (r.stop fileSize) rest goal :=
  Iff.rfl

theorem Tiles.append {fileSize : Int} {xs ys : List ChunkRange} {a b c : Int}
    (hxs : Tiles fileSize a xs b) (hys : Tiles fileSize b ys c) :
    Tiles fileSize a (xs ++ ys) c := by
  induction xs generalizing a with
  | nil => obtain rfl : a = b := hxs; exact hys
  | cons r rest ih => exact ⟨hxs.1, hxs.2.1, ih hxs.2.2⟩

theorem Tiles.le {fileSize : Int} {xs : List ChunkRange} {a b : Int}
    (h : Tiles fileSize a xs b) : a ≤ b := by
  induction xs generalizing a with
  | nil => exact le_of_eq h
  | cons r rest ih => exact le_trans (le_of_lt h.2.1) (ih h.2.2)

/-- A tiling leaves no byte out. -/
theorem Tiles.covers {fileSize : Int} {xs : List ChunkRange} {a b x : Int}
    (h : Tiles fileSize a xs b) (hax : a ≤ x) (hxb : x < b) (hx : x < fileSize) :
    ∃ r ∈ xs, r.Has x := by
  induction xs generalizing a with
  | nil => obtain rfl : a = b := h; omega
  | cons r rest ih =>
      obtain ⟨hstart, -, hrest⟩ := h
      by_cases hlt : x < r.stop fileSize
      · have hhas : r.Has x := (r.has_iff_lt_stop hx).mpr ⟨by omega, hlt⟩
        exact ⟨r, List.mem_cons_self, hhas⟩
      · obtain ⟨r', hr', hhas⟩ := ih hrest (by omega)
        exact ⟨r', List.mem_cons_of_mem _ hr', hhas⟩

/-- The ranges of a tiling lie between its ends. -/
theorem Tiles.bounds {fileSize : Int} {xs : List ChunkRange} {a b : Int}
    (h : Tiles fileSize a xs b) {r : ChunkRange} (hr : r ∈ xs) :
    a ≤ r.start ∧ r.start < r.stop fileSize ∧ r.stop fileSize ≤ b := by
  induction xs generalizing a with
  | nil => cases hr
  | cons r' rest ih =>
      obtain ⟨hstart, hlt, hrest⟩ := h
      rcases List.mem_cons.mp hr with rfl | hr
      · exact ⟨le_of_eq hstart.symm, by omega, hrest.le⟩
      · obtain ⟨h1, h2, h3⟩ := ih hrest hr
        exact ⟨by omega, h2, h3⟩

/-- The pieces of a gap tile it. -/
theorem fillGap_tiles {fileSize target : Int} (gapEnd : Int) (closing : Option Int)
    (htarget : 0 < target)
    (hclosing : ∀ s, (⟨s, closing⟩ : ChunkRange).stop fileSize = gapEnd + 1) (s : Int) :
    s ≤ gapEnd + 1 → Tiles fileSize s (fillGap target s gapEnd closing) (gapEnd + 1) := by
  induction s using gap_induction gapEnd htarget with
  | empty s hlt =>
      intro hle
      rw [fillGap_of_lt hlt]
      exact le_antisymm hle hlt
  | last s hle hlast =>
      intro _
      rw [fillGap_last hle hlast]
      exact ⟨rfl, by rw [hclosing]; omega, hclosing s⟩
  | cons s hlong ih =>
      intro _
      rw [fillGap_cons htarget hlong]
      have hstop : s + target - 1 + 1 = s + target := by omega
      refine ⟨rfl, ?_, ?_⟩ <;> simp only [ChunkRange.stop_some, hstop]
      · omega
      · exact ih (by omega)

/-- The pieces before a cached range end where it starts. -/
theorem innerGap_tiles (fileSize : Int) {target pos next : Int} (htarget : 0 < target)
    (h : pos ≤ next) :
    Tiles fileSize pos (fillGap target pos (next - 1) (some (next - 1))) next := by
  have htiles := fillGap_tiles (next - 1) (some (next - 1)) htarget
    (fun s => ChunkRange.stop_some fileSize s (next - 1)) pos (by omega)
  simpa using htiles

/-- The pieces after the cache end with the file; the last one is open. -/
theorem tailGap_tiles {fileSize target pos : Int} (htarget : 0 < target) (h : pos ≤ fileSize) :
    Tiles fileSize pos (fillGap target pos (fileSize - 1) none) fileSize := by
  have hopen : ∀ s, (⟨s, none⟩ : ChunkRange).stop fileSize = fileSize - 1 + 1 := by simp
  have htiles := fillGap_tiles (fileSize - 1) none htarget hopen pos (by omega)
  simpa using htiles

theorem targetChunkSize_pos (fileSize numParts : Int) : 0 < targetChunkSize fileSize numParts :=
  lt_of_lt_of_le Int.zero_lt_one (le_max_left _ _)

/-! ### The plan over a cache of disjoint ranges -/

/-- The cached ranges come in order, from `pos` on, and do not overlap. -/
def Separated (fileSize : Int) : Int → List ChunkRange → Prop
  | _, [] => True
  | pos, r :: rest =>
      pos ≤ r.start ∧ r.InFile fileSize ∧ Separated fileSize (r.stop fileSize) rest

/-- Over separated cached ranges the plan is a partition of what is left of the file. -/
theorem planFrom_tiles {fileSize target : Int} (htarget : 0 < target) :
    ∀ {cache : List ChunkRange} {pos : Int}, pos ≤ fileSize → Separated fileSize pos cache →
      Tiles fileSize pos (planFrom fileSize target pos cache) fileSize := by
  intro cache
  induction cache with
  | nil =>
      intro pos hpos _
      simp only [planFrom]
      split
      · exact tailGap_tiles htarget hpos
      · have hpos' : pos = fileSize := by omega
        exact hpos'
  | cons r rest ih =>
      intro pos _ hsep
      obtain ⟨hle, hr, hrest⟩ := hsep
      have htail : Tiles fileSize r.start
          (r :: planFrom fileSize target (r.stop fileSize) rest) fileSize :=
        ⟨rfl, hr.start_lt_stop, ih hr.stop_le hrest⟩
      simp only [planFrom]
      refine Tiles.append (b := r.start) ?_ htail
      split
      · exact innerGap_tiles fileSize htarget hle
      · have hpos' : pos = r.start := by omega
        exact hpos'

/-- Sorting a cache of disjoint ranges of the file separates it. -/
theorem separated_sortedCache {fileSize : Int} {cache : List ChunkRange}
    (hin : ∀ r ∈ cache, r.InFile fileSize) (hdis : cache.Pairwise ChunkRange.Disjoint) :
    Separated fileSize 0 (sortedCache (some cache)) := by
  have hperm : (sortedCache (some cache)).Perm cache := List.perm_insertionSort _ _
  have hsorted : (sortedCache (some cache)).Pairwise (fun a b => a.start ≤ b.start) :=
    List.pairwise_insertionSort _ _
  have hdis' : (sortedCache (some cache)).Pairwise ChunkRange.Disjoint :=
    (hperm.pairwise_iff fun h x hx => h x hx.symm).mpr hdis
  have hin' : ∀ r ∈ sortedCache (some cache), r.InFile fileSize :=
    fun r hr => hin r (hperm.subset hr)
  have key : ∀ (xs : List ChunkRange) (pos : Int), (∀ r ∈ xs, r.InFile fileSize) →
      xs.Pairwise (fun a b => a.start ≤ b.start) → xs.Pairwise ChunkRange.Disjoint →
      (∀ r ∈ xs, pos ≤ r.start) → Separated fileSize pos xs := by
    intro xs
    induction xs with
    | nil => intros; trivial
    | cons r rest ih =>
        intro pos hin hsorted hdis hpos
        rw [List.pairwise_cons] at hsorted hdis
        refine ⟨hpos r List.mem_cons_self, hin r List.mem_cons_self, ?_⟩
        refine ih _ (fun r' h => hin r' (List.mem_cons_of_mem _ h)) hsorted.2 hdis.2 ?_
        intro r' hr'
        exact ChunkRange.stop_le_start_of_disjoint (hin r' (List.mem_cons_of_mem _ hr'))
          (hdis.1 r' hr') (hsorted.1 r' hr')
  exact key _ 0 hin' hsorted hdis' fun r hr => (hin' r hr).start_nonneg

/-- Over a cache of disjoint ranges, `calculate_ranges` partitions the file. -/
theorem calculateRanges_tiles {fileSize : Int} (hsize : 0 ≤ fileSize) (numParts : Int)
    {cache : List ChunkRange} (hin : ∀ r ∈ cache, r.InFile fileSize)
    (hdis : cache.Pairwise ChunkRange.Disjoint) :
    Tiles fileSize 0 (calculateRanges fileSize numParts (some cache)) fileSize :=
  planFrom_tiles (targetChunkSize_pos _ _) hsize (separated_sortedCache hin hdis)

/-! ### The plan over any cache -/

/-- Whatever the cache, and wherever its overlaps move the cursor, no byte from the cursor on is
left out. -/
theorem planFrom_covers {fileSize target : Int} (htarget : 0 < target) :
    ∀ {cache : List ChunkRange} {pos x : Int}, pos ≤ x → x < fileSize →
      ∃ r ∈ planFrom fileSize target pos cache, r.Has x := by
  intro cache
  induction cache with
  | nil =>
      intro pos x hpos hx
      have hlt : pos < fileSize := by omega
      rw [planFrom, if_pos hlt]
      exact (tailGap_tiles htarget hlt.le).covers hpos hx hx
  | cons r rest ih =>
      intro pos x hpos hx
      simp only [planFrom]
      by_cases hbefore : x < r.start
      · have hlt : pos < r.start := by omega
        rw [if_pos hlt]
        obtain ⟨r', hr', hhas⟩ :=
          (innerGap_tiles fileSize htarget hlt.le).covers hpos hbefore hx
        exact ⟨r', List.mem_append_left _ hr', hhas⟩
      · by_cases hstop : x < r.stop fileSize
        · have hhas : r.Has x := (r.has_iff_lt_stop hx).mpr ⟨by omega, hstop⟩
          exact ⟨r, List.mem_append_right _ List.mem_cons_self, hhas⟩
        · obtain ⟨r', hr', hhas⟩ := ih (not_lt.mp hstop) hx
          exact ⟨r', List.mem_append_right _ (List.mem_cons_of_mem _ hr'), hhas⟩

theorem calculateRanges_covers {fileSize x : Int} (numParts : Int)
    (cache : Option (List ChunkRange)) (h0 : 0 ≤ x) (hx : x < fileSize) :
    ∃ r ∈ calculateRanges fileSize numParts cache, r.Has x :=
  planFrom_covers (targetChunkSize_pos _ _) h0 hx

/-- Every cached range is in the plan, in the order of the cache. -/
theorem sublist_planFrom {fileSize target : Int} :
    ∀ (cache : List ChunkRange) (pos : Int),
      cache.Sublist (planFrom fileSize target pos cache) := by
  intro cache
  induction cache with
  | nil => exact fun _ => List.nil_sublist _
  | cons c rest ih =>
      intro pos
      rw [planFrom]
      exact ((ih _).cons_cons c).trans (List.sublist_append_right _ _)

theorem mem_calculateRanges_of_mem {fileSize : Int} {cache : List ChunkRange} {r : ChunkRange}
    (numParts : Int) (h : r ∈ cache) : r ∈ calculateRanges fileSize numParts (some cache) :=
  (sublist_planFrom _ _).subset ((List.mem_insertionSort _).mpr h)

/-- Nothing in the plan reaches outside the file. -/
theorem inFile_of_mem_planFrom {fileSize target : Int} (htarget : 0 < target) {r : ChunkRange} :
    ∀ {cache : List ChunkRange} {pos : Int}, 0 ≤ pos → (∀ c ∈ cache, c.InFile fileSize) →
      r ∈ planFrom fileSize target pos cache → r.InFile fileSize := by
  have ofTiles : ∀ {xs : List ChunkRange} {a b : Int}, Tiles fileSize a xs b → 0 ≤ a →
      b ≤ fileSize → r ∈ xs → r.InFile fileSize := by
    intro xs a b htiles ha hb hr
    obtain ⟨hstart, hlt, hstop⟩ := htiles.bounds hr
    obtain ⟨s, e⟩ := r
    refine ⟨ha.trans hstart, ?_, fun e' he => ?_, fun e' he => ?_⟩
    · exact lt_of_lt_of_le hlt (hstop.trans hb)
    · obtain rfl : e = some e' := he
      exact Int.lt_add_one_iff.mp hlt
    · obtain rfl : e = some e' := he
      exact lt_of_lt_of_le (Int.lt_succ e') (hstop.trans hb)
  intro cache
  induction cache with
  | nil =>
      intro pos hpos _ hr
      rw [planFrom] at hr
      split at hr
      · rename_i hlt
        exact ofTiles (tailGap_tiles htarget hlt.le) hpos le_rfl hr
      · cases hr
  | cons c rest ih =>
      intro pos hpos hin hr
      have hc := hin c List.mem_cons_self
      simp only [planFrom, List.mem_append, List.mem_cons] at hr
      rcases hr with hr | rfl | hr
      · split at hr
        · rename_i hlt
          exact ofTiles (innerGap_tiles fileSize htarget hlt.le) hpos hc.start_lt.le hr
        · cases hr
      · exact hc
      · refine ih ?_ (fun c' hc' => hin c' (List.mem_cons_of_mem _ hc')) hr
        exact hc.start_nonneg.trans hc.start_lt_stop.le

theorem inFile_of_mem_calculateRanges {fileSize : Int} (numParts : Int) {cache : List ChunkRange}
    (hin : ∀ c ∈ cache, c.InFile fileSize) {r : ChunkRange}
    (hr : r ∈ calculateRanges fileSize numParts (some cache)) : r.InFile fileSize :=
  inFile_of_mem_planFrom (targetChunkSize_pos _ _) le_rfl
    (fun c hc => hin c ((List.mem_insertionSort _).mp hc)) hr

/-! ### How many ranges there are -/

/-- The lengths of the gaps a cache leaves, in order; not positive where there is none. -/
def gapLengths (fileSize : Int) : Int → List ChunkRange → List Int
  | pos, [] => [fileSize - pos]
  | pos, r :: rest => (r.start - pos) :: gapLengths fileSize (r.stop fileSize) rest

/-- Pieces of `target` bytes that a gap of `len` bytes is cut into, rounded up. -/
def piecesOf (target len : Int) : Int :=
  if len ≤ 0 then 0 else (len + target - 1) / target

theorem piecesOf_add {target len : Int} (htarget : 0 < target) (hlen : 0 < len) :
    piecesOf target (len + target) = piecesOf target len + 1 := by
  have hsplit : len + target + target - 1 = (len + target - 1) + 1 * target := by ring
  rw [piecesOf, piecesOf, if_neg (by omega), if_neg (by omega), hsplit,
    Int.add_mul_ediv_right _ _ (ne_of_gt htarget)]

theorem piecesOf_eq_one {target len : Int} (hlen : 0 < len) (hle : len ≤ target) :
    piecesOf target len = 1 := by
  have htarget : 0 < target := lt_of_lt_of_le hlen hle
  have hsplit : len + target - 1 = (len - 1) + 1 * target := by ring
  rw [piecesOf, if_neg (by omega), hsplit, Int.add_mul_ediv_right _ _ (ne_of_gt htarget),
    Int.ediv_eq_zero_of_lt (by omega) (by omega), zero_add]

theorem length_fillGap {target gapEnd : Int} (closing : Option Int) (htarget : 0 < target)
    (s : Int) :
    ((fillGap target s gapEnd closing).length : Int) = piecesOf target (gapEnd + 1 - s) := by
  induction s using gap_induction gapEnd htarget with
  | empty s hlt =>
      rw [fillGap_of_lt hlt, piecesOf, if_pos (by omega)]
      rfl
  | last s hle hlast =>
      rw [fillGap_last hle hlast, piecesOf_eq_one (by omega) (by omega)]
      rfl
  | cons s hlong ih =>
      have hlen : gapEnd + 1 - s = (gapEnd + 1 - (s + target)) + target := by ring
      rw [fillGap_cons htarget hlong, hlen, piecesOf_add htarget (by omega), List.length_cons,
        Nat.cast_add, ih]
      rfl

theorem length_planFrom {fileSize target : Int} (htarget : 0 < target) :
    ∀ (cache : List ChunkRange) (pos : Int),
      ((planFrom fileSize target pos cache).length : Int) =
        cache.length + ((gapLengths fileSize pos cache).map (piecesOf target)).sum := by
  have gap : ∀ (pos next : Int) (closing : Option Int),
      (((if pos < next then fillGap target pos (next - 1) closing else []).length : Nat) : Int) =
        piecesOf target (next - pos) := by
    intro pos next closing
    split
    · rw [length_fillGap closing htarget]
      congr 1
      ring
    · rw [piecesOf, if_pos (by omega)]
      rfl
  intro cache
  induction cache with
  | nil =>
      intro pos
      simp [planFrom, gapLengths, gap]
  | cons r rest ih =>
      intro pos
      have hgap := gap pos r.start (some (r.start - 1))
      simp only [planFrom, gapLengths, List.length_append, List.length_cons, Nat.cast_add,
        Nat.cast_one, List.map_cons, List.sum_cons, hgap, ih]
      ring

/-- The number of ranges: the cached ones, and the pieces of every gap between them. -/
theorem length_calculateRanges (fileSize numParts : Int) (cache : Option (List ChunkRange)) :
    ((calculateRanges fileSize numParts cache).length : Int) =
      (cache.getD []).length +
        ((gapLengths fileSize 0 (sortedCache cache)).map
          (piecesOf (targetChunkSize fileSize numParts))).sum := by
  rw [calculateRanges, length_planFrom (targetChunkSize_pos _ _), sortedCache,
    List.length_insertionSort]

end SDownload
