import SDownload.Ranges.Planner

/-!
# SDownload.Ranges.Gaps

The ranges `calculate_ranges` adds to its cache.

`gapAt` is what it adds at one place of the sorted cache and `gapsFrom` all of it;
the plan is the cache and these (`perm_planFrom`). The places are in the order of
the starts, so what is added in different places never overlaps, and no added
range starts where a cached one does.

The cursor is **overwritten** by each cached range, not moved to the furthest end
so far. What that costs is `calculateRanges_rescheduled_iff`: bytes that are
cached are planned again exactly when a gap opens after a cached range that ends
before an earlier one does.
-/

namespace SDownload

/-! ### One place in the cache -/

/-- Where the next cached range starts, or the end of the file after the last one. -/
def nextStart (fileSize : Int) : List ChunkRange → Int
  | [] => fileSize
  | c :: _ => c.start

/-- What is planned from the cursor up to the next cached range. -/
def gapAt (fileSize target pos : Int) (after : List ChunkRange) : List ChunkRange :=
  if pos < nextStart fileSize after then
    fillGap target pos (nextStart fileSize after - 1)
      (match after with
        | [] => none
        | c :: _ => some (c.start - 1))
  else []

/-- Everything planned around the cached ranges, from the cursor on. -/
def gapsFrom (fileSize target : Int) : Int → List ChunkRange → List ChunkRange
  | pos, [] => gapAt fileSize target pos []
  | pos, c :: rest =>
      gapAt fileSize target pos (c :: rest) ++ gapsFrom fileSize target (c.stop fileSize) rest

/-- The plan is the cached ranges and what is planned around them. -/
theorem perm_planFrom (fileSize target : Int) :
    ∀ (cache : List ChunkRange) (pos : Int),
      (planFrom fileSize target pos cache).Perm (cache ++ gapsFrom fileSize target pos cache) := by
  intro cache
  induction cache with
  | nil => exact fun _ => List.Perm.refl _
  | cons c rest ih =>
      intro pos
      have hmiddle := (ih (c.stop fileSize)).cons c
      exact (hmiddle.append_left (gapAt fileSize target pos (c :: rest))).trans
        (List.perm_append_comm_assoc _ (c :: rest) _)

/-- What is planned in one place tiles it. -/
theorem gapAt_tiles (fileSize : Int) {target pos : Int} {after : List ChunkRange}
    (htarget : 0 < target) (h : pos ≤ nextStart fileSize after) :
    Tiles fileSize pos (gapAt fileSize target pos after) (nextStart fileSize after) := by
  unfold gapAt
  split
  · cases after with
    | nil => exact tailGap_tiles htarget h
    | cons c rest => exact innerGap_tiles fileSize htarget h
  · exact le_antisymm h (not_lt.mp ‹_›)

theorem gapAt_of_le {fileSize target pos : Int} {after : List ChunkRange}
    (h : nextStart fileSize after ≤ pos) : gapAt fileSize target pos after = [] :=
  if_neg (not_lt.mpr h)

/-- No piece of a gap is longer than a piece may be. -/
theorem length_le_of_mem_fillGap {fileSize target gapEnd : Int} {closing : Option Int}
    (htarget : 0 < target)
    (hclosing : ∀ s, (⟨s, closing⟩ : ChunkRange).stop fileSize = gapEnd + 1) {r : ChunkRange}
    (s : Int) :
    r ∈ fillGap target s gapEnd closing → r.stop fileSize - r.start ≤ target := by
  induction s using gap_induction gapEnd htarget with
  | empty s hlt =>
      rw [fillGap_of_lt hlt]
      intro hr
      cases hr
  | last s hle hlast =>
      rw [fillGap_last hle hlast]
      intro hr
      obtain rfl := List.mem_singleton.mp hr
      rw [hclosing]
      show gapEnd + 1 - s ≤ target
      omega
  | cons s hlong ih =>
      rw [fillGap_cons htarget hlong]
      intro hr
      rcases List.mem_cons.mp hr with rfl | hr
      · show s + target - 1 + 1 - s ≤ target
        omega
      · exact ih hr

theorem length_le_of_mem_gapAt {fileSize target pos : Int} {after : List ChunkRange}
    (htarget : 0 < target) {r : ChunkRange} (hr : r ∈ gapAt fileSize target pos after) :
    r.stop fileSize - r.start ≤ target := by
  unfold gapAt at hr
  split at hr
  · refine length_le_of_mem_fillGap htarget (fun s => ?_) pos hr
    cases after with
    | nil =>
        show fileSize = fileSize - 1 + 1
        omega
    | cons c rest => rfl
  · cases hr

/-- An added range lies between the cursor and the next cached range. -/
theorem bounds_of_mem_gapAt {fileSize target pos : Int} {after : List ChunkRange}
    (htarget : 0 < target) {r : ChunkRange} (hr : r ∈ gapAt fileSize target pos after) :
    pos ≤ r.start ∧ r.start < r.stop fileSize ∧ r.stop fileSize ≤ nextStart fileSize after := by
  by_cases h : pos ≤ nextStart fileSize after
  · exact (gapAt_tiles fileSize htarget h).bounds hr
  · rw [gapAt_of_le (not_le.mp h).le] at hr
    cases hr

/-- An added range comes from before the cache or from after one of its ranges. -/
theorem mem_gapsFrom {fileSize target : Int} {r : ChunkRange} :
    ∀ {cache : List ChunkRange} {pos : Int}, r ∈ gapsFrom fileSize target pos cache ↔
      r ∈ gapAt fileSize target pos cache ∨ ∃ before c after,
        cache = before ++ c :: after ∧ r ∈ gapAt fileSize target (c.stop fileSize) after := by
  intro cache
  induction cache with
  | nil => simp [gapsFrom]
  | cons c rest ih =>
      intro pos
      rw [gapsFrom, List.mem_append, ih]
      constructor
      · intro h
        rcases h with h | h | ⟨before, c', after, hrest, h⟩
        · exact Or.inl h
        · exact Or.inr ⟨[], c, rest, rfl, h⟩
        · exact Or.inr ⟨c :: before, c', after, by rw [hrest, List.cons_append], h⟩
      · intro h
        rcases h with h | ⟨before, c', after, hcache, h⟩
        · exact Or.inl h
        · cases before with
          | nil =>
              obtain ⟨rfl, rfl⟩ := List.cons.inj hcache
              exact Or.inr (Or.inl h)
          | cons b before =>
              obtain ⟨rfl, hrest⟩ := List.cons.inj hcache
              exact Or.inr (Or.inr ⟨before, c', after, hrest, h⟩)

/-! ### Over a sorted cache -/

/-- The cached ranges of a file, in the order of their starts. -/
structure SortedInFile (fileSize : Int) (cache : List ChunkRange) : Prop where
  sorted : cache.Pairwise fun a b => a.start ≤ b.start
  inFile : ∀ c ∈ cache, c.InFile fileSize

theorem sortedInFile_sortedCache {fileSize : Int} {cache : List ChunkRange}
    (hin : ∀ c ∈ cache, c.InFile fileSize) :
    SortedInFile fileSize (sortedCache (some cache)) where
  sorted := List.pairwise_insertionSort _ _
  inFile := fun c hc => hin c ((List.mem_insertionSort _).mp hc)

section Sorted

variable {fileSize target : Int} {cache before after : List ChunkRange} {c r : ChunkRange}

/-- What comes before a place of a sorted cache starts before it. -/
theorem SortedInFile.start_le_of_mem_before (h : SortedInFile fileSize cache)
    (hcache : cache = before ++ c :: after) {b : ChunkRange} (hb : b ∈ before) :
    b.start ≤ c.start := by
  have hsorted := h.sorted
  rw [hcache, List.pairwise_append] at hsorted
  exact hsorted.2.2 b hb c List.mem_cons_self

/-- What comes after a place of a sorted cache starts where the next range does, or later. -/
theorem SortedInFile.nextStart_le_of_mem_after (h : SortedInFile fileSize cache)
    (hcache : cache = before ++ c :: after) {a : ChunkRange} (ha : a ∈ after) :
    nextStart fileSize after ≤ a.start := by
  have hsorted := h.sorted
  rw [hcache, List.pairwise_append, List.pairwise_cons] at hsorted
  cases after with
  | nil => cases ha
  | cons a' rest =>
      rcases List.mem_cons.mp ha with rfl | ha
      · exact le_rfl
      · exact (List.pairwise_cons.mp hsorted.2.1.2).1 a ha

theorem SortedInFile.mem (hcache : cache = before ++ c :: after) : c ∈ cache := by
  rw [hcache]
  exact List.mem_append_right _ List.mem_cons_self

/-- No added range starts where a cached one does. -/
theorem SortedInFile.start_ne (htarget : 0 < target) (h : SortedInFile fileSize cache) {pos : Int}
    (hr : r ∈ gapsFrom fileSize target pos cache) (hc : c ∈ cache) : c.start ≠ r.start := by
  rcases mem_gapsFrom.mp hr with hr | ⟨before, d, after, hcache, hr⟩
  · -- before the cache
    obtain ⟨-, h1, h2⟩ := bounds_of_mem_gapAt htarget hr
    cases cache with
    | nil => cases hc
    | cons d rest =>
        have hd : d.start ≤ c.start := by
          rcases List.mem_cons.mp hc with rfl | hc
          · exact le_rfl
          · exact (List.pairwise_cons.mp h.sorted).1 c hc
        exact ((h1.trans_le h2).trans_le hd).ne'
  · obtain ⟨h0, h1, h2⟩ := bounds_of_mem_gapAt htarget hr
    have hd := (h.inFile d (SortedInFile.mem hcache)).start_lt_stop
    rw [hcache, List.mem_append, List.mem_cons] at hc
    rcases hc with hc | rfl | hc
    · exact (((h.start_le_of_mem_before hcache hc).trans_lt hd).trans_le h0).ne
    · exact (hd.trans_le h0).ne
    · exact ((h1.trans_le h2).trans_le (h.nextStart_le_of_mem_after hcache hc)).ne'

/-- A range that stops where another of the file starts, or before, shares no byte with it. -/
theorem ChunkRange.disjoint_of_stop_le {r r' : ChunkRange} (h' : r'.start < fileSize)
    (h : r.stop fileSize ≤ r'.start) : r.Disjoint r' := by
  intro x hx
  obtain ⟨⟨-, hend⟩, hstart, -⟩ := hx
  obtain ⟨s, e⟩ := r
  cases e with
  | none => exact absurd h (not_le.mpr h')
  | some e =>
      have := hend e rfl
      rw [ChunkRange.stop_some] at h
      omega

/-- The ranges of a tiling follow each other. -/
theorem Tiles.pairwise {xs : List ChunkRange} {a b : Int} (h : Tiles fileSize a xs b) :
    xs.Pairwise fun r r' => r.stop fileSize ≤ r'.start := by
  induction xs generalizing a with
  | nil => exact List.Pairwise.nil
  | cons r rest ih =>
      obtain ⟨-, -, hrest⟩ := h
      exact List.pairwise_cons.mpr ⟨fun r' hr' => (hrest.bounds hr').1, ih hrest⟩

/-- The added ranges follow each other, whatever the cache. -/
theorem pairwise_gapsFrom (htarget : 0 < target) :
    ∀ {cache : List ChunkRange} {pos : Int}, SortedInFile fileSize cache →
      (gapsFrom fileSize target pos cache).Pairwise fun r r' => r.stop fileSize ≤ r'.start := by
  have one : ∀ (pos : Int) (after : List ChunkRange),
      (gapAt fileSize target pos after).Pairwise fun r r' => r.stop fileSize ≤ r'.start := by
    intro pos after
    by_cases h : pos ≤ nextStart fileSize after
    · exact (gapAt_tiles fileSize htarget h).pairwise
    · rw [gapAt_of_le (not_le.mp h).le]
      exact List.Pairwise.nil
  intro cache
  induction cache with
  | nil => exact fun {pos} _ => one pos []
  | cons c rest ih =>
      intro pos h
      have hrest : SortedInFile fileSize rest :=
        ⟨h.sorted.of_cons, fun c' hc' => h.inFile c' (List.mem_cons_of_mem _ hc')⟩
      refine List.pairwise_append.mpr ⟨one pos (c :: rest), ih hrest, fun r hr r' hr' => ?_⟩
      have hstop : r.stop fileSize ≤ c.start := (bounds_of_mem_gapAt htarget hr).2.2
      have hc := (h.inFile c List.mem_cons_self).start_lt_stop
      rcases mem_gapsFrom.mp hr' with hr' | ⟨before, d, after, hcache, hr'⟩
      · have := (bounds_of_mem_gapAt htarget hr').1
        omega
      · have hd := SortedInFile.mem hcache
        have hle := (List.pairwise_cons.mp h.sorted).1 d hd
        have hlt := (hrest.inFile d hd).start_lt_stop
        have := (bounds_of_mem_gapAt htarget hr').1
        omega

/-- The added ranges are in the file. -/
theorem start_lt_of_mem_gapsFrom (htarget : 0 < target) {pos : Int}
    (h : SortedInFile fileSize cache) (hr : r ∈ gapsFrom fileSize target pos cache) :
    r.start < fileSize := by
  have hnext : ∀ l : List ChunkRange, (∀ c ∈ l, c ∈ cache) → nextStart fileSize l ≤ fileSize := by
    intro l hl
    cases l with
    | nil => exact le_rfl
    | cons c rest => exact (h.inFile c (hl c List.mem_cons_self)).start_lt.le
  rcases mem_gapsFrom.mp hr with hr | ⟨before, c, after, hcache, hr⟩
  · obtain ⟨-, h1, h2⟩ := bounds_of_mem_gapAt htarget hr
    exact (h1.trans_le h2).trans_le (hnext cache fun _ hc => hc)
  · obtain ⟨-, h1, h2⟩ := bounds_of_mem_gapAt htarget hr
    refine (h1.trans_le h2).trans_le (hnext after fun c' hc' => ?_)
    rw [hcache]
    exact List.mem_append_right _ (List.mem_cons_of_mem _ hc')

end Sorted

/-! ### What `calculate_ranges` adds -/

/-- The ranges of the plan that are not the cache's. -/
def addedRanges (fileSize numParts : Int) (cache : List ChunkRange) : List ChunkRange :=
  (calculateRanges fileSize numParts (some cache)).diff cache

theorem append_diff_self {α : Type*} [DecidableEq α] (l l' : List α) : (l ++ l').diff l = l' := by
  induction l with
  | nil => rw [List.nil_append, List.diff_nil]
  | cons a l ih => rw [List.cons_append, List.diff_cons, List.erase_cons_head, ih]

/-- The plan is the cache and what is planned around it. -/
theorem perm_calculateRanges (fileSize numParts : Int) (cache : List ChunkRange) :
    (calculateRanges fileSize numParts (some cache)).Perm
      (cache ++ gapsFrom fileSize (targetChunkSize fileSize numParts) 0
        (sortedCache (some cache))) :=
  (perm_planFrom _ _ _ _).trans ((List.perm_insertionSort _ cache).append_right _)

theorem perm_addedRanges (fileSize numParts : Int) (cache : List ChunkRange) :
    (addedRanges fileSize numParts cache).Perm
      (gapsFrom fileSize (targetChunkSize fileSize numParts) 0 (sortedCache (some cache))) := by
  have h := (perm_calculateRanges fileSize numParts cache).diff_right cache
  rwa [append_diff_self] at h

theorem targetChunkSize_eq (fileSize numParts : Int) :
    targetChunkSize fileSize numParts = max 1 (Int.fdiv fileSize (max 1 numParts)) := by
  unfold targetChunkSize
  split
  · have hone : max 1 numParts = 1 := max_eq_left (by omega)
    rw [hone]
  · have hparts : max 1 numParts = numParts := max_eq_right (by omega)
    rw [hparts]

/-- **Range planning covers the file**, whatever the cache and the number of parts: the loop over a
gap has ended within its budget, no byte is left out, every cached range is in the plan as often as
in the cache, and what is added is neither empty nor longer than a part. Over disjoint cached ranges
the plan is a partition. -/
theorem calculateRanges_plans (fileSize numParts : Int) (cache : List ChunkRange)
    (hsize : 0 ≤ fileSize) (hin : ∀ c ∈ cache, c.InFile fileSize) :
    (∀ (gapStart gapEnd : Int) (closing : Option Int) (budget : Nat),
      (gapEnd + 1 - gapStart).toNat ≤ budget →
      splitGap (targetChunkSize fileSize numParts) gapEnd closing budget gapStart =
        fillGap (targetChunkSize fileSize numParts) gapStart gapEnd closing) ∧
    (∀ x, 0 ≤ x → x < fileSize → ∃ r ∈ calculateRanges fileSize numParts (some cache),
      r.start ≤ x ∧ x < r.stop fileSize) ∧
    (∀ c ∈ cache, (calculateRanges fileSize numParts (some cache)).count c = cache.count c) ∧
    (∀ r ∈ addedRanges fileSize numParts cache, r.start < r.stop fileSize ∧
      r.stop fileSize - r.start ≤ max 1 (Int.fdiv fileSize (max 1 numParts))) ∧
    (cache.Pairwise ChunkRange.Disjoint →
      Tiles fileSize 0 (calculateRanges fileSize numParts (some cache)) fileSize) := by
  have htarget := targetChunkSize_pos fileSize numParts
  have hsorted := sortedInFile_sortedCache hin
  refine ⟨fun gapStart gapEnd closing budget hbudget => ?_, fun x hx0 hx => ?_, fun c hc => ?_,
    fun r hr => ?_, fun hdis => calculateRanges_tiles hsize numParts hin hdis⟩
  · exact splitGap_fuel htarget budget _ hbudget le_rfl
  · obtain ⟨r, hr, hhas⟩ := calculateRanges_covers numParts (some cache) hx0 hx
    exact ⟨r, hr, (r.has_iff_lt_stop hx).mp hhas⟩
  · have hnot : c ∉ gapsFrom fileSize (targetChunkSize fileSize numParts) 0
        (sortedCache (some cache)) := fun hgap =>
      hsorted.start_ne htarget hgap ((List.mem_insertionSort _).mpr hc) rfl
    rw [(perm_calculateRanges fileSize numParts cache).count_eq, List.count_append,
      List.count_eq_zero_of_not_mem hnot, Nat.add_zero]
  · rw [← targetChunkSize_eq]
    rcases mem_gapsFrom.mp ((perm_addedRanges fileSize numParts cache).subset hr) with
      hr | ⟨_, _, _, -, hr⟩
    · exact ⟨(bounds_of_mem_gapAt htarget hr).2.1, length_le_of_mem_gapAt htarget hr⟩
    · exact ⟨(bounds_of_mem_gapAt htarget hr).2.1, length_le_of_mem_gapAt htarget hr⟩

/-- A nested cached range, no part at all, a piece of one byte: the cursor moves back. -/
theorem calculateRanges_plans_nested :
    let cache := [⟨2, some 3⟩, ⟨0, some 5⟩]
    (∀ (gapStart gapEnd : Int) (closing : Option Int) (budget : Nat),
      (gapEnd + 1 - gapStart).toNat ≤ budget →
      splitGap (targetChunkSize 8 (-1)) gapEnd closing budget gapStart =
        fillGap (targetChunkSize 8 (-1)) gapStart gapEnd closing) ∧
    (∀ x, 0 ≤ x → x < 8 → ∃ r ∈ calculateRanges 8 (-1) (some cache),
      r.start ≤ x ∧ x < r.stop 8) ∧
    (∀ c ∈ cache, (calculateRanges 8 (-1) (some cache)).count c = cache.count c) ∧
    (∀ r ∈ addedRanges 8 (-1) cache, r.start < r.stop 8 ∧
      r.stop 8 - r.start ≤ max 1 (Int.fdiv 8 (max 1 (-1)))) ∧
    (cache.Pairwise ChunkRange.Disjoint →
      Tiles 8 0 (calculateRanges 8 (-1) (some cache)) 8) :=
  calculateRanges_plans 8 (-1) [⟨2, some 3⟩, ⟨0, some 5⟩] (by decide) (by decide)

/-! ### Bytes planned again -/

/-- Wherever a gap opens after a range of the sorted cache, no range before that one ends later. -/
def GapsAfterFurthest (fileSize : Int) (cache : List ChunkRange) : Prop :=
  ∀ before c after, sortedCache (some cache) = before ++ c :: after →
    c.stop fileSize < nextStart fileSize after → ∀ b ∈ before, b.stop fileSize ≤ c.stop fileSize

/-- **Bytes are planned again** exactly where the cursor was moved back: the added ranges never
share a byte with each other, and they share none with a cached range exactly when every gap
follows a range that ends no earlier than the ones before it. -/
theorem calculateRanges_rescheduled_iff (fileSize numParts : Int) (cache : List ChunkRange)
    (hin : ∀ c ∈ cache, c.InFile fileSize) :
    ((addedRanges fileSize numParts cache).Pairwise ChunkRange.Disjoint ∧
      ∀ r ∈ addedRanges fileSize numParts cache, ∀ c ∈ cache, r.Disjoint c) ↔
    GapsAfterFurthest fileSize cache := by
  have htarget := targetChunkSize_pos fileSize numParts
  have hsorted := sortedInFile_sortedCache hin
  have hperm := perm_addedRanges fileSize numParts cache
  have hmem : ∀ {c : ChunkRange}, c ∈ sortedCache (some cache) ↔ c ∈ cache :=
    List.mem_insertionSort _
  constructor
  · intro h before c after hcache hgap b hb
    by_contra hlater
    have hlater := not_le.mp hlater
    have hc := (hsorted.inFile c (SortedInFile.mem hcache)).start_lt_stop
    have hle := hsorted.start_le_of_mem_before hcache hb
    have hb' : b ∈ cache := hmem.mp (by rw [hcache]; exact List.mem_append_left _ hb)
    have hlt : c.stop fileSize < fileSize := hlater.trans_le (hin b hb').stop_le
    -- the first byte after `c` is in `b`, and is planned
    obtain ⟨r, hr, hhas⟩ := (gapAt_tiles fileSize htarget hgap.le).covers le_rfl hgap hlt
    have hadded : r ∈ addedRanges fileSize numParts cache :=
      hperm.symm.subset (mem_gapsFrom.mpr (Or.inr ⟨before, c, after, hcache, hr⟩))
    exact h.2 r hadded b hb' (c.stop fileSize)
      ⟨hhas, (b.has_iff_lt_stop hlt).mpr ⟨(hle.trans_lt hc).le, hlater⟩⟩
  · intro hfurthest
    constructor
    · refine (hperm.pairwise_iff fun h x hx => h x hx.symm).mpr ?_
      exact (pairwise_gapsFrom htarget hsorted).imp_of_mem fun _ hr' hle =>
        ChunkRange.disjoint_of_stop_le (start_lt_of_mem_gapsFrom htarget hsorted hr') hle
    · intro r hr c hc
      have hgaps := hperm.subset hr
      have hlt := start_lt_of_mem_gapsFrom htarget hsorted hgaps
      have apart : c.stop fileSize ≤ r.start → r.Disjoint c := fun hle x hx =>
        ChunkRange.disjoint_of_stop_le hlt hle x hx.symm
      have hcs := hmem.mpr hc
      rcases mem_gapsFrom.mp hgaps with hr | ⟨before, d, after, hcache, hr⟩
      · -- before the cache
        obtain ⟨-, -, h2⟩ := bounds_of_mem_gapAt htarget hr
        refine ChunkRange.disjoint_of_stop_le (hin c hc).start_lt (h2.trans ?_)
        cases hs : sortedCache (some cache) with
        | nil => simp [hs] at hcs
        | cons d rest =>
            rw [hs] at hcs
            rcases List.mem_cons.mp hcs with rfl | hcs
            · exact le_rfl
            · have hpairwise := hsorted.sorted
              rw [hs] at hpairwise
              exact (List.pairwise_cons.mp hpairwise).1 c hcs
      · obtain ⟨h0, h1, h2⟩ := bounds_of_mem_gapAt htarget hr
        have hgap : d.stop fileSize < nextStart fileSize after := h0.trans_lt (h1.trans_le h2)
        rw [hcache, List.mem_append, List.mem_cons] at hcs
        rcases hcs with hcs | rfl | hcs
        · exact apart ((hfurthest before d after hcache hgap c hcs).trans h0)
        · exact apart h0
        · exact ChunkRange.disjoint_of_stop_le (hin c hc).start_lt
            (h2.trans (hsorted.nextStart_le_of_mem_after hcache hcs))

/-- Over disjoint cached ranges the gaps follow the furthest one. -/
theorem calculateRanges_rescheduled_disjoint :
    ((addedRanges 7 2 [⟨6, none⟩, ⟨2, some 2⟩]).Pairwise ChunkRange.Disjoint ∧
      ∀ r ∈ addedRanges 7 2 [⟨6, none⟩, ⟨2, some 2⟩], ∀ c ∈ [⟨6, none⟩, ⟨2, some 2⟩],
        r.Disjoint c) ↔
    GapsAfterFurthest 7 [⟨6, none⟩, ⟨2, some 2⟩] :=
  calculateRanges_rescheduled_iff 7 2 [⟨6, none⟩, ⟨2, some 2⟩] (by decide)

/-- Bytes 4 to 9 are cached, by a range that a shorter one comes after, and planned again. -/
theorem calculateRanges_reschedules_nested :
    (∀ c ∈ [(⟨0, some 9⟩ : ChunkRange), ⟨2, some 3⟩], c.InFile 20) ∧
    ¬ ((addedRanges 20 1 [⟨0, some 9⟩, ⟨2, some 3⟩]).Pairwise ChunkRange.Disjoint ∧
      ∀ r ∈ addedRanges 20 1 [⟨0, some 9⟩, ⟨2, some 3⟩], ∀ c ∈ [⟨0, some 9⟩, ⟨2, some 3⟩],
        r.Disjoint c) := by
  decide

end SDownload
