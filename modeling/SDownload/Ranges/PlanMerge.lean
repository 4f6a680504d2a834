import SDownload.Ranges.Coverage
import SDownload.Ranges.Planner

/-!
# SDownload.Ranges.PlanMerge

The planner and the merger agree: a plan, downloaded, is merged from exactly its
own ranges, each read whole.

Neither loop is run here. The plan tiles the file (`calculateRanges_tiles`), the
coverage exists and tiles it too (`Ranges.Coverage`), and a tiling of the file by
parts of the pieces of a tiling is that tiling (`Tiles.frags_eq`).
-/

namespace SDownload

/-- In a tiling, a range whose start lies in another is that other one. -/
theorem Tiles.eq_of_start_mem {fileSize : Int} {xs : List ChunkRange} {a b : Int}
    (h : Tiles fileSize a xs b) {r r' : ChunkRange} (hr : r ∈ xs) (hr' : r' ∈ xs)
    (hle : r.start ≤ r'.start) (hlt : r'.start < r.stop fileSize) : r' = r := by
  induction xs generalizing a with
  | nil => cases hr
  | cons c rest ih =>
      obtain ⟨hstart, hstop, hrest⟩ := h
      rcases List.mem_cons.mp hr with rfl | hin
      · rcases List.mem_cons.mp hr' with rfl | hin'
        · rfl
        · have := (hrest.bounds hin').1
          omega
      · rcases List.mem_cons.mp hr' with rfl | hin'
        · have := hrest.bounds hin
          omega
        · exact ih hrest hin hin'

/-- A tiling of the file by parts of the pieces of a tiling of the file is that tiling. -/
theorem Tiles.frags_eq {fileSize : Int} {plan : List ChunkRange}
    (hplan : Tiles fileSize 0 plan fileSize) :
    ∀ {rest : List ChunkRange} {pos : Int} {fragments : List ChunkFragment},
      (∀ r ∈ rest, r ∈ plan) → Tiles fileSize pos rest fileSize →
      FragTiles plan (some fileSize) (some pos) fragments (some fileSize) →
      fragments = rest.map fun r => ⟨r, none⟩ := by
  intro rest
  induction rest with
  | nil =>
      intro pos fragments _ hpos hfrags
      obtain rfl : pos = fileSize := hpos
      cases fragments with
      | nil => rfl
      | cons f fs =>
          obtain ⟨hmem, hstart, -, -⟩ := hfrags
          obtain ⟨-, h1, h2⟩ := hplan.bounds hmem
          have : f.range.start = pos := Option.some.inj hstart
          omega
  | cons r rest ih =>
      intro pos fragments hsub htiles hfrags
      obtain ⟨hstart, hstop, hrest⟩ := htiles
      have hr : r ∈ plan := hsub r List.mem_cons_self
      have hgoal : r.stop fileSize ≤ fileSize := (hplan.bounds hr).2.2
      cases fragments with
      | nil =>
          have : pos = fileSize := Option.some.inj hfrags
          omega
      | cons f fs =>
          obtain ⟨hmem, hfstart, hlimit, hfs⟩ := hfrags
          obtain ⟨fr, limit⟩ := f
          have hat : fr.start = pos := Option.some.inj hfstart
          obtain rfl : fr = r := hplan.eq_of_start_mem hr hmem (by omega) (by omega)
          cases limit with
          | none =>
              have hnext : ChunkFragment.next (some fileSize) ⟨fr, none⟩ =
                  some (fr.stop fileSize) := by
                obtain ⟨s, e⟩ := fr
                cases e <;> rfl
              rw [hnext] at hfs
              rw [ih (fun r' h => hsub r' (List.mem_cons_of_mem _ h)) hrest hfs, List.map_cons]
          | some k =>
              -- a limited fragment ends inside `r`, where nothing starts
              obtain ⟨hk, e, he, hke⟩ := hlimit k rfl
              have he' : fr.stop fileSize = e + 1 := by rw [ChunkRange.stop, he]
              simp only at he hke
              have hnext : ChunkFragment.next (some fileSize) ⟨fr, some k⟩ =
                  some (fr.start + k) := rfl
              rw [hnext] at hfs
              cases fs with
              | nil =>
                  have : fr.start + k = fileSize := Option.some.inj hfs
                  omega
              | cons g gs =>
                  obtain ⟨hgmem, hgstart, -, -⟩ := hfs
                  have hg : g.range.start = fr.start + k := Option.some.inj hgstart
                  have heq := hplan.eq_of_start_mem hr hgmem (by omega) (by omega)
                  rw [heq] at hg
                  omega

/-- **Planner and merger agree.** Over any cache of disjoint ranges of the file, the coverage of
a plan is the plan: every range once, in order, read whole. -/
theorem coverage_of_plan (fileSize numParts : Int) (cache : List ChunkRange)
    (hsize : 1 ≤ fileSize) (hin : ∀ r ∈ cache, r.InFile fileSize)
    (hdis : cache.Pairwise ChunkRange.Disjoint) :
    calculateOptimalCoverage (calculateRanges fileSize numParts (some cache)) (some fileSize) =
      .ok ((calculateRanges fileSize numParts (some cache)).map fun r => ⟨r, none⟩) := by
  have hplan := calculateRanges_tiles (by omega) numParts hin hdis
  have hpos : ∀ g, some fileSize = some g → 0 < g := by
    intro g hg
    obtain rfl := Option.some.inj hg
    omega
  have hcover : ∀ x, 0 ≤ x → (∀ g, some fileSize = some g → x < g) →
      ∃ r ∈ calculateRanges fileSize numParts (some cache), r.Has x := fun x h0 hx =>
    calculateRanges_covers numParts (some cache) h0 (hx fileSize rfl)
  obtain ⟨fragments, hok⟩ := calculateOptimalCoverage_complete hpos
    (fun r hr => (hplan.bounds hr).1) hcover
  rw [hok, hplan.frags_eq (fun r hr => hr) hplan (calculateOptimalCoverage_sound hpos hok)]

/-- A file of seven bytes, two parts, a cached byte in the middle and a cached tail. -/
theorem coverage_of_plan_seven :
    calculateOptimalCoverage (calculateRanges 7 2 (some [⟨6, none⟩, ⟨2, some 2⟩])) (some 7) =
      .ok ((calculateRanges 7 2 (some [⟨6, none⟩, ⟨2, some 2⟩])).map fun r => ⟨r, none⟩) :=
  coverage_of_plan 7 2 [⟨6, none⟩, ⟨2, some 2⟩] (by decide)
    (fun r hr => by
      simp only [List.mem_cons, List.not_mem_nil, or_false] at hr
      rcases hr with rfl | rfl <;> constructor <;> simp)
    (by
      simp only [List.pairwise_cons, List.mem_singleton, forall_eq, List.not_mem_nil,
        false_implies, implies_true, List.Pairwise.nil, and_true]
      rintro x ⟨⟨h1, -⟩, -, h2⟩
      have := h2 2 rfl
      simp only at h1
      omega)

end SDownload
