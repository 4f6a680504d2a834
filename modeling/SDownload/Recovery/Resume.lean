import Mathlib.Data.List.Pairwise
import SDownload.Ranges.PlanMerge
import SDownload.Recovery.RoundTrip
import SDownload.Storage.Assemble

/-!
# SDownload.Recovery.Resume

A download that is interrupted, recovered and finished.

`RecoveryRun` is the whole story: what is on disk when `save_info` runs, what the
downloads that go on add to it until the crash, and the chunks that are downloaded
afterwards. The merge reads every recovered file whole, so the file it makes is the
source exactly when no chunk that was saved unfinished has grown since
(`RecoveryRun.rebuilds_iff`).
-/

namespace SDownload

variable {κ τ : Type}

/-! ### Reconstructing from a tiling -/

/-- The pieces of a tiling, put together. -/
theorem Tiles.flatten_bytesOf {source : Bytes} {plan : List ChunkRange} {pos : Int}
    (hpos : 0 ≤ pos) (h : Tiles source.length pos plan source.length) :
    (plan.map fun r => r.bytesOf source).flatten = source.drop pos.toNat := by
  induction plan generalizing pos with
  | nil =>
      obtain rfl : pos = source.length := h
      simp
  | cons r rest ih =>
      obtain ⟨rfl, hlt, hrest⟩ := h
      rw [List.map_cons, List.flatten_cons, ih (hpos.trans hlt.le) hrest, ChunkRange.bytesOf]
      have hdrop : source.drop (r.stop source.length).toNat =
          (source.drop r.start.toNat).drop (r.stop source.length - r.start).toNat := by
        rw [List.drop_drop]
        congr 1
        omega
      rw [hdrop, List.take_append_drop]

/-- The coverage of a tiling is the tiling, whichever way its chunks are listed. -/
theorem Tiles.coverage {fileSize : Int} {plan chunks : List ChunkRange} (hsize : 0 < fileSize)
    (h : Tiles fileSize 0 plan fileSize) (hchunks : ∀ r, r ∈ chunks ↔ r ∈ plan) :
    calculateOptimalCoverage chunks (some fileSize) = .ok (plan.map fun r => ⟨r, none⟩) := by
  have hpos : ∀ g, some fileSize = some g → 0 < g := fun g hg => Option.some.inj hg ▸ hsize
  have hcover : ∀ x, 0 ≤ x → (∀ g, some fileSize = some g → x < g) → ∃ r ∈ chunks, r.Has x := by
    intro x h0 hx
    obtain ⟨r, hr, hhas⟩ := h.covers h0 (hx fileSize rfl) (hx fileSize rfl)
    exact ⟨r, (hchunks r).mpr hr, hhas⟩
  obtain ⟨fragments, hok⟩ := calculateOptimalCoverage_complete hpos
    (fun r hr => (h.bounds ((hchunks r).mp hr)).1) hcover
  have hsub : ∀ {pos goal : Option Int} {frags : List ChunkFragment},
      FragTiles chunks (some fileSize) pos frags goal →
        FragTiles plan (some fileSize) pos frags goal := by
    intro pos goal frags htiles
    induction frags generalizing pos with
    | nil => exact htiles
    | cons f rest ih =>
        exact ⟨(hchunks _).mp htiles.1, htiles.2.1, htiles.2.2.1, ih htiles.2.2.2⟩
  rw [hok, h.frags_eq (fun r hr => hr) h (hsub (calculateOptimalCoverage_sound hpos hok))]

/-- Of completed chunks that tile the file, every file is read whole, once. -/
theorem mergeConfigs_tiling {fileSize : Int} {plan : List ChunkRange}
    {chunks : List (ChunkDownloadStats κ)} (hsize : 0 < fileSize)
    (h : Tiles fileSize 0 plan fileSize) (hranges : ∀ r, r ∈ chunks.map (·.range) ↔ r ∈ plan)
    (hcompleted : ∀ s ∈ chunks, s.status = .completed) :
    ∃ fileOf : ChunkRange → ChunkDownloadStats κ,
      (∀ r ∈ plan, fileOf r ∈ chunks ∧ (fileOf r).range = r) ∧
        mergeConfigs chunks (some fileSize) =
          .ok (plan.map fun r => ⟨(fileOf r).chunkFileName, some 0, none⟩) := by
  have hfilter : (chunks.filter fun s => s.status = .completed) = chunks :=
    List.filter_eq_self.mpr fun s hs => decide_eq_true (hcompleted s hs)
  have hne : chunks ≠ [] := by
    obtain ⟨r, hr, -⟩ := h.covers le_rfl hsize hsize
    obtain ⟨s, hs, -⟩ := List.mem_map.mp ((hranges r).mpr hr)
    exact List.ne_nil_of_mem hs
  have hfile : ∀ r ∈ plan, ∃ s, (rangeMap chunks).get? r = some s := fun r hr =>
    Dict.mem_keys_iff.mp ((Dict.mem_keys_foldl_set ChunkDownloadStats.range id chunks Dict.empty
      r).mpr (Or.inr ((hranges r).mpr hr)))
  refine ⟨fun r => ((rangeMap chunks).get? r).getD default, fun r hr => ?_, ?_⟩
  · obtain ⟨s, hs⟩ := hfile r hr
    simp only [hs, Option.getD_some]
    exact rangeMap_get? hs
  simp only [mergeConfigs, hfilter, if_neg hne, h.coverage hsize hranges]
  have hmap := Except.mapM_ok_of_forall (f := fragmentConfig (rangeMap chunks))
    (l := plan.map fun r => ⟨r, none⟩)
    (g := fun frag => ⟨(((rangeMap chunks).get? frag.range).getD default).chunkFileName, some 0,
      none⟩) fun frag hfrag => by
      obtain ⟨r, hr, rfl⟩ := List.mem_map.mp hfrag
      obtain ⟨s, hs⟩ := hfile r hr
      simp only [fragmentConfig, hs, Option.getD_some]
  rw [hmap, List.map_map]
  rfl

/-- `reconstruct_file` of such chunks puts their files together. -/
theorem reconstructFile_tiling {ioBufferSize : Nat} (hbuffer : 1 ≤ ioBufferSize) {fileSize : Int}
    {plan : List ChunkRange} {chunks : List (ChunkDownloadStats κ)} {files : Files}
    {dest : String} (hsize : 0 < fileSize) (h : Tiles fileSize 0 plan fileSize)
    (hranges : ∀ r, r ∈ chunks.map (·.range) ↔ r ∈ plan)
    (hcompleted : ∀ s ∈ chunks, s.status = .completed)
    (hread : ∀ s ∈ chunks, ∃ bytes, files.read s.chunkFileName = some bytes)
    (hdest : ∀ s ∈ chunks, s.chunkFileName ≠ dest) :
    ∃ fileOf : ChunkRange → ChunkDownloadStats κ,
      (∀ r ∈ plan, fileOf r ∈ chunks ∧ (fileOf r).range = r) ∧
        ∃ files', reconstructFile ioBufferSize files chunks dest (some fileSize) =
            some (files', .ok dest) ∧
          files'.read dest =
            some (plan.map fun r => (files.read (fileOf r).chunkFileName).getD []).flatten := by
  obtain ⟨fileOf, hfileOf, hconfigs⟩ := mergeConfigs_tiling hsize h hranges hcompleted
  refine ⟨fileOf, hfileOf, ?_⟩
  obtain ⟨files', hmerge, hbytes⟩ := merge_ranges_exact hbuffer files
    (plan.map fun r => ⟨(fileOf r).chunkFileName, some 0, none⟩) dest
    (fun key => (files.read key).getD [])
    (fun c hc => by
      obtain ⟨r, hr, rfl⟩ := List.mem_map.mp hc
      exact hdest _ (hfileOf r hr).1)
    (fun c hc => by
      obtain ⟨r, hr, rfl⟩ := List.mem_map.mp hc
      obtain ⟨bytes, hbytes⟩ := hread _ (hfileOf r hr).1
      simp [hbytes])
    (fun c hc => by
      obtain ⟨r, hr, rfl⟩ := List.mem_map.mp hc
      simp)
  refine ⟨files', ?_, ?_⟩
  · simp only [reconstructFile, hconfigs, hmerge]
  · rw [hbytes, mergedBytes, List.map_map]
    rfl

/-! ### The story -/

/-- An interrupted download: what is on disk when `save_info` is called with these arguments, what
is there after the crash, and what is there when the rest has been downloaded. -/
structure RecoveryRun (κ τ : Type) where
  codec : JsonCodec τ
  source : Bytes
  files : Files
  fileId : String
  statsList : List (ChunkDownloadStats κ)
  minChunkSize : Int
  deleteUselessChunks : Bool
  now : τ
  deletes : String → Bool
  crashed : Files
  numParts : Int
  added : List (ChunkDownloadStats κ)
  finished : Files

namespace RecoveryRun

variable (run : RecoveryRun κ τ)

/-- The disk after `save_info`. -/
def saved : Files :=
  saveInfo run.codec run.files run.fileId run.source.length run.statsList run.minChunkSize
    run.deleteUselessChunks run.now run.deletes

/-- What `save_info` dumps. -/
def state : RecoveryStateDTO τ where
  fileId := run.fileId
  fileSize := run.source.length
  chunks := dtoChunks run.files run.minChunkSize run.statsList
  updatedAt := run.now

/-- What `load_info` recovers after the crash. -/
def recovered : List (ChunkDownloadStats κ) :=
  match loadInfo run.codec run.crashed run.fileId with
  | none => []
  | some info => info.chunksFinished

/-- The ranges that are planned around what was recovered. -/
def plan : List ChunkRange :=
  calculateRanges run.source.length run.numParts (some (run.recovered.map (·.range)))

/-- A chunk when `save_info` is called: its file holds the bytes of the source from its start on. -/
structure PartOf (stats : ChunkDownloadStats κ) : Prop where
  inFile : stats.range.InFile run.source.length
  nonneg : 0 ≤ stats.bytesDownloaded
  fits : stats.range.start + stats.bytesDownloaded ≤ run.source.length
  holds : (run.files.read stats.chunkFileName).getD [] =
    (run.source.drop stats.range.start.toNat).take stats.bytesDownloaded.toNat

/-- The story up to the crash. The JSON that is dumped can be loaded, and unfinished downloads
append further bytes of the source. -/
structure Interrupted : Prop where
  json : run.codec.loads (run.codec.dumps run.state) = some run.state
  source_ne : 0 < run.source.length
  parts : ∀ s ∈ run.statsList, run.PartOf s
  disjoint : (run.statsList.map (·.range)).Pairwise ChunkRange.Disjoint
  names : (run.statsList.map (·.chunkFileName)).Nodup
  key : ∀ s ∈ run.statsList, s.chunkFileName ≠ recoveryKey run.fileId
  fresh : run.fileId = "" → run.files.read (recoveryKey run.fileId) = none
  metadata : run.crashed.read (recoveryKey run.fileId) = run.saved.read (recoveryKey run.fileId)
  rests : ∀ s ∈ run.statsList, s.status = .completed →
    run.crashed.read s.chunkFileName = run.saved.read s.chunkFileName
  grows : ∀ s ∈ run.statsList, s.status ≠ .completed →
    ∀ bytes, run.saved.read s.chunkFileName = some bytes →
      ∃ more, run.crashed.read s.chunkFileName = some (bytes ++ more) ∧
        bytes ++ more <+: run.source.drop s.range.start.toNat

/-- The whole story: after the crash, every range of the plan that was not recovered is
downloaded. -/
structure Ok : Prop extends run.Interrupted where
  planned : ∀ r, r ∈ run.added.map (·.range) ↔
    r ∈ run.plan ∧ r ∉ run.recovered.map (·.range)
  downloaded : ∀ s ∈ run.added, s.status = .completed ∧
    run.finished.read s.chunkFileName = some (s.range.bytesOf run.source)
  kept : ∀ s ∈ run.recovered,
    run.finished.read s.chunkFileName = run.crashed.read s.chunkFileName

/-- No chunk has more bytes than its range. -/
def Within : Prop :=
  ∀ s ∈ run.statsList, s.range.start + s.bytesDownloaded ≤ s.range.stop run.source.length

/-- `reconstruct_file` makes the source of the recovered and the downloaded chunks. -/
def Rebuilds (ioBufferSize : Nat) (dest : String) : Prop :=
  ∃ files', reconstructFile ioBufferSize run.finished (run.recovered ++ run.added) dest
      (some run.source.length) = some (files', .ok dest) ∧
    files'.read dest = some run.source

/-- The chunks that `save_info` keeps. -/
def Keeps (stats : ChunkDownloadStats κ) : Prop :=
  0 < stats.bytesDownloaded ∧
    (stats.status = .completed ∨ run.minChunkSize ≤ stats.bytesDownloaded)

instance (stats : ChunkDownloadStats κ) : Decidable (run.Keeps stats) :=
  inferInstanceAs (Decidable (_ ∧ _))

/-- No chunk that was saved unfinished has grown before the crash. -/
def NoneGrew : Prop :=
  run.fileId ≠ "" → ∀ s ∈ run.statsList, run.Keeps s → s.status ≠ .completed →
    run.crashed.read s.chunkFileName = run.saved.read s.chunkFileName

instance : Decidable run.NoneGrew :=
  inferInstanceAs (Decidable (_ → ∀ s ∈ run.statsList, _ → _ → _))

variable {run}

/-! ### What is saved -/

theorem PartOf.size {s : ChunkDownloadStats κ} (h : run.PartOf s) :
    sizeOnDisk run.files s.chunkFileName = s.bytesDownloaded := by
  have hfits := h.fits
  have hstart := h.inFile.start_nonneg
  have hnonneg := h.nonneg
  rw [sizeOnDisk, h.holds, List.length_take, List.length_drop]
  omega

theorem PartOf.persists_iff {s : ChunkDownloadStats κ} (h : run.PartOf s) :
    Persists run.files run.minChunkSize s ↔ run.Keeps s := by
  rw [Persists, h.size]
  exact ⟨And.right, fun hkeeps => ⟨rfl, hkeeps⟩⟩

theorem Interrupted.dtoChunks_eq (h : run.Interrupted) :
    dtoChunks run.files run.minChunkSize run.statsList =
      (run.statsList.filter fun s => run.Keeps s).map dtoOf := by
  rw [SDownload.dtoChunks_eq]
  congr 1
  refine List.filter_congr fun s hs => ?_
  rw [decide_eq_decide]
  exact (h.parts s hs).persists_iff

/-- A chunk that is kept is not deleted. -/
theorem Interrupted.not_deleted (h : run.Interrupted) {s : ChunkDownloadStats κ}
    (hs : s ∈ run.statsList) (hkeeps : run.Keeps s) :
    s.chunkFileName ∉ chunksToDelete run.files run.minChunkSize run.statsList :=
  not_mem_chunksToDelete h.names hs ((h.parts s hs).persists_iff.mpr hkeeps)

/-- The file of a kept chunk, at the checkpoint. -/
theorem Interrupted.read_saved (h : run.Interrupted) (hid : run.fileId ≠ "")
    {s : ChunkDownloadStats κ}
    (hs : s ∈ run.statsList) (hkeeps : run.Keeps s) :
    run.saved.read s.chunkFileName = some ((recoveredOf s).range.bytesOf run.source) := by
  have hpart := h.parts s hs
  rw [saved, read_saveInfo _ _ hid _ _ _ _ _ _ (h.not_deleted hs hkeeps), if_neg (h.key s hs)]
  have hholds := hpart.holds
  have hsize := hpart.size
  rw [sizeOnDisk] at hsize
  cases hread : run.files.read s.chunkFileName with
  | none =>
      have hpos := hkeeps.1
      simp only [hread, Option.getD_none, List.length_nil, Nat.cast_zero] at hsize
      omega
  | some bytes =>
      rw [hread, Option.getD_some] at hholds
      rw [hholds]
      simp only [ChunkRange.bytesOf, recoveredOf, ChunkRange.stop_some]
      congr 2
      omega

/-! ### What is recovered -/

/-- The file of a kept chunk, after the crash. -/
theorem Interrupted.read_crashed (h : run.Interrupted) (hid : run.fileId ≠ "")
    {s : ChunkDownloadStats κ}
    (hs : s ∈ run.statsList) (hkeeps : run.Keeps s) :
    ∃ more, run.crashed.read s.chunkFileName =
        some ((recoveredOf s).range.bytesOf run.source ++ more) ∧
      (s.status = .completed → more = []) := by
  have hsaved := h.read_saved hid hs hkeeps
  by_cases hstatus : s.status = .completed
  · refine ⟨[], ?_, fun _ => rfl⟩
    rw [h.rests s hs hstatus, hsaved, List.append_nil]
  · obtain ⟨more, hread, -⟩ := h.grows s hs hstatus _ hsaved
    exact ⟨more, hread, fun hc => absurd hc hstatus⟩

theorem PartOf.length_bytesOf {s : ChunkDownloadStats κ} (h : run.PartOf s)
    (hkeeps : run.Keeps s) :
    (recoveredOf s).range.InFile run.source.length ∧
      (((recoveredOf s).range.bytesOf run.source).length : Int) = s.bytesDownloaded := by
  have hfits := h.fits
  have hpos := hkeeps.1
  have hin : (recoveredOf s).range.InFile run.source.length := by
    refine ⟨h.inFile.start_nonneg, h.inFile.start_lt, fun e he => ?_, fun e he => ?_⟩
    · obtain rfl := Option.some.inj he
      simp only [recoveredOf]
      omega
    · obtain rfl := Option.some.inj he
      omega
  refine ⟨hin, ?_⟩
  rw [hin.length_bytesOf]
  simp only [recoveredOf, ChunkRange.stop_some]
  omega

/-- Every kept chunk is recovered, and nothing else. -/
theorem Interrupted.recovered_eq (h : run.Interrupted) (hid : run.fileId ≠ "") :
    run.recovered = (run.statsList.filter fun s => run.Keeps s).map recoveredOf := by
  have hkey : recoveryKey run.fileId ∉
      chunksToDelete run.files run.minChunkSize run.statsList := key_not_mem_chunksToDelete h.key
  have hmetadata := h.metadata
  rw [saved, read_saveInfo _ _ hid _ _ _ _ _ _ hkey, if_pos rfl, h.dtoChunks_eq] at hmetadata
  have hjson := h.json
  rw [state, h.dtoChunks_eq] at hjson
  rw [recovered, loadInfo_of_read hmetadata hjson]
  dsimp only
  rw [List.filterMap_map]
  have hvalid : ∀ s ∈ run.statsList.filter fun s => run.Keeps s,
      (validStats run.crashed (dtoOf s) : Option (ChunkDownloadStats κ)) =
        some (recoveredOf s) := by
    intro s hmem
    obtain ⟨hs, hkeeps⟩ := List.mem_filter.mp hmem
    have hkeeps := of_decide_eq_true hkeeps
    obtain ⟨more, hread, -⟩ := h.read_crashed hid hs hkeeps
    obtain ⟨-, hlen⟩ := (h.parts s hs).length_bytesOf hkeeps
    have hsize : s.bytesDownloaded ≤ sizeOnDisk run.crashed s.chunkFileName := by
      rw [sizeOnDisk, hread, Option.getD_some, List.length_append, Nat.cast_add, hlen]
      omega
    rw [validStats, if_pos (show (dtoOf s).bytes ≤ sizeOnDisk run.crashed (dtoOf s).chunkFileName
      from hsize)]
    rfl
  rw [← List.filterMap_eq_map]
  exact List.filterMap_congr hvalid

theorem Interrupted.recovered_nil (h : run.Interrupted) (hid : run.fileId = "") :
    run.recovered = [] := by
  have hsaved : run.saved = run.files := by simp only [saved, saveInfo, if_pos hid]
  have hmetadata := h.metadata
  rw [hsaved, h.fresh hid] at hmetadata
  rw [recovered, loadInfo_of_missing hmetadata]

theorem Interrupted.mem_recovered (h : run.Interrupted) {r : ChunkDownloadStats κ}
    (hr : r ∈ run.recovered) :
    run.fileId ≠ "" ∧ ∃ s ∈ run.statsList, run.Keeps s ∧ r = recoveredOf s := by
  by_cases hid : run.fileId = ""
  · rw [h.recovered_nil hid] at hr
    cases hr
  · rw [h.recovered_eq hid] at hr
    obtain ⟨s, hmem, rfl⟩ := List.mem_map.mp hr
    obtain ⟨hs, hkeeps⟩ := List.mem_filter.mp hmem
    exact ⟨hid, s, hs, of_decide_eq_true hkeeps, rfl⟩

theorem Interrupted.inFile_recovered (h : run.Interrupted) {r : ChunkRange}
    (hr : r ∈ run.recovered.map (·.range)) : r.InFile run.source.length := by
  obtain ⟨stats, hstats, rfl⟩ := List.mem_map.mp hr
  obtain ⟨-, s, hs, hkeeps, rfl⟩ := h.mem_recovered hstats
  exact ((h.parts s hs).length_bytesOf hkeeps).1

/-- The recovered bytes of a chunk that has no more than its range are among those of its range. -/
theorem Within.has_of_recovered (h : run.Within) {s : ChunkDownloadStats κ}
    (hs : s ∈ run.statsList) {x : Int} (hx : (recoveredOf s).range.Has x) : s.range.Has x := by
  obtain ⟨hle, hlast⟩ := hx
  have hend := hlast _ rfl
  have hwithin := h s hs
  refine ⟨hle, fun e he => ?_⟩
  rw [ChunkRange.stop, he] at hwithin
  simp only at hwithin
  omega

/-- Two chunks that start at the same byte are the same chunk. -/
theorem Interrupted.eq_of_start (h : run.Interrupted) {s s' : ChunkDownloadStats κ}
    (hs : s ∈ run.statsList)
    (hs' : s' ∈ run.statsList) (hstart : s'.range.start = s.range.start) : s' = s := by
  by_contra hne
  have hsymm : Std.Symm fun a b : ChunkDownloadStats κ => a.range.Disjoint b.range :=
    ⟨fun _ _ hab x hx => hab x hx.symm⟩
  have hdisjoint := (List.pairwise_map.mp h.disjoint).forall hs' hs hne
  refine hdisjoint s.range.start ⟨?_, (h.parts s hs).inFile.has_start⟩
  rw [← hstart]
  exact (h.parts s' hs').inFile.has_start

/-- What was recovered, when no chunk has more than its range, is planned around. -/
theorem Interrupted.tiles (h : run.Interrupted) (hwithin : run.Within) :
    Tiles run.source.length 0 run.plan run.source.length := by
  refine calculateRanges_tiles (Int.natCast_nonneg _) _ (fun r hr => h.inFile_recovered hr) ?_
  · by_cases hid : run.fileId = ""
    · rw [h.recovered_nil hid]
      exact .nil
    · rw [h.recovered_eq hid, List.map_map, List.pairwise_map]
      have hdisjoint := (List.pairwise_map.mp h.disjoint).filter fun s => decide (run.Keeps s)
      refine hdisjoint.imp_of_mem fun {s s'} hs hs' hab x hx => ?_
      exact hab x ⟨hwithin.has_of_recovered (List.mem_filter.mp hs).1 hx.1,
        hwithin.has_of_recovered (List.mem_filter.mp hs').1 hx.2⟩

/-- What the merge reads of a recovered chunk: its part of the source, and what it has grown by. -/
theorem Ok.read_recovered (h : run.Ok) {s : ChunkDownloadStats κ} (hid : run.fileId ≠ "")
    (hs : s ∈ run.statsList) (hkeeps : run.Keeps s) :
    ∃ more, run.finished.read s.chunkFileName =
        some ((recoveredOf s).range.bytesOf run.source ++ more) ∧
      (more = [] ↔ (s.status ≠ .completed →
        run.crashed.read s.chunkFileName = run.saved.read s.chunkFileName)) := by
  obtain ⟨more, hread, hcompleted⟩ := h.read_crashed hid hs hkeeps
  have hmem : recoveredOf s ∈ run.recovered := by
    rw [h.recovered_eq hid]
    exact List.mem_map_of_mem (List.mem_filter.mpr ⟨hs, decide_eq_true hkeeps⟩)
  refine ⟨more, (h.kept _ hmem).trans hread, ?_, fun hsame => ?_⟩
  · intro hmore _
    rw [hread, hmore, List.append_nil, h.read_saved hid hs hkeeps]
  · by_cases hstatus : s.status = .completed
    · exact hcompleted hstatus
    · have heq := hsame hstatus
      rw [hread, h.read_saved hid hs hkeeps, Option.some.injEq] at heq
      exact List.append_right_eq_self.mp heq

end RecoveryRun

/-- Longer pieces that join to the same whole are not longer. -/
theorem eq_of_flatten_eq {α β : Type} {f g : α → List β} {l : List α}
    (hfront : ∀ a ∈ l, f a <+: g a) (hflat : (l.map g).flatten = (l.map f).flatten) :
    ∀ a ∈ l, g a = f a := by
  have hle : ∀ l : List α, (∀ a ∈ l, f a <+: g a) →
      (l.map f).flatten.length ≤ (l.map g).flatten.length := by
    intro l hl
    induction l with
    | nil => exact le_rfl
    | cons a rest ih =>
        have hrest := ih fun b hb => hl b (List.mem_cons_of_mem _ hb)
        have ha := (hl a List.mem_cons_self).length_le
        simp only [List.map_cons, List.flatten_cons, List.length_append]
        omega
  induction l with
  | nil => simp
  | cons a rest ih =>
      obtain ⟨more, hmore⟩ := hfront a List.mem_cons_self
      have hrest : ∀ b ∈ rest, f b <+: g b := fun b hb => hfront b (List.mem_cons_of_mem _ hb)
      rw [List.map_cons, List.flatten_cons, List.map_cons, List.flatten_cons, ← hmore,
        List.append_assoc] at hflat
      have htail := List.append_cancel_left hflat
      have hlen := congrArg List.length htail
      have hshort := hle rest hrest
      rw [List.length_append] at hlen
      have hnil : more = [] := List.eq_nil_of_length_eq_zero (by omega)
      rw [hnil, List.append_nil] at hmore
      rw [hnil, List.nil_append] at htail
      exact List.forall_mem_cons.mpr ⟨hmore.symm, ih hrest htail⟩

namespace RecoveryRun

variable {run : RecoveryRun κ τ}

theorem Ok.mem_ranges (h : run.Ok) (r : ChunkRange) :
    r ∈ (run.recovered ++ run.added).map (·.range) ↔ r ∈ run.plan := by
  rw [List.map_append, List.mem_append, h.planned]
  constructor
  · intro hr
    rcases hr with hr | hr
    · exact mem_calculateRanges_of_mem _ hr
    · exact hr.1
  · intro hr
    by_cases hrec : r ∈ run.recovered.map (·.range)
    · exact Or.inl hrec
    · exact Or.inr ⟨hr, hrec⟩

theorem Ok.completed (h : run.Ok) {s : ChunkDownloadStats κ}
    (hs : s ∈ run.recovered ++ run.added) : s.status = .completed := by
  rcases List.mem_append.mp hs with hs | hs
  · obtain ⟨-, s', -, -, rfl⟩ := h.mem_recovered hs
    rfl
  · exact (h.downloaded s hs).1

/-- What the merge reads of any chunk: its part of the source and more, and no more when nothing
has grown. -/
theorem Ok.read_finished (h : run.Ok) {s : ChunkDownloadStats κ}
    (hs : s ∈ run.recovered ++ run.added) :
    ∃ more, run.finished.read s.chunkFileName = some (s.range.bytesOf run.source ++ more) ∧
      (run.NoneGrew → more = []) := by
  rcases List.mem_append.mp hs with hs | hs
  · obtain ⟨hid, s', hs', hkeeps, rfl⟩ := h.mem_recovered hs
    obtain ⟨more, hmore, hiff⟩ := h.read_recovered hid hs' hkeeps
    exact ⟨more, hmore, fun hnone => hiff.mpr (hnone hid s' hs' hkeeps)⟩
  · refine ⟨[], ?_, fun _ => rfl⟩
    rw [List.append_nil]
    exact (h.downloaded s hs).2

/-- When nothing that was saved unfinished has grown, recovery is exact. -/
theorem Ok.rebuilds {ioBufferSize : Nat} (hbuffer : 1 ≤ ioBufferSize) (h : run.Ok) {dest : String}
    (hdest : ∀ s ∈ run.recovered ++ run.added, s.chunkFileName ≠ dest) (hnone : run.NoneGrew) :
    run.Rebuilds ioBufferSize dest := by
  have hin : ∀ s ∈ run.recovered ++ run.added, s.range.InFile run.source.length := fun s hs =>
    inFile_of_mem_calculateRanges _ (fun _ hr => h.inFile_recovered hr)
      ((h.mem_ranges _).mp (List.mem_map_of_mem hs))
  have hread : ∀ s ∈ run.recovered ++ run.added,
      run.finished.read s.chunkFileName = some (s.range.bytesOf run.source) := by
    intro s hs
    obtain ⟨more, hmore, hnil⟩ := h.read_finished hs
    rw [hmore, hnil hnone, List.append_nil]
  obtain ⟨configs, hconfigs, hvalid⟩ := mergeConfigs_ok (Int.natCast_pos.mpr h.source_ne)
    (fun s hs => h.completed hs) (fun s hs => (hin s hs).start_nonneg) fun x h0 hx => by
      obtain ⟨r, hr, hhas⟩ := calculateRanges_covers run.numParts
        (some (run.recovered.map (·.range))) h0 hx
      obtain ⟨s, hs, rfl⟩ := List.mem_map.mp ((h.mem_ranges r).mpr hr)
      exact ⟨s, hs, hhas⟩
  obtain ⟨hkeys, hbytes⟩ := mergeConfigs_bytes
    (fun key => (run.finished.read key).getD []) h.source_ne
    (fun s hs _ => ⟨hin s hs, by rw [hread s hs, Option.getD_some]⟩) hconfigs
  obtain ⟨files', hmerge, hmerged⟩ := merge_ranges_exact hbuffer run.finished configs dest
    (fun key => (run.finished.read key).getD [])
    (fun c hc => by
      obtain ⟨s, hs, -, hname⟩ := hkeys c hc
      exact hname ▸ hdest s hs)
    (fun c hc => by
      obtain ⟨s, hs, -, hname⟩ := hkeys c hc
      rw [hname, hread s hs, Option.getD_some]) hvalid
  refine ⟨files', ?_, by rw [hmerged, hbytes]⟩
  simp only [reconstructFile, hconfigs, hmerge]

/-- When no chunk has more bytes than its range, every recovered file is read whole, once, and
anything a file has grown by is in the result. -/
theorem Ok.noneGrew {ioBufferSize : Nat} (hbuffer : 1 ≤ ioBufferSize) (h : run.Ok)
    (hwithin : run.Within) {dest : String}
    (hdest : ∀ s ∈ run.recovered ++ run.added, s.chunkFileName ≠ dest)
    (hrebuilds : run.Rebuilds ioBufferSize dest) : run.NoneGrew := by
  obtain ⟨fileOf, hfileOf, files', hrebuilt, hbytes⟩ := reconstructFile_tiling hbuffer
    (Int.natCast_pos.mpr h.source_ne) (h.tiles hwithin) h.mem_ranges (fun s hs => h.completed hs)
    (fun s hs => (h.read_finished hs).imp' _ fun _ hmore => hmore.1) hdest
  have hsource := (h.tiles hwithin).flatten_bytesOf le_rfl
  rw [Int.toNat_zero, List.drop_zero] at hsource
  obtain ⟨files'', hrebuilt', hexact⟩ := hrebuilds
  obtain ⟨rfl, -⟩ := Prod.mk.inj (Option.some.inj (hrebuilt.symm.trans hrebuilt'))
  have hflat := (Option.some.inj (hbytes.symm.trans hexact)).trans hsource.symm
  have hwhole := eq_of_flatten_eq (fun r hr => by
    obtain ⟨hmem, hrange⟩ := hfileOf r hr
    obtain ⟨more, hmore, -⟩ := h.read_finished hmem
    rw [hmore, hrange, Option.getD_some]
    exact List.prefix_append _ _) hflat
  intro hid s hs hkeeps hstatus
  obtain ⟨more, hmore, hiff⟩ := h.read_recovered hid hs hkeeps
  have hrec : recoveredOf s ∈ run.recovered := by
    rw [h.recovered_eq hid]
    exact List.mem_map_of_mem (List.mem_filter.mpr ⟨hs, decide_eq_true hkeeps⟩)
  have hplan : (recoveredOf s).range ∈ run.plan :=
    mem_calculateRanges_of_mem _ (List.mem_map_of_mem hrec)
  -- what the merge reads under the range of a kept chunk is that chunk
  obtain ⟨hmem, hrange⟩ := hfileOf _ hplan
  have hself : fileOf (recoveredOf s).range = recoveredOf s := by
    rcases List.mem_append.mp hmem with hmem | hmem
    · obtain ⟨-, s', hs', -, heq⟩ := h.mem_recovered hmem
      rw [heq] at hrange
      have hstart := congrArg ChunkRange.start hrange
      rw [heq, h.eq_of_start hs hs' hstart]
    · have hadded := (h.planned _).mp (List.mem_map_of_mem hmem)
      rw [hrange] at hadded
      exact absurd (List.mem_map_of_mem hrec) hadded.2
  have heq := hwhole _ hplan
  rw [hself] at heq
  have hfile : run.finished.read (recoveredOf s).chunkFileName =
      some ((recoveredOf s).range.bytesOf run.source ++ more) := hmore
  rw [hfile, Option.getD_some] at heq
  exact hiff.mp (List.append_right_eq_self.mp heq) hstatus

/-- **Recovery is exact when nothing that was saved unfinished has grown**, and only then, unless a
chunk has more bytes than its range and hides that. -/
theorem recovery_exact_iff {ioBufferSize : Nat} (hbuffer : 1 ≤ ioBufferSize) (h : run.Ok)
    {dest : String} (hdest : ∀ s ∈ run.recovered ++ run.added, s.chunkFileName ≠ dest) :
    (run.NoneGrew → run.Rebuilds ioBufferSize dest) ∧
      (run.Within → (run.Rebuilds ioBufferSize dest ↔ run.NoneGrew)) :=
  ⟨h.rebuilds hbuffer hdest, fun hwithin =>
    ⟨h.noneGrew hbuffer hwithin hdest, h.rebuilds hbuffer hdest⟩⟩

/-! ### Two bytes -/

/-- A download of two bytes has one when it is saved, and may get the other before the crash. The
second byte is downloaded afterwards, to another file. -/
def exampleRun (grown : Bool) : RecoveryRun Unit String :=
  let statsList : List (ChunkDownloadStats Unit) :=
    [{ chunkFileName := "a", range := ⟨0, some 1⟩, fileSize := some 2, bytesDownloaded := 1,
       status := .downloading }]
  let files := saveBinaryData FileSystem.empty "a" [1]
  let saved := saveInfo exampleCodec files "x" 2 statsList 1 true "2025-01-01T00:00:00+00:00"
    fun _ => true
  let crashed := bif grown then saveBinaryData saved "a" [1, 2] else saved
  { codec := exampleCodec
    source := [1, 2]
    files
    fileId := "x"
    statsList
    minChunkSize := 1
    deleteUselessChunks := true
    now := "2025-01-01T00:00:00+00:00"
    deletes := fun _ => true
    crashed
    numParts := 1
    added := [{ chunkFileName := "b", range := ⟨1, none⟩, fileSize := some 1, bytesDownloaded := 1,
                status := .completed }]
    finished := saveBinaryData crashed "b" [2] }

theorem exampleRun_saved (grown : Bool) : (exampleRun grown).saved.read "a" = some [1] := by
  have hkept : "a" ∉ chunksToDelete (exampleRun grown).files 1 (exampleRun grown).statsList := by
    cases grown <;> decide
  have hread := read_saveInfo exampleCodec (exampleRun grown).files (by decide : "x" ≠ "") 2
    (exampleRun grown).statsList 1 true "2025-01-01T00:00:00+00:00" (fun _ => true) hkept
  rw [if_neg (by decide)] at hread
  exact hread.trans (by cases grown <;> decide)

theorem exampleRun_crashed (grown : Bool) :
    (exampleRun grown).crashed.read "a" = some (if grown then [1, 2] else [1]) := by
  cases grown with
  | false => exact exampleRun_saved false
  | true => exact read_saveBinaryData_self (exampleRun true).saved "a" [1, 2]

theorem exampleRun_interrupted (grown : Bool) : (exampleRun grown).Interrupted where
  json := by
    have hstate : (exampleRun grown).state = exampleState := by cases grown <;> decide
    rw [hstate]
    exact loads_dumps_exampleState
  source_ne := Nat.zero_lt_two
  parts := by
    intro s hs
    obtain rfl := List.mem_singleton.mp hs
    cases grown <;> exact ⟨by decide, by decide, by decide, by decide⟩
  disjoint := List.pairwise_singleton _ _
  names := List.nodup_singleton _
  key := by
    intro s hs
    obtain rfl := List.mem_singleton.mp hs
    exact (by decide : "a" ≠ recoveryKey "x")
  fresh := fun hid => absurd hid (by decide : "x" ≠ "")
  metadata := by
    cases grown with
    | false => rfl
    | true =>
        exact read_saveBinaryData_of_ne (exampleRun true).saved [1, 2]
          (by decide : recoveryKey "x" ≠ "a")
  rests := by
    intro s hs hstatus
    obtain rfl := List.mem_singleton.mp hs
    cases hstatus
  grows := by
    intro s hs _ bytes hbytes
    obtain rfl := List.mem_singleton.mp hs
    obtain rfl := Option.some.inj (hbytes.symm.trans (exampleRun_saved grown))
    refine ⟨if grown then [2] else [], (exampleRun_crashed grown).trans ?_, ?_⟩ <;>
      cases grown <;> decide

theorem exampleRun_recovered (grown : Bool) : (exampleRun grown).recovered =
    [{ chunkFileName := "a", range := ⟨0, some 0⟩, fileSize := some 1, bytesDownloaded := 1,
       status := .completed }] :=
  ((exampleRun_interrupted grown).recovered_eq (by decide : "x" ≠ "")).trans
    (by cases grown <;> decide)

theorem exampleRun_ok (grown : Bool) : (exampleRun grown).Ok where
  toInterrupted := exampleRun_interrupted grown
  planned := by
    intro r
    have hplan : (exampleRun grown).plan = [⟨0, some 0⟩, ⟨1, none⟩] := by
      rw [plan, exampleRun_recovered]
      exact (by decide : calculateRanges 2 1 (some [⟨0, some 0⟩]) = [⟨0, some 0⟩, ⟨1, none⟩])
    have hadded : (exampleRun grown).added.map (·.range) = [⟨1, none⟩] := rfl
    rw [hplan, exampleRun_recovered, hadded]
    simp only [List.map_cons, List.map_nil, List.mem_cons, List.not_mem_nil, or_false]
    constructor
    · intro hr
      subst hr
      decide
    · intro ⟨hr, hne⟩
      exact hr.resolve_left hne
  downloaded := by
    intro s hs
    obtain rfl := List.mem_singleton.mp hs
    exact ⟨rfl, read_saveBinaryData_self (exampleRun grown).crashed "b" [2]⟩
  kept := by
    intro s hs
    rw [exampleRun_recovered] at hs
    obtain rfl := List.mem_singleton.mp hs
    exact read_saveBinaryData_of_ne (exampleRun grown).crashed [2] (by decide : "a" ≠ "b")

theorem exampleRun_dest (grown : Bool) :
    ∀ s ∈ (exampleRun grown).recovered ++ (exampleRun grown).added, s.chunkFileName ≠ "f" := by
  rw [exampleRun_recovered]
  cases grown <;> decide

theorem recovery_exact_iff_two : (exampleRun false).Rebuilds 4 "f" :=
  (recovery_exact_iff (by decide) (exampleRun_ok false) (exampleRun_dest false)).1
    fun _ _ _ _ _ => rfl

/-- The byte that came after the checkpoint is in the result twice. -/
theorem grown_chunk_duplicated :
    ¬ ∀ run : RecoveryRun Unit String, run.Ok → run.Within → 0 ≤ run.minChunkSize →
      1 ≤ run.numParts → ∀ dest, (∀ s ∈ run.recovered ++ run.added, s.chunkFileName ≠ dest) →
        run.Rebuilds 4 dest := by
  intro h
  have hwithin : (exampleRun true).Within := by
    intro s hs
    obtain rfl := List.mem_singleton.mp hs
    decide
  have hrebuilds := h (exampleRun true) (exampleRun_ok true) hwithin (by decide) (by decide) "f"
    (exampleRun_dest true)
  have hnone := (exampleRun_ok true).noneGrew (by decide) hwithin (exampleRun_dest true) hrebuilds
  have hsame := hnone (by decide : "x" ≠ "") _ (List.mem_singleton_self _) (by decide) (by decide)
  have hread := (exampleRun_crashed true).symm.trans (hsame.trans (exampleRun_saved true))
  exact absurd hread (by decide)

end RecoveryRun

end SDownload
