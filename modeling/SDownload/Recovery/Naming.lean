import SDownload.Manager.Inversion
import SDownload.Recovery.RoundTrip

/-!
# SDownload.Recovery.Naming

Which chunk claims which file.

A record is named after its range when it is registered, so the names of a fresh
manager are as distinct as its keys. `save_info` shortens the range of a chunk that
was not finished and keeps its name, and a manager built from what `load_info`
returns has the chunk under a range that its file is not named after. The original
range is then free as a key and taken as a name: `NameFree` says of a range that it
is not, and `one_file_iff` that registering other ranges is all that goes wrong,
through any number of lifetimes.
-/

namespace SDownload

variable {τ : Type}

namespace World

/-- Different keys of `_chunks_stats` have different files. -/
def OneFile (w : World) : Prop :=
  ∀ r r' s s', w.chunksStats.get? r = some s → w.chunksStats.get? r' = some s' →
    (w.record s).chunkFileName = (w.record s').chunkFileName → r = r'

/-- The name of the file of `r` is not claimed under another key. -/
def NameFree (params : ChunkManagerParams) (w : World) (r : ChunkRange) : Prop :=
  ∀ r' s, w.chunksStats.get? r' = some s →
    (w.record s).chunkFileName = formatChunkFileName r params.fileName → r' = r

instance (params : ChunkManagerParams) (w : World) (r : ChunkRange) :
    Decidable (w.NameFree params r) :=
  decidable_of_iff (∀ entry ∈ w.chunksStats.entries,
      (w.record entry.2).chunkFileName = formatChunkFileName r params.fileName → entry.1 = r)
    ⟨fun h r' s hs => h (r', s) (Dict.get?_eq_some_iff.mp hs),
      fun h entry hentry => h entry.1 entry.2 (Dict.get?_eq_some_iff.mpr hentry)⟩

end World

/-- A range that is registered has a name that no other key claims. -/
def KeepsNames (params : ChunkManagerParams) (w : World) (e : Event) : Prop :=
  ∀ registered ∈ e.registering w, w.NameFree params registered.1

instance (params : ChunkManagerParams) (w : World) (e : Event) :
    Decidable (KeepsNames params w e) := by
  unfold KeepsNames
  cases e.registering w with
  | none => exact isTrue (by simp)
  | some registered => exact decidable_of_iff (w.NameFree params registered.1) (by simp)

/-- The files as `save_info` finds them: the file of a record is on the disk as it was written, or
shorter than its counter, where a part of it is in a buffer still. -/
def World.Flushed (w : World) (saved : Files) : Prop :=
  ∀ stats ∈ w.chunksStats.values.map w.record,
    saved.read stats.chunkFileName = w.files.read stats.chunkFileName ∨
      sizeOnDisk saved stats.chunkFileName < stats.bytesDownloaded

/-- The `recovered_stats` that a manager of the file can be built with: none, or what `load_info`
returns when `save_info` was given the records of an earlier manager of the file. -/
inductive RecoveredStats (codec : JsonCodec τ) (fileName : String)
    (allowed : ChunkManagerParams → World → Event → Prop) : List Stats → Prop
  /-- A new download. -/
  | fresh : RecoveredStats codec fileName allowed []
  /-- The metadata is that of the save; the chunk files may be any by now. -/
  | loaded {params : ChunkManagerParams} {earlier : List Stats} {w : World}
      {files saved disk : Files} {fileId : String} {totalFileSize minChunkSize : Int}
      {deleteUselessChunks : Bool} {now : τ} {deletes : String → Bool}
      {info : DownloadInfo StopCallback τ}
      (before : RecoveredStats codec fileName allowed earlier)
      (sameFile : params.fileName = fileName)
      (run : Reaches (step params) (allowed params) (World.init files earlier) w)
      (flushed : w.Flushed saved) (hasId : fileId ≠ "")
      (metadata : disk.read (recoveryKey fileId) =
        (saveInfo codec saved fileId totalFileSize (w.chunksStats.values.map w.record)
          minChunkSize deleteUselessChunks now deletes).read (recoveryKey fileId))
      (json : codec.loads (codec.dumps ⟨fileId, totalFileSize,
          dtoChunks saved minChunkSize (w.chunksStats.values.map w.record), now⟩) =
        some ⟨fileId, totalFileSize,
          dtoChunks saved minChunkSize (w.chunksStats.values.map w.record), now⟩)
      (load : loadInfo codec disk fileId = some info) :
      RecoveredStats codec fileName allowed info.chunksFinished

/-! ### Through one lifetime -/

namespace World

variable {params : ChunkManagerParams} {recoveredStats : List Stats}

/-- The record is named after its range, or was recovered and is named after one with the same
start. -/
def NamedAfter (params : ChunkManagerParams) (recoveredStats : List Stats) (w : World)
    (s : StatsId) : Prop :=
  (w.record s).chunkFileName = formatChunkFileName (w.record s).range params.fileName ∨
    s < recoveredStats.length ∧ ∃ endByte, (w.record s).chunkFileName =
      formatChunkFileName ⟨(w.record s).range.start, endByte⟩ params.fileName

/-- The invariant of a run: keys and records agree, and so do names and keys. -/
structure Named (params : ChunkManagerParams) (recoveredStats : List Stats) (w : World) : Prop where
  oneFile : w.OneFile
  stats : ∀ r s, w.chunksStats.get? r = some s → s < w.stats.length ∧ (w.record s).range = r
  named : ∀ r s, w.chunksStats.get? r = some s → NamedAfter params recoveredStats w s

theorem NamedAfter.sameRecord {w w' : World} {s : StatsId}
    (h : w.NamedAfter params recoveredStats s) (hsame : SameRecord (w.record s) (w'.record s)) :
    w'.NamedAfter params recoveredStats s := by
  unfold NamedAfter
  rw [hsame.chunkFileName, hsame.range]
  exact h

theorem Named.forgets {w w' : World} (h : w.Named params recoveredStats) (hf : w.Forgets w') :
    w'.Named params recoveredStats where
  oneFile := by
    intro r r' s s' hs hs' hname
    rw [(hf.record s).chunkFileName, (hf.record s').chunkFileName] at hname
    exact h.oneFile r r' s s' (hf.chunksStats hs) (hf.chunksStats hs') hname
  stats := by
    intro r s hs
    rw [hf.numStats, (hf.record s).range]
    exact h.stats r s (hf.chunksStats hs)
  named := fun r s hs => (h.named r s (hf.chunksStats hs)).sameRecord (hf.record s)

/-- The names after a range was registered: its own under its key, the others as they were. -/
theorem Creates.name {w w' : World} {r : ChunkRange} {job : Job} (hc : w.Creates params w' r job)
    (h : w.Named params recoveredStats) {r' : ChunkRange} {s : StatsId}
    (hs : w'.chunksStats.get? r' = some s) :
    r' = r ∧ (w'.record s).chunkFileName = formatChunkFileName r params.fileName ∨
      r' ≠ r ∧ w.chunksStats.get? r' = some s ∧
        (w'.record s).chunkFileName = (w.record s).chunkFileName := by
  rw [hc.chunksStats, Dict.get?_set] at hs
  split at hs
  · rename_i hr
    obtain rfl := Option.some.inj hs
    exact Or.inl ⟨hr, hc.newRecord.chunkFileName⟩
  · rename_i hr
    exact Or.inr ⟨hr, hs, (hc.record s (h.stats r' s hs).1).chunkFileName⟩

theorem Named.creates {w w' : World} {r : ChunkRange} {job : Job}
    (h : w.Named params recoveredStats) (hfree : w.NameFree params r)
    (hc : w.Creates params w' r job) : w'.Named params recoveredStats where
  oneFile := by
    intro r₁ r₂ s₁ s₂ hs₁ hs₂ hname
    rcases hc.name h hs₁ with ⟨rfl, hname₁⟩ | ⟨-, hold₁, hname₁⟩
    · rcases hc.name h hs₂ with ⟨rfl, -⟩ | ⟨-, hold₂, hname₂⟩
      · rfl
      · exact (hfree r₂ s₂ hold₂ (hname₂.symm.trans (hname.symm.trans hname₁))).symm
    · rcases hc.name h hs₂ with ⟨rfl, hname₂⟩ | ⟨-, hold₂, hname₂⟩
      · exact hfree r₁ s₁ hold₁ (hname₁.symm.trans (hname.trans hname₂))
      · exact h.oneFile r₁ r₂ s₁ s₂ hold₁ hold₂ (hname₁.symm.trans (hname.trans hname₂))
  stats := by
    intro r' s hs
    rw [hc.chunksStats, Dict.get?_set] at hs
    rw [hc.numStats]
    split at hs
    · rename_i hr
      obtain rfl := Option.some.inj hs
      exact ⟨Nat.lt_succ_self _, hc.newRecord.range.trans hr.symm⟩
    · obtain ⟨hlt, hrange⟩ := h.stats r' s hs
      exact ⟨Nat.lt_succ_of_lt hlt, (hc.record s hlt).range.trans hrange⟩
  named := by
    intro r' s hs
    rw [hc.chunksStats, Dict.get?_set] at hs
    split at hs
    · obtain rfl := Option.some.inj hs
      left
      rw [hc.newRecord.chunkFileName, hc.newRecord.range]
    · exact (h.named r' s hs).sameRecord (hc.record s (h.stats r' s hs).1)

/-- Registering a range whose name is claimed makes two keys of one file. -/
theorem not_oneFile_of_creates {w w' : World} {r : ChunkRange} {job : Job}
    (h : w.Named params recoveredStats) (hclaimed : ¬ w.NameFree params r)
    (hc : w.Creates params w' r job) : ¬ w'.OneFile := by
  intro hone
  refine hclaimed fun r' s hs hname => ?_
  by_contra hne
  refine hne (hone r' r s w.stats.length ?_ ?_ ?_)
  · rw [hc.chunksStats, Dict.get?_set_of_ne _ _ hne, hs]
  · rw [hc.chunksStats, Dict.get?_set_self]
  · rw [(hc.record s (h.stats r' s hs).1).chunkFileName, hname, hc.newRecord.chunkFileName]

/-- **A step** that keeps the names apart keeps the invariant. -/
theorem Named.step {w w' : World} {e : Event} {out : List Returned}
    (h : w.Named params recoveredStats) (hkeeps : KeepsNames params w e)
    (hstep : step params w e = some (w', out)) : w'.Named params recoveredStats := by
  rcases step_cases hstep with ⟨r, job, hregisters, hcreates⟩ | ⟨-, hforgets⟩
  · exact h.creates (hkeeps (r, job) hregisters) hcreates
  · exact h.forgets hforgets

theorem named_init (files : Files) (hnames : (recoveredStats.map (·.chunkFileName)).Nodup)
    (hnamed : ∀ stat ∈ recoveredStats, ∃ endByte, stat.chunkFileName =
      formatChunkFileName ⟨stat.range.start, endByte⟩ params.fileName) :
    (World.init files recoveredStats).Named params recoveredStats := by
  have hentry : ∀ r s, (World.init files recoveredStats).chunksStats.get? r = some s →
      ∃ stat, recoveredStats[s]? = some stat ∧ stat.range = r ∧
        (World.init files recoveredStats).record s = stat := by
    intro r s hs
    rcases Dict.get?_foldl_set (fun p : Stats × Nat => p.1.range) Prod.snd hs with h | h
    · cases h
    · obtain ⟨⟨stat, i⟩, hmem, rfl, rfl⟩ := h
      have hget : recoveredStats[i]? = some stat := List.mem_zipIdx_iff_getElem?.mp hmem
      refine ⟨stat, hget, rfl, ?_⟩
      show recoveredStats.getD i default = stat
      rw [List.getD_eq_getElem?_getD, hget]
      rfl
  constructor
  · intro r r' s s' hs hs' hname
    obtain ⟨stat, hget, hrange, hrecord⟩ := hentry r s hs
    obtain ⟨stat', hget', hrange', hrecord'⟩ := hentry r' s' hs'
    rw [hrecord, hrecord'] at hname
    obtain rfl : stat = stat' := List.inj_on_of_nodup_map hnames (List.mem_of_getElem? hget)
      (List.mem_of_getElem? hget') hname
    exact hrange.symm.trans hrange'
  · intro r s hs
    obtain ⟨stat, hget, hrange, hrecord⟩ := hentry r s hs
    exact ⟨(List.getElem?_eq_some_iff.mp hget).1, by rw [hrecord, hrange]⟩
  · intro r s hs
    obtain ⟨stat, hget, -, hrecord⟩ := hentry r s hs
    refine Or.inr ⟨(List.getElem?_eq_some_iff.mp hget).1, ?_⟩
    rw [hrecord]
    exact hnamed stat (List.mem_of_getElem? hget)

theorem Named.records_nodup {w : World} (h : w.Named params recoveredStats) :
    ((w.chunksStats.values.map w.record).map (·.chunkFileName)).Nodup := by
  unfold Dict.values
  rw [List.map_map, List.map_map]
  refine List.Nodup.map_on ?_ (List.Nodup.of_map _ w.chunksStats.nodup)
  rintro ⟨r, s⟩ hmem ⟨r', s'⟩ hmem' hname
  have hs := Dict.get?_eq_some_iff.mpr hmem
  have hs' := Dict.get?_eq_some_iff.mpr hmem'
  obtain rfl : r = r' := h.oneFile r r' s s' hs hs' hname
  rw [Option.some.inj (hs.symm.trans hs')]

end World

/-! ### From one lifetime to the next -/

/-- What `load_info` makes of saved chunks has their names, in their order. -/
theorem names_validStats_sublist (disk : Files) (chunks : List RecoveryChunkDTO) :
    ((chunks.filterMap (validStats disk)).map fun stat : Stats => stat.chunkFileName).Sublist
      (chunks.map (·.chunkFileName)) := by
  induction chunks with
  | nil => exact List.Sublist.slnil
  | cons c rest ih =>
      rw [List.filterMap_cons, List.map_cons]
      unfold validStats
      split
      · rename_i hnone
        exact ih.cons _
      · rename_i stat hsome
        split at hsome
        · obtain rfl := Option.some.inj hsome
          exact ih.cons_cons _
        · cases hsome

/-- **Recovered names.** What a manager recovers has names of its own, each after a range that
starts where the recovered one does. -/
theorem names_of_recovered {codec : JsonCodec τ} {fileName : String} {recoveredStats : List Stats}
    (h : RecoveredStats codec fileName KeepsNames recoveredStats) :
    (recoveredStats.map (·.chunkFileName)).Nodup ∧
      ∀ stat ∈ recoveredStats, ∃ endByte, stat.chunkFileName =
        formatChunkFileName ⟨stat.range.start, endByte⟩ fileName := by
  induction h with
  | fresh => exact ⟨List.nodup_nil, fun _ hmem => absurd hmem List.not_mem_nil⟩
  | @loaded params earlier w files saved disk fileId _ minChunkSize _ _ _ info _ sameFile run _
      hasId metadata json load ih =>
      subst sameFile
      have hnamed : w.Named params earlier :=
        run.invariant (World.named_init files ih.1 ih.2) fun h hkeeps hstep => h.step hkeeps hstep
      -- what was loaded is what was dumped
      cases hread : disk.read (recoveryKey fileId) with
      | none =>
          rw [loadInfo_of_missing hread] at load
          cases load
      | some content =>
          obtain rfl := read_saveInfo_key hasId (metadata.symm.trans hread)
          rw [loadInfo_of_read hread json] at load
          obtain rfl := Option.some.inj load
          dsimp only
          have hsublist := names_validStats_sublist disk
            (dtoChunks saved minChunkSize (w.chunksStats.values.map w.record))
          rw [dtoChunks_eq] at hsublist ⊢
          constructor
          · refine hsublist.nodup ?_
            rw [List.map_map]
            exact (List.filter_sublist.map _).nodup hnamed.records_nodup
          · intro stat hstat
            obtain ⟨c, hc, hvalid⟩ := List.mem_filterMap.mp hstat
            obtain ⟨record, hrecord, rfl⟩ := List.mem_map.mp hc
            obtain ⟨s, hs, rfl⟩ := List.mem_map.mp (List.mem_filter.mp hrecord).1
            obtain ⟨r, hr⟩ := Dict.mem_values_iff.mp hs
            unfold validStats at hvalid
            split at hvalid
            · obtain rfl := Option.some.inj hvalid
              rcases hnamed.named r s hr with hname | ⟨-, endByte, hname⟩
              · exact ⟨(w.record s).range.endByte, hname⟩
              · exact ⟨endByte, hname⟩
            · cases hvalid

/-- **One file per chunk.** In every run that registers only ranges whose names are free, of a
manager whose recovered chunks come from such runs, different keys have different files; and
wherever it stands, a next step keeps it so exactly if it registers nothing else. -/
theorem one_file_iff (codec : JsonCodec τ) (params : ChunkManagerParams) (files : Files)
    {recoveredStats : List Stats}
    (hrecovered : RecoveredStats codec params.fileName KeepsNames recoveredStats) {w : World}
    (h : Reaches (step params) (KeepsNames params) (World.init files recoveredStats) w) :
    w.OneFile ∧ ∀ e w' out, step params w e = some (w', out) →
      (KeepsNames params w e ↔ w'.OneFile) := by
  obtain ⟨hnodup, hnames⟩ := names_of_recovered hrecovered
  have hinv : w.Named params recoveredStats :=
    h.invariant (World.named_init files hnodup hnames) fun h hkeeps hstep => h.step hkeeps hstep
  refine ⟨hinv.oneFile, fun e w' out hstep => ⟨fun hkeeps => (hinv.step hkeeps hstep).oneFile, ?_⟩⟩
  intro hone
  rcases step_cases hstep with ⟨r, job, hregisters, hcreates⟩ | ⟨hnone, -⟩
  · intro registered hmem
    obtain rfl : registered = (r, job) := Option.some.inj (hmem.symm.trans hregisters)
    by_contra hclaimed
    exact World.not_oneFile_of_creates hinv hclaimed hcreates hone
  · intro registered hmem
    rw [hnone] at hmem
    cases hmem

/-- A name that is claimed under another key is claimed by a recovered chunk with the same
start. -/
theorem claimed_by_recovered (codec : JsonCodec τ) (params : ChunkManagerParams) (files : Files)
    {recoveredStats : List Stats}
    (hrecovered : RecoveredStats codec params.fileName KeepsNames recoveredStats) {w : World}
    (h : Reaches (step params) (KeepsNames params) (World.init files recoveredStats) w)
    {r r' : ChunkRange} {s : StatsId} (hs : w.chunksStats.get? r' = some s)
    (hname : (w.record s).chunkFileName = formatChunkFileName r params.fileName) (hne : r' ≠ r) :
    s < recoveredStats.length ∧ r'.start = r.start := by
  obtain ⟨hnodup, hnames⟩ := names_of_recovered hrecovered
  have hinv : w.Named params recoveredStats :=
    h.invariant (World.named_init files hnodup hnames) fun h hkeeps hstep => h.step hkeeps hstep
  obtain ⟨-, rfl⟩ := hinv.stats r' s hs
  rcases hinv.named _ s hs with hown | ⟨hlt, endByte, hold⟩
  · exact absurd (formatChunkFileName_inj (hown.symm.trans hname)).1 hne
  · obtain ⟨rfl, -⟩ := formatChunkFileName_inj (hold.symm.trans hname)
    exact ⟨hlt, rfl⟩

/-! ### A chunk that was half downloaded -/

namespace RecoveryRun

/-- A file of ten bytes. -/
def halfParams : ChunkManagerParams := ⟨"f", some 10, 1⟩

/-- Five of them have come when the chunk is cancelled. Its file is closed before anything is saved,
so that all that was written is on the disk. -/
def halfRun : List Event :=
  [.startChunk ⟨0, some 9⟩ none, .task 0 .begins, .task 0 .opened, .task 0 (.piece [1, 2, 3, 4, 5]),
    .task 0 .written, .cancelChunk ⟨0, some 9⟩, .task 0 (.cancelled none), .task 0 .closed,
    .resume 0 true]

/-- What is saved of them, and its JSON. -/
def halfState : RecoveryStateDTO String where
  fileId := "x"
  fileSize := 10
  chunks := [⟨"0_9_f.sdownload", 0, 4, 5⟩]
  updatedAt := "2025-01-01T00:00:00+00:00"

def halfText : String :=
  "\x7b\n    \"file_id\": \"x\",\n    \"file_size\": 10,\n    \"chunks\": [\n        \x7b\n" ++
  "            \"chunk_file_name\": \"0_9_f.sdownload\",\n            \"start\": 0,\n" ++
  "            \"end\": 4,\n            \"bytes\": 5\n        \x7d\n    ],\n" ++
  "    \"updated_at\": \"2025-01-01T00:00:00+00:00\"\n\x7d"

@[irreducible] def halfJson : Bytes := halfText.toList.map fun c => UInt8.ofNat c.toNat

def halfCodec : JsonCodec String where
  dumps state := if state = halfState then halfJson else []
  loads bytes := if bytes = halfJson then some halfState else none

def halfWorld : World :=
  runTo (step halfParams) (KeepsNames halfParams) (World.init FileSystem.empty []) halfRun

/-- The disk when the program starts again. -/
def halfDisk : Files :=
  saveInfo halfCodec halfWorld.files "x" 10 (halfWorld.chunksStats.values.map halfWorld.record) 1
    true "2025-01-01T00:00:00+00:00" fun _ => true

/-- The chunk under its new range, and its old name. -/
def halfChunk : Stats :=
  { chunkFileName := "0_9_f.sdownload", range := ⟨0, some 4⟩, fileSize := some 5,
    bytesDownloaded := 5, status := .completed }

theorem dtoChunks_half :
    dtoChunks halfWorld.files 1 (halfWorld.chunksStats.values.map halfWorld.record) =
      halfState.chunks := by
  decide

theorem loads_dumps_halfState : halfCodec.loads (halfCodec.dumps halfState) = some halfState := by
  simp only [halfCodec, if_true]

/-- Nothing is deleted: the metadata is written beside the chunk's file. -/
theorem read_halfDisk (name : String) :
    halfDisk.read name = if name = recoveryKey "x" then some (halfCodec.dumps halfState)
      else halfWorld.files.read name := by
  have hnone : chunksToDelete halfWorld.files 1
      (halfWorld.chunksStats.values.map halfWorld.record) = [] := by decide
  rw [halfDisk, read_saveInfo _ _ (by decide) _ _ _ _ _ _ (by rw [hnone]; exact List.not_mem_nil),
    dtoChunks_half]
  rfl

theorem loadInfo_half : loadInfo halfCodec halfDisk "x" =
    some ⟨"x", 10, [halfChunk], "2025-01-01T00:00:00+00:00"⟩ := by
  have hsize : sizeOnDisk halfDisk "0_9_f.sdownload" = 5 := by
    rw [sizeOnDisk, read_halfDisk]
    decide
  have hvalid : halfState.chunks.filterMap (validStats halfDisk) = [halfChunk] := by
    simp only [halfState, List.filterMap_cons, List.filterMap_nil, validStats, hsize, if_pos le_rfl]
    rfl
  rw [loadInfo_of_read ((read_halfDisk _).trans (if_pos rfl)) loads_dumps_halfState, hvalid]
  rfl

/-- A manager can be built with it. -/
theorem half_recovered {allowed : ChunkManagerParams → World → Event → Prop}
    (h : ∀ params w e, KeepsNames params w e → allowed params w e) :
    RecoveredStats halfCodec "f" allowed [halfChunk] := by
  have hrun := (reaches_runTo (step halfParams) (KeepsNames halfParams)
    (World.init FileSystem.empty []) halfRun).mono (h halfParams)
  exact .loaded .fresh rfl hrun (fun _ _ => Or.inl rfl) (by decide) rfl
    (by rw [← halfWorld, dtoChunks_half]; exact loads_dumps_halfState) loadInfo_half

end RecoveryRun

/-- The rest of the file is downloaded. -/
theorem one_file_rest :
    let w := runTo (step RecoveryRun.halfParams) (KeepsNames RecoveryRun.halfParams)
      (World.init RecoveryRun.halfDisk [RecoveryRun.halfChunk]) [.startChunk ⟨5, some 9⟩ none]
    w.chunksStats.keys = [⟨0, some 4⟩, ⟨5, some 9⟩] ∧ w.OneFile :=
  ⟨by decide, (one_file_iff RecoveryRun.halfCodec RecoveryRun.halfParams _
    (RecoveryRun.half_recovered fun _ _ _ h => h) (reaches_runTo _ _ _ _)).1⟩

/-- The range the chunk was once started as is started again, and has the file of the recovered
chunk. -/
theorem one_file_shared :
    ¬ ∀ recoveredStats, RecoveredStats RecoveryRun.halfCodec "f" (fun _ _ _ => True)
        recoveredStats →
      ∀ w, Reaches (step RecoveryRun.halfParams) (fun _ _ => True)
        (World.init RecoveryRun.halfDisk recoveredStats) w → w.OneFile := by
  intro h
  have hone := h _ (RecoveryRun.half_recovered fun _ _ _ _ => trivial) _
    (reaches_runTo (step RecoveryRun.halfParams) (fun _ _ => True)
      (World.init RecoveryRun.halfDisk [RecoveryRun.halfChunk]) [.startChunk ⟨0, some 9⟩ none])
  exact absurd (hone ⟨0, some 4⟩ ⟨0, some 9⟩ 0 1 (by decide) (by decide) (by decide)) (by decide)

end SDownload
