import SDownload.Storage.Merge

/-!
# SDownload.Recovery.RecoveryDownload

`save_info` and `load_info` of `recovery_download.py`, as functions of the storage
directory, when no storage operation fails but a deletion.

What is written is JSON. The library that writes and reads it is a parameter
(`JsonCodec`); that it loads what it has dumped is a hypothesis where it is used.
-/

namespace SDownload

/-- `RecoveryChunkDTO`. -/
structure RecoveryChunkDTO where
  chunkFileName : String
  start : Int
  endByte : Int
  bytes : Int
  deriving Repr, DecidableEq

/-- `RecoveryStateDTO`; a point in time is of an arbitrary type `τ`. -/
structure RecoveryStateDTO (τ : Type) where
  fileId : String
  fileSize : Int
  chunks : List RecoveryChunkDTO
  updatedAt : τ
  deriving Repr, DecidableEq

/-- `DownloadInfo`. -/
structure DownloadInfo (κ τ : Type) where
  fileId : String
  fileSize : Int
  chunksFinished : List (ChunkDownloadStats κ)
  updatedAt : τ
  deriving Repr, DecidableEq

/-- `json_dumps(asdict(...))`, and `json.loads` with `parse_json_date`. -/
structure JsonCodec (τ : Type) where
  dumps : RecoveryStateDTO τ → Bytes
  loads : Bytes → Option (RecoveryStateDTO τ)

/-- `_get_recovery_key`. -/
def recoveryKey (fileId : String) : String := ".sdown_resume_" ++ fileId ++ ".json"

/-- `info_map.get(name, 0)`. -/
def sizeOnDisk (files : Files) (name : String) : Int := ((files.read name).getD []).length

/-- `save_binary_data`, of data that is all there. -/
def saveBinaryData (files : Files) (key : String) (data : Bytes) : Files :=
  let (ino, files) := files.openWrite key
  files.writeAt ino 0 data

variable {κ τ : Type}

/-! ### `save_info` -/

/-- What a round of the loop of `save_info` does with a chunk. -/
inductive SaveVerdict
  | keep (dto : RecoveryChunkDTO)
  | delete
  | pass
  deriving Repr, DecidableEq

/-- One round of the loop of `save_info`. -/
def saveVerdict (files : Files) (minChunkSize : Int) (stats : ChunkDownloadStats κ) :
    SaveVerdict :=
  let actualSize := sizeOnDisk files stats.chunkFileName
  if actualSize ≠ stats.bytesDownloaded then .delete
  else if 0 < actualSize then
    if stats.status = .completed ∨ minChunkSize ≤ actualSize then
      .keep {
        chunkFileName := stats.chunkFileName
        start := stats.range.start
        endByte := stats.range.start + actualSize - 1
        bytes := actualSize }
    else .delete
  else .pass

/-- `dto_chunks`. -/
def dtoChunks (files : Files) (minChunkSize : Int) (statsList : List (ChunkDownloadStats κ)) :
    List RecoveryChunkDTO :=
  statsList.filterMap fun stats =>
    match saveVerdict files minChunkSize stats with
    | .keep dto => some dto
    | _ => none

/-- `chunks_to_delete`. -/
def chunksToDelete (files : Files) (minChunkSize : Int)
    (statsList : List (ChunkDownloadStats κ)) : List String :=
  (statsList.filter fun stats => saveVerdict files minChunkSize stats = .delete).map
    (·.chunkFileName)

/-- `save_info`. `deletes` says which deletions succeed; those that do not are only logged. -/
def saveInfo (codec : JsonCodec τ) (files : Files) (fileId : String) (totalFileSize : Int)
    (statsList : List (ChunkDownloadStats κ)) (minChunkSize : Int) (deleteUselessChunks : Bool)
    (now : τ) (deletes : String → Bool) : Files :=
  if fileId = "" then files
  else
    let state : RecoveryStateDTO τ :=
      { fileId
        fileSize := totalFileSize
        chunks := dtoChunks files minChunkSize statsList
        updatedAt := now }
    let saved := saveBinaryData files (recoveryKey fileId) (codec.dumps state)
    if deleteUselessChunks then
      ((chunksToDelete files minChunkSize statsList).filter deletes).foldl FileSystem.unlink saved
    else saved

/-! ### `load_info` -/

/-- One round of the loop of `load_info`: a saved chunk whose file has at least the saved size. -/
def validStats (files : Files) (c : RecoveryChunkDTO) : Option (ChunkDownloadStats κ) :=
  if c.bytes ≤ sizeOnDisk files c.chunkFileName then
    some {
      chunkFileName := c.chunkFileName
      range := ⟨c.start, some c.endByte⟩
      fileSize := some c.bytes
      bytesDownloaded := c.bytes
      status := .completed }
  else none

/-- `load_info`. -/
def loadInfo (codec : JsonCodec τ) (files : Files) (fileId : String) :
    Option (DownloadInfo κ τ) :=
  match files.read (recoveryKey fileId) with
  | none => none
  | some content =>
      match codec.loads content with
      | none => none
      | some rawData =>
          some {
            fileId := rawData.fileId
            fileSize := rawData.fileSize
            chunksFinished := rawData.chunks.filterMap (validStats files)
            updatedAt := rawData.updatedAt }

section

variable {codec : JsonCodec τ} {files : Files} {fileId : String} {content : Bytes}

theorem loadInfo_of_read {state : RecoveryStateDTO τ}
    (hread : files.read (recoveryKey fileId) = some content)
    (hjson : codec.loads content = some state) :
    loadInfo (κ := κ) codec files fileId =
      some ⟨state.fileId, state.fileSize, state.chunks.filterMap (validStats files),
        state.updatedAt⟩ := by
  simp only [loadInfo, hread, hjson]

/-- Without the metadata file, nothing is loaded. -/
theorem loadInfo_of_missing (hread : files.read (recoveryKey fileId) = none) :
    loadInfo (κ := κ) codec files fileId = none := by
  simp only [loadInfo, hread]

/-- From a metadata file that is no JSON, nothing is loaded. -/
theorem loadInfo_of_garbled (hread : files.read (recoveryKey fileId) = some content)
    (hjson : codec.loads content = none) : loadInfo (κ := κ) codec files fileId = none := by
  simp only [loadInfo, hread, hjson]

end

/-! ### A chunk that is kept -/

/-- The chunks that `save_info` persists. -/
def Persists (files : Files) (minChunkSize : Int) (stats : ChunkDownloadStats κ) : Prop :=
  sizeOnDisk files stats.chunkFileName = stats.bytesDownloaded ∧ 0 < stats.bytesDownloaded ∧
    (stats.status = .completed ∨ minChunkSize ≤ stats.bytesDownloaded)

instance (files : Files) (minChunkSize : Int) (stats : ChunkDownloadStats κ) :
    Decidable (Persists files minChunkSize stats) :=
  inferInstanceAs (Decidable (_ ∧ _ ∧ _))

/-- What `save_info` writes about a chunk it keeps. -/
def RecoveryRun.dtoOf (stats : ChunkDownloadStats κ) : RecoveryChunkDTO where
  chunkFileName := stats.chunkFileName
  start := stats.range.start
  endByte := stats.range.start + stats.bytesDownloaded - 1
  bytes := stats.bytesDownloaded

/-- What `load_info` makes of it. -/
def RecoveryRun.recoveredOf (stats : ChunkDownloadStats κ) : ChunkDownloadStats κ where
  chunkFileName := stats.chunkFileName
  range := ⟨stats.range.start, some (stats.range.start + stats.bytesDownloaded - 1)⟩
  fileSize := some stats.bytesDownloaded
  bytesDownloaded := stats.bytesDownloaded
  status := .completed

theorem sizeOnDisk_nonneg (files : Files) (name : String) : 0 ≤ sizeOnDisk files name :=
  Int.natCast_nonneg _

theorem saveVerdict_of_persists {files : Files} {minChunkSize : Int}
    {stats : ChunkDownloadStats κ} (h : Persists files minChunkSize stats) :
    saveVerdict files minChunkSize stats = .keep (RecoveryRun.dtoOf stats) := by
  obtain ⟨hsize, hpos, hwhole⟩ := h
  simp [saveVerdict, RecoveryRun.dtoOf, hsize, hpos, hwhole]

/-- A chunk that is not persisted is deleted, unless it has no bytes and no file with any. -/
theorem saveVerdict_of_not_persists {files : Files} {minChunkSize : Int}
    {stats : ChunkDownloadStats κ} (h : ¬ Persists files minChunkSize stats) :
    saveVerdict files minChunkSize stats =
      if stats.bytesDownloaded = 0 ∧ sizeOnDisk files stats.chunkFileName = 0 then .pass
      else .delete := by
  have hnonneg := sizeOnDisk_nonneg files stats.chunkFileName
  simp only [saveVerdict]
  by_cases hsize : sizeOnDisk files stats.chunkFileName = stats.bytesDownloaded
  · rw [if_neg (not_not.mpr hsize)]
    by_cases hpos : 0 < sizeOnDisk files stats.chunkFileName
    · have hsmall : ¬ (stats.status = .completed ∨
          minChunkSize ≤ sizeOnDisk files stats.chunkFileName) := fun hwhole =>
        h ⟨hsize, hsize ▸ hpos, hsize ▸ hwhole⟩
      rw [if_pos hpos, if_neg hsmall, if_neg (by omega)]
    · rw [if_neg hpos, if_pos (by omega)]
  · rw [if_pos hsize, if_neg (by omega)]

theorem dtoChunks_eq (files : Files) (minChunkSize : Int)
    (statsList : List (ChunkDownloadStats κ)) :
    dtoChunks files minChunkSize statsList =
      (statsList.filter fun s => Persists files minChunkSize s).map RecoveryRun.dtoOf := by
  induction statsList with
  | nil => rfl
  | cons s rest ih =>
      rw [dtoChunks] at ih ⊢
      rw [List.filterMap_cons, ih]
      by_cases h : Persists files minChunkSize s
      · simp [h, saveVerdict_of_persists h]
      · rw [saveVerdict_of_not_persists h, List.filter_cons_of_neg (by simpa using h)]
        by_cases hempty : s.bytesDownloaded = 0 ∧ sizeOnDisk files s.chunkFileName = 0
        · rw [if_pos hempty]
        · rw [if_neg hempty]

/-- The files that are deleted: of chunks that are not persisted and are not wholly empty. -/
theorem mem_chunksToDelete {files : Files} {minChunkSize : Int}
    {statsList : List (ChunkDownloadStats κ)} {name : String} :
    name ∈ chunksToDelete files minChunkSize statsList ↔
      ∃ s ∈ statsList, s.chunkFileName = name ∧ ¬ Persists files minChunkSize s ∧
        ¬ (s.bytesDownloaded = 0 ∧ sizeOnDisk files s.chunkFileName = 0) := by
  have hdeleted : ∀ s : ChunkDownloadStats κ, saveVerdict files minChunkSize s = .delete ↔
      ¬ Persists files minChunkSize s ∧
        ¬ (s.bytesDownloaded = 0 ∧ sizeOnDisk files s.chunkFileName = 0) := by
    intro s
    by_cases h : Persists files minChunkSize s
    · rw [saveVerdict_of_persists h]
      exact iff_of_false (by simp) fun hnot => hnot.1 h
    · rw [saveVerdict_of_not_persists h]
      by_cases hempty : s.bytesDownloaded = 0 ∧ sizeOnDisk files s.chunkFileName = 0
      · rw [if_pos hempty]
        exact iff_of_false (by simp) fun hnot => hnot.2 hempty
      · rw [if_neg hempty]
        exact iff_of_true rfl ⟨h, hempty⟩
  simp only [chunksToDelete, List.mem_map, List.mem_filter, decide_eq_true_eq, hdeleted]
  constructor
  · intro ⟨s, ⟨hs, hnot⟩, hname⟩
    exact ⟨s, hs, hname, hnot⟩
  · intro ⟨s, hs, hname, hnot⟩
    exact ⟨s, ⟨hs, hnot⟩, hname⟩

/-! ### What is on disk after `save_info` -/

theorem read_saveBinaryData_self (files : Files) (key : String) (data : Bytes) :
    (saveBinaryData files key data).read key = some data := by
  have hlookup : (files.openWrite key).2.lookup key = some (files.openWrite key).1 :=
    FileSystem.lookup_openWrite_self
  simp only [saveBinaryData, FileSystem.writeAt]
  rw [FileSystem.read_overwrite_self _ hlookup, FileSystem.content_openWrite_self]
  simp [writeBytes]

theorem read_saveBinaryData_of_ne (files : Files) {key name : String} (data : Bytes)
    (hne : name ≠ key) : (saveBinaryData files key data).read name = files.read name := by
  have hlookup : (files.openWrite key).2.lookup key = some (files.openWrite key).1 :=
    FileSystem.lookup_openWrite_self
  simp only [saveBinaryData, FileSystem.writeAt]
  rw [FileSystem.read_overwrite_of_ne _ fun h => hne (FileSystem.lookup_inj h hlookup),
    FileSystem.read_openWrite_of_ne hne]

theorem read_foldl_unlink (names : List String) (files : Files) {name : String}
    (hname : name ∉ names) : (names.foldl FileSystem.unlink files).read name = files.read name := by
  induction names generalizing files with
  | nil => rfl
  | cons n rest ih =>
      rw [List.mem_cons, not_or] at hname
      obtain ⟨hne, hrest⟩ := hname
      rw [List.foldl_cons, ih _ hrest, FileSystem.read_unlink, if_neg hne]

/-- The metadata is what was dumped, and chunks that are not deleted stay as they are. -/
theorem read_saveInfo (codec : JsonCodec τ) (files : Files) {fileId : String}
    (hid : fileId ≠ "") (totalFileSize : Int) (statsList : List (ChunkDownloadStats κ))
    (minChunkSize : Int) (deleteUselessChunks : Bool) (now : τ) (deletes : String → Bool)
    {name : String} (hname : name ∉ chunksToDelete files minChunkSize statsList) :
    (saveInfo codec files fileId totalFileSize statsList minChunkSize deleteUselessChunks now
        deletes).read name =
      if name = recoveryKey fileId then
        some (codec.dumps ⟨fileId, totalFileSize, dtoChunks files minChunkSize statsList, now⟩)
      else files.read name := by
  have hsaved : ∀ data, (saveBinaryData files (recoveryKey fileId) data).read name =
      if name = recoveryKey fileId then some data else files.read name := by
    intro data
    split
    · rename_i heq
      rw [heq, read_saveBinaryData_self]
    · rename_i hne
      rw [read_saveBinaryData_of_ne _ _ hne]
  simp only [saveInfo, if_neg hid]
  split
  · rw [read_foldl_unlink _ _ fun hmem => hname (List.mem_filter.mp hmem).1, hsaved]
  · exact hsaved _

end SDownload
