import SDownload.Recovery.RoundTrip

/-!
# SDownload.Recovery.Purge

`purge_all` of `recovery_download.py`: it deletes what `load_info` lists, and the
metadata.

`load_info` lists the chunks that a download can go on from. A chunk whose file has
become shorter than its record is not among them, and so a purge leaves that file on
disk, where no metadata names it any more. `purge_leaves_nothing_iff` says that this is
the only thing it leaves.
-/

namespace SDownload

variable {τ : Type}

/-- `chunks_to_delete` of `purge_all`. -/
def purgedChunks (codec : JsonCodec τ) (files : Files) (fileId : String) : List String :=
  match loadInfo (κ := Unit) codec files fileId with
  | some info => info.chunksFinished.map (·.chunkFileName)
  | none => []

/-- `purge_all`. `deletes` says which deletions succeed; those that do not are only logged. -/
def purgeAll (codec : JsonCodec τ) (files : Files) (fileId : String) (deletes : String → Bool) :
    Files :=
  (((purgedChunks codec files fileId) ++ [recoveryKey fileId]).filter deletes).foldl
    FileSystem.unlink files

/-- What a purge is for: the metadata and the chunks it names are gone, and nothing else is. -/
structure LeavesNothing (disk purged : Files) (fileId : String) (chunks : List RecoveryChunkDTO) :
    Prop where
  metadata : purged.read (recoveryKey fileId) = none
  chunkFiles : ∀ c ∈ chunks, purged.read c.chunkFileName = none
  others : ∀ name, name ≠ recoveryKey fileId → (∀ c ∈ chunks, c.chunkFileName ≠ name) →
    purged.read name = disk.read name

/-- A file that is there, and named in the metadata, has at least the bytes of one of the records
that name it. -/
def StillWhole (disk : Files) (fileId : String) (chunks : List RecoveryChunkDTO) : Prop :=
  ∀ c ∈ chunks, c.chunkFileName ≠ recoveryKey fileId → disk.read c.chunkFileName ≠ none →
    ∃ c' ∈ chunks, c'.chunkFileName = c.chunkFileName ∧
      c'.bytes ≤ sizeOnDisk disk c.chunkFileName

section

variable {codec : JsonCodec τ} {disk : Files} {fileId : String} {content : Bytes}
  {state : RecoveryStateDTO τ}

/-- A purge deletes the chunks whose files are at least as long as recorded. -/
theorem mem_purgedChunks (hread : disk.read (recoveryKey fileId) = some content)
    (hjson : codec.loads content = some state) {name : String} :
    name ∈ purgedChunks codec disk fileId ↔
      ∃ c ∈ state.chunks, c.chunkFileName = name ∧ c.bytes ≤ sizeOnDisk disk name := by
  have hvalid : ∀ (c : RecoveryChunkDTO) (s : ChunkDownloadStats Unit),
      validStats disk c = some s → s.chunkFileName = c.chunkFileName ∧
        c.bytes ≤ sizeOnDisk disk c.chunkFileName := by
    intro c s hs
    unfold validStats at hs
    split at hs
    · rename_i hle
      obtain rfl := Option.some.inj hs
      exact ⟨rfl, hle⟩
    · cases hs
  rw [purgedChunks, loadInfo_of_read hread hjson]
  simp only [List.mem_map, List.mem_filterMap]
  constructor
  · rintro ⟨s, ⟨c, hc, hs⟩, rfl⟩
    obtain ⟨hname, hle⟩ := hvalid c s hs
    exact ⟨c, hc, hname.symm, hname ▸ hle⟩
  · rintro ⟨c, hc, rfl, hle⟩
    exact ⟨_, ⟨c, hc, if_pos hle⟩, rfl⟩

/-- What is left after a purge of which no deletion fails. -/
theorem read_purgeAll (codec : JsonCodec τ) (disk : Files) (fileId name : String) :
    (purgeAll codec disk fileId fun _ => true).read name =
      if name = recoveryKey fileId ∨ name ∈ purgedChunks codec disk fileId then none
      else disk.read name := by
  have hall : ((purgedChunks codec disk fileId) ++ [recoveryKey fileId]).filter (fun _ => true) =
      purgedChunks codec disk fileId ++ [recoveryKey fileId] :=
    List.filter_eq_self.mpr fun _ _ => rfl
  unfold purgeAll
  rw [hall]
  split
  · rename_i h
    refine read_foldl_unlink_of_mem _ (List.mem_append.mpr ?_)
    rcases h with rfl | h
    · exact Or.inr List.mem_cons_self
    · exact Or.inl h
  · rename_i h
    obtain ⟨hkey, hchunks⟩ := not_or.mp h
    refine read_foldl_unlink _ _ fun hmem => ?_
    rcases List.mem_append.mp hmem with hmem | hmem
    · exact hchunks hmem
    · exact hkey (List.mem_singleton.mp hmem)

/-- A chunk file that is named in the metadata and left by a purge is shorter than recorded. -/
theorem leavesNothing_iff (hread : disk.read (recoveryKey fileId) = some content)
    (hjson : codec.loads content = some state) :
    LeavesNothing disk (purgeAll codec disk fileId fun _ => true) fileId state.chunks ↔
      StillWhole disk fileId state.chunks := by
  have hmem : ∀ name, name ∈ purgedChunks codec disk fileId ↔ _ := fun name =>
    mem_purgedChunks hread hjson
  constructor
  · intro h c hc hkey hthere
    have hgone := h.chunkFiles c hc
    rw [read_purgeAll] at hgone
    by_contra hshort
    rw [if_neg fun hor => hor.elim hkey fun hin => hshort ((hmem _).mp hin)] at hgone
    exact hthere hgone
  · intro h
    refine ⟨?_, ?_, ?_⟩
    · rw [read_purgeAll, if_pos (Or.inl rfl)]
    · intro c hc
      rw [read_purgeAll]
      by_cases hkey : c.chunkFileName = recoveryKey fileId
      · rw [if_pos (Or.inl hkey)]
      · cases hthere : disk.read c.chunkFileName with
        | none => exact ite_self _
        | some bytes =>
            have hwhole := h c hc hkey (by rw [hthere]; nofun)
            rw [if_pos (Or.inr ((hmem _).mpr hwhole))]
    · intro name hkey hnames
      rw [read_purgeAll, if_neg]
      rintro (hname | hin)
      · exact hkey hname
      · obtain ⟨c, hc, hname, -⟩ := (hmem _).mp hin
        exact hnames c hc hname

end

variable {κ : Type}

/-- **A purge leaves nothing behind** exactly when no chunk file has become shorter than the
metadata says. -/
theorem purge_leaves_nothing_iff (codec : JsonCodec τ) (saved disk : Files) {fileId : String}
    (totalFileSize : Int) (statsList : List (ChunkDownloadStats κ)) (minChunkSize : Int)
    (deleteUselessChunks : Bool) (now : τ) (deletes : String → Bool) {content : Bytes}
    (hid : fileId ≠ "")
    (hwritten : (saveInfo codec saved fileId totalFileSize statsList minChunkSize
      deleteUselessChunks now deletes).read (recoveryKey fileId) = some content)
    (hread : disk.read (recoveryKey fileId) = some content)
    (hjson : codec.loads (codec.dumps
        ⟨fileId, totalFileSize, dtoChunks saved minChunkSize statsList, now⟩) =
      some ⟨fileId, totalFileSize, dtoChunks saved minChunkSize statsList, now⟩) :
    LeavesNothing disk (purgeAll codec disk fileId fun _ => true) fileId
        (dtoChunks saved minChunkSize statsList) ↔
      StillWhole disk fileId (dtoChunks saved minChunkSize statsList) := by
  obtain rfl := read_saveInfo_key hid hwritten
  exact leavesNothing_iff hread hjson

namespace RecoveryRun

/-- A chunk of one byte, finished, in the file `a`. -/
def exampleSaved : Files := saveBinaryData FileSystem.empty "a" [1]

def exampleStats : List (ChunkDownloadStats Unit) :=
  [{ chunkFileName := "a", range := ⟨0, some 0⟩, fileSize := some 2, bytesDownloaded := 1,
     status := .completed }]

theorem dtoChunks_exampleStats : dtoChunks exampleSaved 1 exampleStats = [⟨"a", 0, 0, 1⟩] := by
  decide

/-- The disk on which that was saved, and the file of the chunk was written again. -/
def exampleDisk (bytes : Bytes) : Files :=
  saveBinaryData (saveInfo exampleCodec exampleSaved "x" 2 exampleStats 1 true
    "2025-01-01T00:00:00+00:00" fun _ => true) "a" bytes

theorem read_exampleSaved : (saveInfo exampleCodec exampleSaved "x" 2 exampleStats 1 true
      "2025-01-01T00:00:00+00:00" fun _ => true).read (recoveryKey "x") =
    some (exampleCodec.dumps exampleState) := by
  rw [read_saveInfo _ _ (by decide) _ _ _ _ _ _ (by decide), if_pos rfl,
    dtoChunks_exampleStats]
  rfl

theorem read_exampleDisk_key (bytes : Bytes) :
    (exampleDisk bytes).read (recoveryKey "x") = some (exampleCodec.dumps exampleState) := by
  rw [exampleDisk, read_saveBinaryData_of_ne _ _ (by decide), read_exampleSaved]

theorem sizeOnDisk_exampleDisk (bytes : Bytes) :
    sizeOnDisk (exampleDisk bytes) "a" = bytes.length := by
  rw [sizeOnDisk, exampleDisk, read_saveBinaryData_self, Option.getD_some]

end RecoveryRun

open RecoveryRun

/-- A chunk file that has grown. -/
theorem purge_leaves_nothing_grown :
    LeavesNothing (exampleDisk [1, 2])
      (purgeAll exampleCodec (exampleDisk [1, 2]) "x" fun _ => true)
      "x" (dtoChunks exampleSaved 1 exampleStats) := by
  refine (purge_leaves_nothing_iff exampleCodec exampleSaved (exampleDisk [1, 2]) 2 exampleStats 1
    true "2025-01-01T00:00:00+00:00" (fun _ => true) (by decide) read_exampleSaved
    (read_exampleDisk_key _) ?_).mpr ?_
  · rw [dtoChunks_exampleStats]
    exact loads_dumps_exampleState
  · intro c hc _ _
    refine ⟨c, hc, rfl, ?_⟩
    rw [dtoChunks_exampleStats, List.mem_singleton] at hc
    rw [hc, sizeOnDisk_exampleDisk]
    decide

/-- A chunk file that has been emptied is still there after the purge, and its metadata is not. -/
theorem purge_leaves_shrunk :
    let purged := purgeAll exampleCodec (exampleDisk []) "x" fun _ => true
    purged.read (recoveryKey "x") = none ∧ purged.read "a" = some [] ∧
      ¬ LeavesNothing (exampleDisk []) purged "x" (dtoChunks exampleSaved 1 exampleStats) := by
  have hpurged : ∀ name, name ∉ purgedChunks exampleCodec (exampleDisk []) "x" := by
    intro name hmem
    obtain ⟨c, hc, rfl, hle⟩ :=
      (mem_purgedChunks (read_exampleDisk_key _) loads_dumps_exampleState).mp hmem
    rw [show exampleState.chunks = [⟨"a", 0, 0, 1⟩] from rfl, List.mem_singleton] at hc
    rw [hc, sizeOnDisk_exampleDisk] at hle
    exact absurd hle (by decide)
  have hleft : (purgeAll exampleCodec (exampleDisk []) "x" fun _ => true).read "a" = some [] := by
    rw [read_purgeAll, if_neg (not_or.mpr ⟨by decide, hpurged _⟩), exampleDisk,
      read_saveBinaryData_self]
  refine ⟨?_, hleft, fun h => ?_⟩
  · rw [read_purgeAll, if_pos (Or.inl rfl)]
  · have hgone := h.chunkFiles ⟨"a", 0, 0, 1⟩ (by
      rw [dtoChunks_exampleStats]
      exact List.mem_cons_self)
    rw [hleft] at hgone
    cases hgone

end SDownload
