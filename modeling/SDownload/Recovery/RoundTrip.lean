import Mathlib.Data.List.Nodup
import SDownload.Recovery.RecoveryDownload

/-!
# SDownload.Recovery.RoundTrip

`load_info` after `save_info`, when nothing fails and nothing else touches the
disk: the chunks that were persisted come back, each as a finished chunk of the
bytes it has (`recovery_round_trip`).

The two halves meet in the disk size of a chunk's file. It is what `save_info`
measured, no deletion changes it for a chunk that is kept (`read_saved_kept`), and
so it is what `load_info` asks for, and what a second `save_info` finds again.
-/

namespace SDownload

variable {κ τ : Type}

section

variable {files : Files} {fileId : String} {minChunkSize : Int}
  {statsList : List (ChunkDownloadStats κ)}

/-- With a file for each chunk, the file of a chunk that is kept is not one that is deleted. -/
theorem not_mem_chunksToDelete (hnames : (statsList.map (·.chunkFileName)).Nodup)
    {s : ChunkDownloadStats κ} (hs : s ∈ statsList) (hkept : Persists files minChunkSize s) :
    s.chunkFileName ∉ chunksToDelete files minChunkSize statsList := by
  intro hmem
  obtain ⟨s', hs', hname, hnot, -⟩ := mem_chunksToDelete.mp hmem
  obtain rfl : s' = s := List.inj_on_of_nodup_map hnames hs' hs hname
  exact hnot hkept

theorem key_not_mem_chunksToDelete (hkey : ∀ s ∈ statsList, s.chunkFileName ≠ recoveryKey fileId) :
    recoveryKey fileId ∉ chunksToDelete files minChunkSize statsList := by
  intro hmem
  obtain ⟨s, hs, hname, -⟩ := mem_chunksToDelete.mp hmem
  exact hkey s hs hname

/-- A name among those to unlink is gone. -/
theorem read_foldl_unlink_of_mem {names : List String} (files : Files) {name : String}
    (hname : name ∈ names) : (names.foldl FileSystem.unlink files).read name = none := by
  induction names generalizing files with
  | nil => cases hname
  | cons n rest ih =>
      rw [List.foldl_cons]
      by_cases hrest : name ∈ rest
      · exact ih _ hrest
      · have heq : name = n := (List.mem_cons.mp hname).resolve_right hrest
        rw [read_foldl_unlink _ _ hrest, FileSystem.read_unlink, if_pos heq]

/-- The metadata that is left after `save_info`, if any, is what it wrote. -/
theorem read_saveInfo_key {codec : JsonCodec τ} {totalFileSize : Int} {deleteUselessChunks : Bool}
    {now : τ} {deletes : String → Bool} {content : Bytes} (hid : fileId ≠ "")
    (h : (saveInfo codec files fileId totalFileSize statsList minChunkSize deleteUselessChunks now
      deletes).read (recoveryKey fileId) = some content) :
    content = codec.dumps ⟨fileId, totalFileSize, dtoChunks files minChunkSize statsList, now⟩ := by
  rw [saveInfo, if_neg hid] at h
  dsimp only at h
  split at h
  · by_cases hmem : recoveryKey fileId ∈
        (chunksToDelete files minChunkSize statsList).filter deletes
    · rw [read_foldl_unlink_of_mem _ hmem] at h
      cases h
    · rw [read_foldl_unlink _ _ hmem, read_saveBinaryData_self] at h
      exact (Option.some.inj h).symm
  · rw [read_saveBinaryData_self] at h
    exact (Option.some.inj h).symm

/-- A chunk that is recovered has the size it was saved with. -/
theorem validStats_dtoOf {disk : Files} {s : ChunkDownloadStats κ}
    (hread : disk.read s.chunkFileName = files.read s.chunkFileName)
    (hkept : Persists files minChunkSize s) :
    (validStats disk (RecoveryRun.dtoOf s) : Option (ChunkDownloadStats κ)) =
      some (RecoveryRun.recoveredOf s) := by
  have hsize : (RecoveryRun.dtoOf s).bytes ≤
      sizeOnDisk disk (RecoveryRun.dtoOf s).chunkFileName := by
    show s.bytesDownloaded ≤ sizeOnDisk disk s.chunkFileName
    rw [sizeOnDisk, hread]
    exact hkept.1.ge
  rw [validStats, if_pos hsize]
  rfl

/-- A recovered chunk is kept again, whatever the smallest size, under the same record. -/
theorem Persists.recoveredOf {disk : Files} {s : ChunkDownloadStats κ}
    (hread : disk.read s.chunkFileName = files.read s.chunkFileName)
    (hkept : Persists files minChunkSize s) (minChunkSize' : Int) :
    Persists disk minChunkSize' (RecoveryRun.recoveredOf s) ∧
      RecoveryRun.dtoOf (RecoveryRun.recoveredOf s) = RecoveryRun.dtoOf s := by
  refine ⟨⟨?_, hkept.2.1, Or.inl rfl⟩, rfl⟩
  show sizeOnDisk disk s.chunkFileName = s.bytesDownloaded
  rw [sizeOnDisk, hread]
  exact hkept.1

end

/-- **The recovery round trip.** With a file of its own for each chunk: what was persisted is
recovered, in order; its files are untouched; with the flag set, the files with bytes of all other
chunks are gone; and what is recovered is persisted again as it was. -/
theorem recovery_round_trip (codec : JsonCodec τ) (files : Files) (fileId : String)
    (totalFileSize : Int) (statsList : List (ChunkDownloadStats κ)) (minChunkSize : Int)
    (deleteUselessChunks : Bool) (now : τ) (hid : fileId ≠ "")
    (hnames : (statsList.map (·.chunkFileName)).Nodup)
    (hkey : ∀ s ∈ statsList, s.chunkFileName ≠ recoveryKey fileId)
    (hjson : codec.loads (codec.dumps
        ⟨fileId, totalFileSize, dtoChunks files minChunkSize statsList, now⟩) =
      some ⟨fileId, totalFileSize, dtoChunks files minChunkSize statsList, now⟩) :
    let saved := saveInfo codec files fileId totalFileSize statsList minChunkSize
      deleteUselessChunks now fun _ => true
    let kept := statsList.filter fun s => Persists files minChunkSize s
    loadInfo codec saved fileId =
        some ⟨fileId, totalFileSize, kept.map RecoveryRun.recoveredOf, now⟩ ∧
      (∀ s ∈ kept, saved.read s.chunkFileName = files.read s.chunkFileName) ∧
      (deleteUselessChunks = true → ∀ s ∈ statsList, ¬ Persists files minChunkSize s →
        0 < sizeOnDisk files s.chunkFileName → saved.read s.chunkFileName = none) ∧
      ∀ (totalFileSize' minChunkSize' : Int) (deleteUselessChunks' : Bool) (now' : τ),
        (saveInfo codec saved fileId totalFileSize' (kept.map RecoveryRun.recoveredOf)
            minChunkSize' deleteUselessChunks' now' fun _ => true).read (recoveryKey fileId) =
          some (codec.dumps
            ⟨fileId, totalFileSize', dtoChunks files minChunkSize statsList, now'⟩) := by
  intro saved kept
  have hread : ∀ {name : String}, name ∉ chunksToDelete files minChunkSize statsList →
      saved.read name = if name = recoveryKey fileId then
        some (codec.dumps ⟨fileId, totalFileSize, dtoChunks files minChunkSize statsList, now⟩)
      else files.read name :=
    fun hname => read_saveInfo codec files hid _ _ _ _ _ _ hname
  have hmem : ∀ {s}, s ∈ kept → s ∈ statsList ∧ Persists files minChunkSize s := fun hs =>
    ⟨(List.mem_filter.mp hs).1, of_decide_eq_true (List.mem_filter.mp hs).2⟩
  have hkept : ∀ s ∈ kept, saved.read s.chunkFileName = files.read s.chunkFileName := by
    intro s hs
    obtain ⟨hin, hpersists⟩ := hmem hs
    rw [hread (not_mem_chunksToDelete hnames hin hpersists), if_neg (hkey s hin)]
  refine ⟨?_, hkept, ?_, ?_⟩
  · -- the files of the records that were kept are as they were, so each record is valid
    have hmeta := hread (@key_not_mem_chunksToDelete κ files fileId minChunkSize statsList hkey)
    rw [if_pos rfl] at hmeta
    rw [loadInfo_of_read hmeta hjson]
    dsimp only
    rw [dtoChunks_eq, List.filterMap_map, ← List.filterMap_eq_map]
    have hvalid : kept.filterMap (validStats saved ∘ RecoveryRun.dtoOf) =
        kept.filterMap (some ∘ RecoveryRun.recoveredOf) :=
      List.filterMap_congr fun s hs => validStats_dtoOf (hkept s hs) (hmem hs).2
    rw [hvalid]
  · -- a record left out whose file has bytes is listed for deletion
    intro hflag s hs hnot hsize
    have hdelete : s.chunkFileName ∈
        (chunksToDelete files minChunkSize statsList).filter fun _ => true := by
      refine List.mem_filter.mpr ⟨mem_chunksToDelete.mpr ⟨s, hs, rfl, hnot, ?_⟩, rfl⟩
      exact fun hempty => hsize.ne' hempty.2
    show (saveInfo codec files fileId totalFileSize statsList minChunkSize deleteUselessChunks now
      fun _ => true).read s.chunkFileName = none
    rw [saveInfo, if_neg hid, if_pos hflag]
    exact read_foldl_unlink_of_mem _ hdelete
  · -- every recovered record persists again, whatever the least size is now
    intro totalFileSize' minChunkSize' deleteUselessChunks' now'
    have hagain : ∀ s ∈ kept, Persists saved minChunkSize' (RecoveryRun.recoveredOf s) :=
      fun s hs => ((hmem hs).2.recoveredOf (hkept s hs) minChunkSize').1
    have hsame : dtoChunks saved minChunkSize' (kept.map RecoveryRun.recoveredOf) =
        dtoChunks files minChunkSize statsList := by
      rw [dtoChunks_eq, dtoChunks_eq, List.filter_eq_self.mpr, List.map_map]
      · rfl
      · intro s hs
        obtain ⟨s', hs', rfl⟩ := List.mem_map.mp hs
        exact decide_eq_true (hagain s' hs')
    have hstays : recoveryKey fileId ∉
        chunksToDelete saved minChunkSize' (kept.map RecoveryRun.recoveredOf) := by
      refine key_not_mem_chunksToDelete fun s hs => ?_
      obtain ⟨s', hs', rfl⟩ := List.mem_map.mp hs
      exact hkey s' (hmem hs').1
    rw [read_saveInfo codec saved hid _ _ _ _ _ _ hstays, if_pos rfl, hsame]

/-! ### One byte of two -/

namespace RecoveryRun

/-- The metadata of a chunk of one byte, and its JSON. -/
def exampleState : RecoveryStateDTO String where
  fileId := "x"
  fileSize := 2
  chunks := [⟨"a", 0, 0, 1⟩]
  updatedAt := "2025-01-01T00:00:00+00:00"

def exampleText : String :=
  "\x7b\n    \"file_id\": \"x\",\n    \"file_size\": 2,\n    \"chunks\": [\n        \x7b\n" ++
  "            \"chunk_file_name\": \"a\",\n            \"start\": 0,\n            \"end\": 0,\n" ++
  "            \"bytes\": 1\n        \x7d\n    ],\n" ++
  "    \"updated_at\": \"2025-01-01T00:00:00+00:00\"\n\x7d"

@[irreducible] def exampleJson : Bytes := exampleText.toList.map fun c => UInt8.ofNat c.toNat

def exampleCodec : JsonCodec String where
  dumps state := if state = exampleState then exampleJson else []
  loads bytes := if bytes = exampleJson then some exampleState else none

theorem loads_dumps_exampleState :
    exampleCodec.loads (exampleCodec.dumps exampleState) = some exampleState := by
  simp only [exampleCodec, if_true]

end RecoveryRun

/-- A chunk with a byte of two, and one whose file is not what its counter says. -/
theorem recovery_round_trip_two :
    let disk : Files := saveBinaryData (saveBinaryData FileSystem.empty "a" [1]) "b" [7, 7]
    let found : ChunkDownloadStats Unit :=
      { chunkFileName := "a", range := ⟨0, some 0⟩, fileSize := some 1, bytesDownloaded := 1,
        status := .completed }
    let statsList : List (ChunkDownloadStats Unit) :=
      [{ chunkFileName := "b", range := ⟨1, some 1⟩, fileSize := some 1, bytesDownloaded := 1,
         status := .error },
       { chunkFileName := "a", range := ⟨0, none⟩, fileSize := some 2, bytesDownloaded := 1,
         status := .downloading }]
    loadInfo RecoveryRun.exampleCodec
        (saveInfo RecoveryRun.exampleCodec disk "x" 2 statsList 1 true
          "2025-01-01T00:00:00+00:00" fun _ => true) "x" =
      some ⟨"x", 2, [found], "2025-01-01T00:00:00+00:00"⟩ := by
  intro disk found statsList
  have hchunks : dtoChunks disk 1 statsList = [⟨"a", 0, 0, 1⟩] := by decide
  have htrip := recovery_round_trip RecoveryRun.exampleCodec disk "x" 2 statsList 1 true
    "2025-01-01T00:00:00+00:00" (by decide) (by decide) (by decide) (by
      rw [hchunks]
      exact RecoveryRun.loads_dumps_exampleState)
  exact htrip.1.trans (by decide)

end SDownload
