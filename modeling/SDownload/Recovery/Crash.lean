import SDownload.Recovery.RoundTrip

/-!
# SDownload.Recovery.Crash

What a process that dies inside `save_info` leaves behind.

`save_info` has three kinds of effect on the storage directory: the metadata file
is opened for writing, which empties it, the new metadata is written into it, and
the useless chunks are deleted, side by side. A crash is a front of that row of
effects (`SaveCall.diskAfter`). Between the first and the second there is no
metadata at all, neither the old nor the new, and this is the only moment in which
both are lost (`save_atomic_iff`); the deletions come after the new metadata is
there, and do harm only where a chunk that is kept shares its file with one that is
not.
-/

namespace SDownload

variable {κ τ : Type}

/-! ### Effects -/

/-- An effect on the storage directory: `aiofiles.open(path, "wb")`, `f.write` of the data into the
file just opened, `aiofiles.os.remove`. -/
inductive StorageEffect
  | openWrite (key : String)
  | write (key : String) (data : Bytes)
  | delete (key : String)
  deriving Repr, DecidableEq

/-- The storage after an effect. -/
def StorageEffect.apply (files : Files) : StorageEffect → Files
  | .openWrite key => (files.openWrite key).2
  | .write key data =>
      match files.lookup key with
      | none => files
      | some ino => files.writeAt ino 0 data
  | .delete key => files.unlink key

/-- A call of `save_info`, over a disk. The deletions run concurrently; `deleted` are those that
succeed, in the order in which they happen. -/
structure SaveCall (κ τ : Type) where
  codec : JsonCodec τ
  files : Files
  fileId : String
  totalFileSize : Int
  statsList : List (ChunkDownloadStats κ)
  minChunkSize : Int
  deleteUselessChunks : Bool
  now : τ
  deleted : List String
  deleted_useless : ∀ name ∈ deleted, name ∈ chunksToDelete files minChunkSize statsList

namespace SaveCall

variable (call : SaveCall κ τ)

/-- `state_dto`. -/
def state : RecoveryStateDTO τ where
  fileId := call.fileId
  fileSize := call.totalFileSize
  chunks := dtoChunks call.files call.minChunkSize call.statsList
  updatedAt := call.now

/-- The effects of the call, in the order in which they happen. -/
def effects : List StorageEffect :=
  if call.fileId = "" then []
  else
    .openWrite (recoveryKey call.fileId) ::
      .write (recoveryKey call.fileId) (call.codec.dumps call.state) ::
        if call.deleteUselessChunks then call.deleted.map .delete else []

/-- The disk when the process dies after `n` effects. -/
def diskAfter (n : Nat) : Files :=
  (call.effects.take n).foldl StorageEffect.apply call.files

/-- What has been deleted by then. -/
def deletedBy (n : Nat) : List String :=
  if call.deleteUselessChunks then call.deleted.take (n - 2) else []

end SaveCall

/-- The chunks that metadata yields over a disk. -/
def RecoveryStateDTO.yields (state : RecoveryStateDTO τ) (files : Files) :
    List (ChunkDownloadStats κ) :=
  state.chunks.filterMap (validStats files)

/-- A crash after `n` effects is harmless: `load_info` returns what the old metadata yielded before
the call, or what the new metadata yields, and the chunks that were valid before the call and are
kept still have their files. -/
structure SaveCall.AtomicAt (call : SaveCall κ τ) (old : RecoveryStateDTO τ) (n : Nat) : Prop where
  loads :
    let loaded := (loadInfo call.codec (call.diskAfter n) call.fileId).map
      (DownloadInfo.chunksFinished (κ := κ))
    loaded = some (old.yields call.files) ∨ loaded = some (call.state.yields (call.diskAfter n))
  keeps : ∀ c ∈ old.chunks, c.bytes ≤ sizeOnDisk call.files c.chunkFileName →
    (∃ c' ∈ call.state.chunks, c'.chunkFileName = c.chunkFileName) →
      (call.diskAfter n).read c.chunkFileName ≠ none ∧
        (c.chunkFileName ≠ recoveryKey call.fileId →
          (call.diskAfter n).read c.chunkFileName = call.files.read c.chunkFileName)

namespace SaveCall

variable {call : SaveCall κ τ}

/-! ### The disk between two effects -/

theorem foldl_delete (names : List String) (files : Files) :
    (names.map StorageEffect.delete).foldl StorageEffect.apply files =
      names.foldl FileSystem.unlink files := by
  rw [List.foldl_map]
  rfl

theorem apply_write_openWrite (files : Files) (key : String) (data : Bytes) :
    StorageEffect.apply (StorageEffect.apply files (.openWrite key)) (.write key data) =
      saveBinaryData files key data := by
  simp only [StorageEffect.apply, FileSystem.lookup_openWrite_self]
  rfl

/-- Nothing happens to the disk before the first effect, or without a `file_id`. -/
theorem diskAfter_untouched {n : Nat} (h : call.fileId = "" ∨ n = 0) :
    call.diskAfter n = call.files := by
  rcases h with hid | rfl
  · rw [diskAfter, effects, if_pos hid, List.take_nil]
    rfl
  · rfl

/-- After the first effect the metadata file is empty. -/
theorem read_diskAfter_one (hid : call.fileId ≠ "") :
    (call.diskAfter 1).read (recoveryKey call.fileId) = some [] := by
  rw [diskAfter, effects, if_neg hid]
  exact FileSystem.read_openWrite_self

/-- After the write, with some of the deletions. -/
theorem diskAfter_written (hid : call.fileId ≠ "") {n : Nat} (hn : 2 ≤ n) :
    call.diskAfter n = (call.deletedBy n).foldl FileSystem.unlink
      (saveBinaryData call.files (recoveryKey call.fileId) (call.codec.dumps call.state)) := by
  obtain ⟨k, rfl⟩ := Nat.exists_eq_add_of_le hn
  rw [diskAfter, effects, if_neg hid, Nat.add_comm 2 k, List.take_succ_cons, List.take_succ_cons,
    List.foldl_cons, List.foldl_cons, apply_write_openWrite, deletedBy, Nat.add_sub_cancel]
  split
  · rw [← List.map_take, foldl_delete]
  · rw [List.take_nil]
    rfl

/-- All effects together are `save_info`. -/
theorem foldl_effects (call : SaveCall κ τ) (deletes : String → Bool)
    (hdeleted : call.deleted =
      (chunksToDelete call.files call.minChunkSize call.statsList).filter deletes) :
    call.effects.foldl StorageEffect.apply call.files =
      saveInfo call.codec call.files call.fileId call.totalFileSize call.statsList
        call.minChunkSize call.deleteUselessChunks call.now deletes := by
  by_cases hid : call.fileId = ""
  · rw [effects, if_pos hid, saveInfo, if_pos hid]
    rfl
  · rw [effects, if_neg hid, saveInfo, if_neg hid, List.foldl_cons, List.foldl_cons,
      apply_write_openWrite]
    split
    · rw [foldl_delete, hdeleted]
      rfl
    · rfl

theorem read_diskAfter (hid : call.fileId ≠ "") {n : Nat} (hn : 2 ≤ n) (name : String) :
    (call.diskAfter n).read name =
      if name ∈ call.deletedBy n then none
      else if name = recoveryKey call.fileId then some (call.codec.dumps call.state)
      else call.files.read name := by
  rw [diskAfter_written hid hn]
  by_cases hmem : name ∈ call.deletedBy n
  · rw [if_pos hmem, read_foldl_unlink_of_mem _ hmem]
  · rw [if_neg hmem, read_foldl_unlink _ _ hmem]
    by_cases hname : name = recoveryKey call.fileId
    · rw [if_pos hname, hname, read_saveBinaryData_self]
    · rw [if_neg hname, read_saveBinaryData_of_ne _ _ hname]

/-! ### What is loaded there -/

/-- Where the metadata file holds what was dumped, `load_info` returns what it yields. -/
theorem yields_of_read {codec : JsonCodec τ} {files : Files} {fileId : String}
    {state : RecoveryStateDTO τ} (hjson : codec.loads (codec.dumps state) = some state)
    (hread : files.read (recoveryKey fileId) = some (codec.dumps state)) :
    (loadInfo codec files fileId).map (DownloadInfo.chunksFinished (κ := κ)) =
      some (state.yields files) := by
  rw [loadInfo_of_read hread hjson, Option.map_some]
  rfl

/-- Between the truncating open and the write there is nothing to load. -/
theorem not_atomicAt_opened {old : RecoveryStateDTO τ} (hid : call.fileId ≠ "")
    (hempty : call.codec.loads [] = none) : ¬ call.AtomicAt old 1 := by
  intro h
  have hload : loadInfo (κ := κ) call.codec (call.diskAfter 1) call.fileId = none :=
    loadInfo_of_garbled (read_diskAfter_one hid) hempty
  have hloads := h.loads
  simp only [hload, Option.map_none, reduceCtorEq, or_self] at hloads

end SaveCall

/-- **A crash inside `save_info`** is harmless exactly before its first effect, and after the write
as long as nothing was deleted that the metadata or a valid chunk that is kept is read from. -/
theorem save_atomic_iff (call : SaveCall κ τ) (old : RecoveryStateDTO τ)
    (hsaved : call.files.read (recoveryKey call.fileId) = some (call.codec.dumps old))
    (hold : call.codec.loads (call.codec.dumps old) = some old)
    (hnew : call.codec.loads (call.codec.dumps call.state) = some call.state)
    (hempty : call.codec.loads [] = none) (n : Nat) :
    call.AtomicAt old n ↔
      call.fileId = "" ∨ n = 0 ∨
        2 ≤ n ∧ recoveryKey call.fileId ∉ call.deletedBy n ∧
          ∀ c ∈ old.chunks, c.bytes ≤ sizeOnDisk call.files c.chunkFileName →
            (∃ s ∈ call.statsList, Persists call.files call.minChunkSize s ∧
              s.chunkFileName = c.chunkFileName) →
            c.chunkFileName ∉ call.deletedBy n := by
  have hkept : ∀ c : RecoveryChunkDTO,
      (∃ c' ∈ call.state.chunks, c'.chunkFileName = c.chunkFileName) ↔
        ∃ s ∈ call.statsList, Persists call.files call.minChunkSize s ∧
          s.chunkFileName = c.chunkFileName := by
    intro c
    simp only [SaveCall.state, dtoChunks_eq, List.mem_map, List.mem_filter, decide_eq_true_eq]
    constructor
    · rintro ⟨_, ⟨s, ⟨hs, hpersists⟩, rfl⟩, hname⟩
      exact ⟨s, hs, hpersists, hname⟩
    · rintro ⟨s, hs, hpersists, hname⟩
      exact ⟨_, ⟨s, ⟨hs, hpersists⟩, rfl⟩, hname⟩
  -- a chunk that is kept has a file
  have hfile : ∀ s : ChunkDownloadStats κ, Persists call.files call.minChunkSize s →
      call.files.read s.chunkFileName ≠ none := by
    intro s hpersists hnone
    have hsize := hpersists.1
    have hpos := hpersists.2.1
    rw [sizeOnDisk, hnone, Option.getD_none, List.length_nil] at hsize
    omega
  by_cases huntouched : call.fileId = "" ∨ n = 0
  · refine iff_of_true ⟨Or.inl ?_, ?_⟩ (huntouched.imp_right Or.inl)
    · rw [SaveCall.diskAfter_untouched huntouched]
      exact SaveCall.yields_of_read hold hsaved
    · intro c _ _ hc
      obtain ⟨s, -, hpersists, hname⟩ := (hkept c).mp hc
      rw [SaveCall.diskAfter_untouched huntouched]
      exact ⟨hname ▸ hfile s hpersists, fun _ => rfl⟩
  · obtain ⟨hid, hn⟩ := not_or.mp huntouched
    simp only [hid, hn, false_or]
    by_cases hone : n = 1
    · subst hone
      exact iff_of_false (SaveCall.not_atomicAt_opened hid hempty) (by omega)
    · have htwo : 2 ≤ n := by omega
      have hread := SaveCall.read_diskAfter hid htwo
      constructor
      · intro h
        refine ⟨htwo, ?_, ?_⟩
        · intro hmem
          have hnone := hread (recoveryKey call.fileId)
          rw [if_pos hmem] at hnone
          have hloads := h.loads
          simp only [loadInfo_of_missing hnone, Option.map_none, reduceCtorEq, or_self] at hloads
        · intro c hc hvalid hs hmem
          have hthere := (h.keeps c hc hvalid ((hkept c).mpr hs)).1
          rw [hread, if_pos hmem] at hthere
          exact hthere rfl
      · rintro ⟨-, hkey, hchunks⟩
        refine ⟨Or.inr (SaveCall.yields_of_read hnew ?_), ?_⟩
        · rw [hread, if_neg hkey, if_pos rfl]
        · intro c hc hvalid hs
          have hs' := (hkept c).mp hs
          rw [hread, if_neg (hchunks c hc hvalid hs')]
          obtain ⟨s, -, hpersists, hname⟩ := hs'
          refine ⟨?_, fun hne => if_neg hne⟩
          split
          · exact Option.some_ne_none _
          · exact hname ▸ hfile s hpersists

/-! ### Saving the same chunk again -/

theorem exampleCodec_loads_nil : RecoveryRun.exampleCodec.loads [] = none := by
  have hne : ([] : Bytes) ≠ RecoveryRun.exampleJson := by
    intro h
    have hempty := h.symm
    unfold RecoveryRun.exampleJson at hempty
    have hnil := List.map_eq_nil_iff.mp hempty
    exact absurd (String.toList_eq_nil_iff.mp hnil) (by decide)
  simp only [RecoveryRun.exampleCodec, if_neg hne]

/-- A chunk with one byte, saved, and saved again. -/
def saveAgain : SaveCall Unit String where
  codec := RecoveryRun.exampleCodec
  files := saveBinaryData (saveBinaryData FileSystem.empty "a" [1]) (recoveryKey "x")
    (RecoveryRun.exampleCodec.dumps RecoveryRun.exampleState)
  fileId := "x"
  totalFileSize := 2
  statsList := [{ chunkFileName := "a", range := ⟨0, some 1⟩, fileSize := some 2,
                  bytesDownloaded := 1, status := .downloading }]
  minChunkSize := 1
  deleteUselessChunks := true
  now := "2025-01-01T00:00:00+00:00"
  deleted := []
  deleted_useless := by simp

theorem saveAgain_saved : saveAgain.files.read (recoveryKey saveAgain.fileId) =
    some (saveAgain.codec.dumps RecoveryRun.exampleState) :=
  read_saveBinaryData_self _ _ _

theorem saveAgain_state : saveAgain.state = RecoveryRun.exampleState := by
  have hsize : sizeOnDisk saveAgain.files "a" = 1 := by
    have hread : saveAgain.files.read "a" = some [1] :=
      (read_saveBinaryData_of_ne _ _ (by decide)).trans (read_saveBinaryData_self _ _ _)
    rw [sizeOnDisk, hread]
    rfl
  have hpersists : ∀ s ∈ saveAgain.statsList,
      Persists saveAgain.files saveAgain.minChunkSize s := by
    intro s hs
    obtain rfl := List.mem_singleton.mp hs
    exact ⟨hsize, by decide, Or.inr (by decide)⟩
  have hchunks : dtoChunks saveAgain.files saveAgain.minChunkSize saveAgain.statsList =
      saveAgain.statsList.map RecoveryRun.dtoOf := by
    rw [dtoChunks_eq, List.filter_eq_self.mpr fun s hs => decide_eq_true (hpersists s hs)]
  rw [SaveCall.state, hchunks]
  rfl

/-- After the write, the new metadata is in force. -/
theorem save_atomic_iff_written : saveAgain.AtomicAt RecoveryRun.exampleState 2 :=
  (save_atomic_iff saveAgain RecoveryRun.exampleState saveAgain_saved
    RecoveryRun.loads_dumps_exampleState
    (by rw [saveAgain_state]; exact RecoveryRun.loads_dumps_exampleState)
    exampleCodec_loads_nil 2).mpr (Or.inr (Or.inr ⟨le_rfl, by decide, by decide⟩))

/-- A process that dies between opening the metadata file and writing it has lost the old metadata
and the new. -/
theorem saved_state_lost :
    saveAgain.files.read (recoveryKey saveAgain.fileId) =
        some (saveAgain.codec.dumps RecoveryRun.exampleState) ∧
      loadInfo (κ := Unit) saveAgain.codec (saveAgain.diskAfter 1) saveAgain.fileId = none ∧
      ¬ saveAgain.AtomicAt RecoveryRun.exampleState 1 := by
  refine ⟨saveAgain_saved, ?_, ?_⟩
  · exact loadInfo_of_garbled (SaveCall.read_diskAfter_one (by decide)) exampleCodec_loads_nil
  · exact SaveCall.not_atomicAt_opened (by decide) exampleCodec_loads_nil

end SDownload
