import SDownload.Lib.Registers
import SDownload.Models.Names
import SDownload.Recovery.Crash
import SDownload.Recovery.Metadata
import SDownload.Recovery.Purge

/-!
# SDownload.Recovery.Sessions

The recovery metadata over the whole life of a storage directory: any number of
processes save, load, delete and purge in it, for any number of downloads, and any
of them may die in the middle of a save.

To its clients the directory is a family of registers, one for each `file_id`. A
save that got its metadata onto the disk sets the register. One that died before
that, having opened the file, clears it: what it had written so far is no JSON
(`loads_of_front`), so that a mixture of old and new metadata is never loaded.
`read_registers` is the refinement, and `load_info_iff` says what it means for
`load_info`: it returns what the last save of this `file_id` wrote, provided nothing
happened to it since.
-/

namespace SDownload

variable {κ : Type}

abbrev RecoveryState := RecoveryStateDTO DateTime

abbrev RecoveryEvent := RegisterEvent String RecoveryState

/-! ### Keys -/

theorem recoveryKey_inj {fileId fileId' : String} (h : recoveryKey fileId = recoveryKey fileId') :
    fileId = fileId' := by
  have hlist := congrArg String.toList h
  simp only [recoveryKey, String.toList_append, List.append_cancel_right_eq,
    List.append_cancel_left_eq] at hlist
  exact String.toList_inj.mp hlist

/-- A name that no metadata file has. -/
def NoKey (name : String) : Prop := ∀ fileId, name ≠ recoveryKey fileId

/-- The names of chunk files end in `.sdownload`, those of metadata files in `.json`. -/
theorem noKey_formatChunkFileName (r : ChunkRange) (fileName : String) :
    NoKey (formatChunkFileName r fileName) := by
  intro fileId h
  have hlast := congrArg (fun name : String => name.toList.reverse.head?) h
  simp [toList_formatChunkFileName, recoveryKey, String.toList_append] at hlast

/-! ### A save that is cut short -/

namespace SaveCall

/-- The disk when the process dies having written `m` bytes of the metadata. -/
def diskTorn (call : SaveCall κ DateTime) (m : Nat) : Files :=
  [StorageEffect.openWrite (recoveryKey call.fileId),
    .write (recoveryKey call.fileId) ((call.codec.dumps call.state).take m)].foldl
      StorageEffect.apply call.files

/-- What a save does to the registers that the process survives for `n` effects. -/
def recoveryEvent (call : SaveCall κ DateTime) (n : Nat) : RecoveryEvent :=
  if call.fileId = "" ∨ n = 0 then .keep
  else if n = 1 then .clear call.fileId
  else .set call.fileId call.state

end SaveCall

/-- A step in the life of the directory. -/
inductive RecoveryStep (κ : Type) : Files → RecoveryEvent → Files → Prop
  | save (call : SaveCall κ DateTime) (n : Nat) (codec : call.codec = jsonCodec)
      (utc : call.now.IsUtc) (names : ∀ s ∈ call.statsList, NoKey s.chunkFileName) :
      RecoveryStep κ call.files (call.recoveryEvent n) (call.diskAfter n)
  | torn (call : SaveCall κ DateTime) (m : Nat) (codec : call.codec = jsonCodec)
      (named : call.fileId ≠ "") (short : m < (jsonCodec.dumps call.state).length) :
      RecoveryStep κ call.files (.clear call.fileId) (call.diskTorn m)
  | deleteInfo (files : Files) (fileId : String) :
      RecoveryStep κ files (.clear fileId) (files.unlink (recoveryKey fileId))
  | purgeAll (files : Files) (fileId : String) (deletes : String → Bool) :
      RecoveryStep κ files (if deletes (recoveryKey fileId) then .clear fileId else .keep)
        (SDownload.purgeAll jsonCodec files fileId deletes)
  | others (files files' : Files)
      (untouched : ∀ fileId, files'.read (recoveryKey fileId) = files.read (recoveryKey fileId)) :
      RecoveryStep κ files .keep files'

/-- A life of the directory, from its beginning. -/
inductive Sessions (κ : Type) (start : Files) : List RecoveryEvent → Files → Prop
  | start : Sessions κ start [] start
  | step {events : List RecoveryEvent} {e : RecoveryEvent} {files files' : Files}
      (life : Sessions κ start events files) (moves : RecoveryStep κ files e files') :
      Sessions κ start (events ++ [e]) files'

/-! ### What a directory holds -/

/-- The metadata that is on disk for a `file_id`. -/
def savedState (files : Files) (fileId : String) : Option RecoveryState :=
  (files.read (recoveryKey fileId)).bind jsonCodec.loads

/-- The directory holds what the registers hold, each state under its own `file_id`, and no chunk
file is a metadata file. -/
structure Holds (files : Files) (regs : String → Option RecoveryState) : Prop where
  saved : ∀ fileId, savedState files fileId = regs fileId
  fileId : ∀ {fileId state}, regs fileId = some state → state.fileId = fileId
  chunks : ∀ {fileId state}, regs fileId = some state → ∀ c ∈ state.chunks, NoKey c.chunkFileName

namespace Holds

variable {files files' : Files} {regs : String → Option RecoveryState}

/-- Nothing happens to the metadata. -/
theorem keep (h : Holds files regs)
    (hread : ∀ id, files'.read (recoveryKey id) = files.read (recoveryKey id)) :
    Holds files' regs where
  saved id := by rw [savedState, hread, ← savedState, h.saved]
  fileId := h.fileId
  chunks := h.chunks

/-- The metadata of one download changes. -/
theorem update (h : Holds files regs) {id : String} {v : Option RecoveryState}
    (hothers : ∀ id', id' ≠ id → files'.read (recoveryKey id') = files.read (recoveryKey id'))
    (hown : savedState files' id = v)
    (hstate : ∀ state, v = some state →
      state.fileId = id ∧ ∀ c ∈ state.chunks, NoKey c.chunkFileName) :
    Holds files' (Function.update regs id v) := by
  have hcases : ∀ {id' state}, Function.update regs id v id' = some state →
      state.fileId = id' ∧ ∀ c ∈ state.chunks, NoKey c.chunkFileName := by
    intro id' state hreg
    by_cases hid : id' = id
    · subst hid
      rw [Function.update_self] at hreg
      exact hstate state hreg
    · rw [Function.update_of_ne hid] at hreg
      exact ⟨h.fileId hreg, h.chunks hreg⟩
  refine ⟨fun id' => ?_, fun hreg => (hcases hreg).1, fun hreg => (hcases hreg).2⟩
  by_cases hid : id' = id
  · subst hid
    rw [Function.update_self, hown]
  · rw [Function.update_of_ne hid, savedState, hothers id' hid, ← savedState, h.saved]

/-- The metadata of one download is no JSON any more, or gone. -/
theorem clear (h : Holds files regs) {id : String}
    (hothers : ∀ id', id' ≠ id → files'.read (recoveryKey id') = files.read (recoveryKey id'))
    (hown : savedState files' id = none) : Holds files' (Function.update regs id none) :=
  h.update hothers hown fun _ hstate => nomatch hstate

end Holds

/-! ### What a step does to it -/

theorem savedState_of_read {files : Files} {id : String} {content : Bytes}
    (h : files.read (recoveryKey id) = some content) :
    savedState files id = jsonCodec.loads content := by
  rw [savedState, h, Option.bind_some]

theorem savedState_of_missing {files : Files} {id : String}
    (h : files.read (recoveryKey id) = none) : savedState files id = none := by
  rw [savedState, h, Option.bind_none]

theorem recoveryKey_ne {id id' : String} (h : id' ≠ id) : recoveryKey id' ≠ recoveryKey id :=
  fun hkey => h (recoveryKey_inj hkey)

namespace SaveCall

variable {call : SaveCall κ DateTime}

/-- Only chunk files are deleted. -/
theorem key_not_mem_deletedBy (names : ∀ s ∈ call.statsList, NoKey s.chunkFileName) (n : Nat)
    (id : String) : recoveryKey id ∉ call.deletedBy n := by
  intro hmem
  have hdeleted : recoveryKey id ∈ call.deleted := by
    rw [deletedBy] at hmem
    split at hmem
    · exact List.mem_of_mem_take hmem
    · cases hmem
  obtain ⟨s, hs, hname, -⟩ := mem_chunksToDelete.mp (call.deleted_useless _ hdeleted)
  exact names s hs id hname

theorem noKey_state (names : ∀ s ∈ call.statsList, NoKey s.chunkFileName) :
    ∀ c ∈ call.state.chunks, NoKey c.chunkFileName := by
  intro c hc
  rw [state, dtoChunks_eq] at hc
  obtain ⟨s, hs, rfl⟩ := List.mem_map.mp hc
  exact names s (List.mem_filter.mp hs).1

theorem diskTorn_eq (call : SaveCall κ DateTime) (m : Nat) :
    call.diskTorn m = saveBinaryData call.files (recoveryKey call.fileId)
      ((call.codec.dumps call.state).take m) :=
  apply_write_openWrite _ _ _

/-- A save that was cut short is one that lost the metadata. -/
theorem holds_diskTorn {regs : String → Option RecoveryState} (h : Holds call.files regs) {m : Nat}
    (codec : call.codec = jsonCodec) (hm : m < (jsonCodec.dumps call.state).length) :
    Holds (call.diskTorn m) (Function.update regs call.fileId none) := by
  rw [diskTorn_eq, codec]
  refine h.clear (fun id hid => read_saveBinaryData_of_ne _ _ (recoveryKey_ne hid)) ?_
  have hshort : ¬ ((jsonCodec.dumps call.state).length ≤ m ∧ call.state.updatedAt.Readable) :=
    fun hwhole => Nat.not_le_of_lt hm hwhole.1
  rw [savedState_of_read (read_saveBinaryData_self _ _ _)]
  rw [loads_take_dumps, if_neg hshort]

theorem holds_diskAfter {regs : String → Option RecoveryState} (h : Holds call.files regs) (n : Nat)
    (codec : call.codec = jsonCodec) (utc : call.now.IsUtc)
    (names : ∀ s ∈ call.statsList, NoKey s.chunkFileName) :
    Holds (call.diskAfter n) ((call.recoveryEvent n).apply regs) := by
  rw [recoveryEvent]
  by_cases huntouched : call.fileId = "" ∨ n = 0
  · rw [if_pos huntouched, diskAfter_untouched huntouched]
    exact h
  · obtain ⟨hid, hn⟩ := not_or.mp huntouched
    rw [if_neg huntouched]
    by_cases hone : n = 1
    · -- the file is open and still empty
      subst hone
      have hopened : call.diskAfter 1 = (call.files.openWrite (recoveryKey call.fileId)).2 := by
        rw [diskAfter, effects, if_neg hid]
        rfl
      rw [if_pos rfl]
      refine h.clear (fun id hne => ?_) ?_
      · rw [hopened]
        exact FileSystem.read_openWrite_of_ne (recoveryKey_ne hne)
      · rw [savedState_of_read (read_diskAfter_one hid)]
        exact loads_of_front (List.nil_append _).symm (dumps_ne_nil call.state)
    · have hread := read_diskAfter hid (show 2 ≤ n by omega)
      rw [if_neg hone]
      refine h.update (fun id hne => ?_) ?_ ?_
      · rw [hread, if_neg (key_not_mem_deletedBy names n id), if_neg (recoveryKey_ne hne)]
      · have hown := hread (recoveryKey call.fileId)
        rw [if_neg (key_not_mem_deletedBy names n _), if_pos rfl, codec] at hown
        rw [savedState_of_read hown]
        exact loads_dumps_of_utc utc
      · intro state hstate
        obtain rfl := Option.some.inj hstate
        exact ⟨rfl, noKey_state names⟩

end SaveCall

/-- A purge deletes no metadata but its own. -/
theorem noKey_purgedChunks {files : Files} {regs : String → Option RecoveryState}
    (h : Holds files regs) (id : String) :
    ∀ name ∈ purgedChunks jsonCodec files id, NoKey name := by
  intro name hname
  cases hread : files.read (recoveryKey id) with
  | none =>
      rw [purgedChunks, loadInfo_of_missing hread] at hname
      cases hname
  | some content =>
      cases hjson : jsonCodec.loads content with
      | none =>
          rw [purgedChunks, loadInfo_of_garbled hread hjson] at hname
          cases hname
      | some state =>
          obtain ⟨c, hc, rfl, -⟩ := (mem_purgedChunks hread hjson).mp hname
          have hreg : regs id = some state := by
            rw [← h.saved, savedState_of_read hread, hjson]
          exact h.chunks hreg c hc

theorem holds_purgeAll {files : Files} {regs : String → Option RecoveryState}
    (h : Holds files regs) (id : String) (deletes : String → Bool) :
    Holds (purgeAll jsonCodec files id deletes)
      (RegisterEvent.apply regs
        (if deletes (recoveryKey id) then .clear id else .keep)) := by
  have hothers : ∀ id', (id' ≠ id ∨ deletes (recoveryKey id) = false) →
      (purgeAll jsonCodec files id deletes).read (recoveryKey id') =
        files.read (recoveryKey id') := by
    intro id' hor
    refine read_foldl_unlink _ _ fun hmem => ?_
    obtain ⟨hmem, hdeletes⟩ := List.mem_filter.mp hmem
    rcases List.mem_append.mp hmem with hmem | hmem
    · exact noKey_purgedChunks h id _ hmem id' rfl
    · obtain rfl := recoveryKey_inj (List.mem_singleton.mp hmem)
      rcases hor with hne | hkept
      · exact hne rfl
      · rw [hkept] at hdeletes
        cases hdeletes
  cases hdeletes : deletes (recoveryKey id) with
  | false => exact h.keep fun id' => hothers id' (Or.inr hdeletes)
  | true =>
      refine h.clear (fun id' hne => hothers id' (Or.inl hne)) (savedState_of_missing ?_)
      refine read_foldl_unlink_of_mem _ (List.mem_filter.mpr ⟨?_, hdeletes⟩)
      exact List.mem_append_right _ (List.mem_singleton_self _)

/-- **One step** of the directory is one of the registers. -/
theorem Holds.step {files files' : Files} {regs : String → Option RecoveryState}
    {e : RecoveryEvent} (h : Holds files regs) (moves : RecoveryStep κ files e files') :
    Holds files' (e.apply regs) := by
  cases moves with
  | save call n codec utc names => exact SaveCall.holds_diskAfter h n codec utc names
  | torn call m codec named short => exact SaveCall.holds_diskTorn h codec short
  | deleteInfo files fileId =>
      refine h.clear (fun id hne => ?_) (savedState_of_missing ?_)
      · rw [FileSystem.read_unlink, if_neg (recoveryKey_ne hne)]
      · rw [FileSystem.read_unlink, if_pos rfl]
  | purgeAll files fileId deletes => exact holds_purgeAll h fileId deletes
  | others files files' untouched => exact h.keep untouched

/-! ### A life -/

section

variable {start disk : Files} {events : List RecoveryEvent}

/-- **The directory is a family of registers.** -/
theorem holds_registers (h : Sessions κ start events disk)
    (hstart : ∀ id, start.read (recoveryKey id) = none) : Holds disk (registers events) := by
  induction h with
  | start => exact ⟨fun id => savedState_of_missing (hstart id), nofun, nofun⟩
  | step _ moves ih =>
      rw [registers_append_singleton]
      exact ih.step moves

theorem loadInfo_eq_map (codec : JsonCodec DateTime) (files : Files) (id : String) :
    loadInfo (κ := κ) codec files id = ((files.read (recoveryKey id)).bind codec.loads).map
      fun state => ⟨state.fileId, state.fileSize, state.yields files, state.updatedAt⟩ := by
  rw [loadInfo]
  cases files.read (recoveryKey id) with
  | none => rfl
  | some content =>
      rw [Option.bind_some]
      dsimp only
      cases codec.loads content <;> rfl

/-- **`load_info` after any history**, crashes included: what the last save of this `file_id` wrote,
with the chunks of it that are still on disk, if nothing happened to it since; otherwise nothing. -/
theorem load_info_iff (h : Sessions κ start events disk)
    (hstart : ∀ id, start.read (recoveryKey id) = none) (fileId : String)
    (info : DownloadInfo κ DateTime) :
    loadInfo jsonCodec disk fileId = some info ↔
      ∃ before after state, events = before ++ .set fileId state :: after ∧
        (∀ e ∈ after, e.register ≠ some fileId) ∧
        info = ⟨fileId, state.fileSize, state.yields disk, state.updatedAt⟩ := by
  have hholds := holds_registers h hstart
  rw [loadInfo_eq_map, ← savedState, hholds.saved, Option.map_eq_some_iff]
  constructor
  · rintro ⟨state, hreg, rfl⟩
    obtain ⟨before, after, hevents, hafter⟩ := registers_eq_some_iff.mp hreg
    refine ⟨before, after, state, hevents, hafter, ?_⟩
    rw [hholds.fileId hreg]
  · rintro ⟨before, after, state, hevents, hafter, rfl⟩
    have hreg := registers_eq_some_iff.mpr ⟨before, after, hevents, hafter⟩
    refine ⟨state, hreg, ?_⟩
    rw [hholds.fileId hreg]

end

/-! ### Two downloads -/

namespace Sessions

def exampleDate : DateTime where
  year := 2025
  month := 1
  day := 31
  hour := 23
  minute := 59
  second := 0
  microsecond := 5
  utcOffset := some 0
  valid := by decide

/-- A save of a chunk with one byte of two. -/
def saveX : SaveCall Unit DateTime where
  codec := jsonCodec
  files := saveBinaryData FileSystem.empty (formatChunkFileName ⟨0, some 1⟩ "f") [1]
  fileId := "x"
  totalFileSize := 2
  statsList := [{ chunkFileName := formatChunkFileName ⟨0, some 1⟩ "f", range := ⟨0, some 1⟩,
                  fileSize := some 2, bytesDownloaded := 1, status := .downloading }]
  minChunkSize := 1
  deleteUselessChunks := true
  now := exampleDate
  deleted := []
  deleted_useless := by simp

/-- A save of another download, in the same directory. -/
def saveY : SaveCall Unit DateTime where
  codec := jsonCodec
  files := saveX.diskAfter 2
  fileId := "y"
  totalFileSize := 7
  statsList := []
  minChunkSize := 1
  deleteUselessChunks := true
  now := exampleDate
  deleted := []
  deleted_useless := by simp

theorem saveX_saveY :
    Sessions Unit saveX.files [.set "x" saveX.state, .clear "y"] (saveY.diskTorn 0) := by
  have hx : RecoveryStep Unit saveX.files (.set "x" saveX.state) (saveX.diskAfter 2) :=
    .save saveX 2 rfl rfl fun s hs =>
      (List.mem_singleton.mp hs) ▸ noKey_formatChunkFileName ⟨0, some 1⟩ "f"
  have hy : RecoveryStep Unit (saveX.diskAfter 2) (.clear "y") (saveY.diskTorn 0) :=
    .torn saveY 0 rfl (by decide) (List.length_pos_of_ne_nil (dumps_ne_nil _))
  exact (start.step hx).step hy

end Sessions

/-- One download's save is cut short at its first byte; what another one has saved is loaded. -/
theorem load_info_iff_torn :
    loadInfo (κ := Unit) jsonCodec (Sessions.saveY.diskTorn 0) "x" =
      some ⟨"x", 2, Sessions.saveX.state.yields (Sessions.saveY.diskTorn 0),
        Sessions.exampleDate⟩ := by
  refine (load_info_iff Sessions.saveX_saveY (fun id => ?_) "x" _).mpr
    ⟨[], [.clear "y"], Sessions.saveX.state, rfl, by simp [RegisterEvent.register], rfl⟩
  refine (read_saveBinaryData_of_ne _ _ fun h => ?_).trans rfl
  exact noKey_formatChunkFileName ⟨0, some 1⟩ "f" id h.symm

end SDownload
