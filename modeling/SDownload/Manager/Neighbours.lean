import SDownload.Lib.Ownership
import SDownload.Manager.Inversion
import SDownload.Manager.Quiescence
import SDownload.Manager.Splitting

/-!
# SDownload.Manager.Neighbours

What a manager can do to the other files of its directory.

The names that are a manager's own are that of the file it downloads and those of
chunks of it. Its records keep to them, and so does whatever it has open or is about
to delete (`Confined`): a download may write on into a file that was deleted,
cropped or renamed under it, but never into one that another name leads to.
`own_files_only` is the result for every run, whatever is called and whatever fails.
-/

namespace SDownload

open FileSystem (Within Held)

/-- The names a manager may touch. -/
def OwnName (params : ChunkManagerParams) (name : String) : Prop :=
  name = params.fileName ∨ ∃ r, name = formatChunkFileName r params.fileName

theorem ownName_format (params : ChunkManagerParams) (r : ChunkRange) :
    OwnName params (formatChunkFileName r params.fileName) := Or.inr ⟨r, rfl⟩

/-- The names of chunks end in `.sdownload`. -/
theorem ne_formatChunkFileName_of_short {name : String} (h : name.toList.length < 10)
    (r : ChunkRange) (fileName : String) : name ≠ formatChunkFileName r fileName := by
  rintro rfl
  rw [toList_formatChunkFileName] at h
  simp at h
  omega

theorem sameFile_of_within {own : String → Prop} {files files' : Files} {name : String}
    (h : Within own files files') (hname : ¬ own name) : SameFile files files' name :=
  ⟨h.lookup name hname, fun ino => h.content name ino hname⟩

variable {own : String → Prop}

/-! ### The coroutines -/

namespace DownloadState

variable {d d' : DownloadState}

/-- A turn of a download touches its own file, by name or by the handle it has. -/
theorem step_within (own : String → Prop) {e : TaskEvent} {called : Option StopCallback}
    (hname : own d.stats.chunkFileName) (hheld : ∀ file ∈ d.task.file, Held own d.files file.ino)
    (h : d.step e = some (d', called)) :
    Within own d.files d'.files ∧ ∀ file ∈ d'.task.file, Held own d'.files file.ino := by
  cases step_fileEffect h with
  | leaves hfiles hhandle =>
      rw [hfiles]
      refine ⟨.refl own _, fun file hfile => ?_⟩
      obtain ⟨file₀, hfile₀, hino⟩ := hhandle file hfile
      rw [hino]
      exact hheld file₀ hfile₀
  | opens hfiles hhandle =>
      rw [hfiles]
      refine ⟨.openWrite hname, fun file hfile => ?_⟩
      rw [hhandle file hfile]
      exact .openWrite hname
  | @writes file₀ bytes hbefore hfiles hhandle =>
      have hwithin : Within own d.files (d.files.overwrite file₀.ino bytes) :=
        .overwrite (hheld file₀ hbefore) bytes
      rw [hfiles]
      refine ⟨hwithin, fun file hfile => ?_⟩
      rw [hhandle file hfile]
      exact (hheld file₀ hbefore).mono hwithin

end DownloadState

namespace SuccessionState

variable {u u' : SuccessionState}

theorem succeed_files (u : SuccessionState) (predecessorEnd : TaskEnd) :
    (u.succeed predecessorEnd).files = u.files := by
  unfold succeed
  dsimp only
  split
  · rfl
  · split
    · rfl
    · split
      · rfl
      · split <;> rfl

theorem begin_files (u : SuccessionState) (hasTask : Bool) : (u.begin hasTask).files = u.files := by
  unfold begin
  dsimp only
  split
  · rfl
  · split
    · rfl
    · exact succeed_files _ _

theorem handleCancel_files (u : SuccessionState) (runs : Bool) :
    (u.handleCancel runs).1.files = u.files := by
  cases runs <;> rfl

/-- What a crop that is interrupted leaves behind. -/
theorem leaveByName_within {files : Files} {key : String} (hkey : own key) (effect : Option Bytes) :
    Within own files (run.leaveByName files key effect) := by
  unfold run.leaveByName
  split
  · exact .refl own files
  · split
    · exact .refl own files
    · rename_i ino hino
      exact .overwrite (.of_lookup hkey hino) _

theorem cropFile_within {files files' : Files} {key : String} {startByte endByte : Int}
    (hkey : own key) (h : cropFile files key startByte endByte = .ok files') :
    Within own files files' := by
  obtain ⟨ino, hino, -, rfl⟩ := cropFile_eq_ok h
  exact .overwrite (.of_lookup hkey hino) _

/-- A turn of a succession touches the files of its two records. -/
theorem step_within (own : String → Prop) {hasTask : Bool} {predecessorEnd : Option TaskEnd}
    {e : TaskEvent}
    {stops : Bool} (hsuccessor : own u.successor.chunkFileName)
    (hpredecessor : own u.predecessor.chunkFileName)
    (h : u.step hasTask predecessorEnd e = some (u', stops)) : Within own u.files u'.files := by
  unfold step at h
  split at h
  · -- a cancellation arrives
    unfold cancel at h
    dsimp only at h
    split at h
    all_goals first | cases h; done | skip
    all_goals
      have hfiles := congrArg (fun result => result.1.files) (Option.some.inj h)
      dsimp only at hfiles
      rw [← hfiles]
    · exact .refl own _
    · rw [handleCancel_files]
      exact .refl own _
    · rw [handleCancel_files]
      exact leaveByName_within hpredecessor _
    · rw [handleCancel_files]
      dsimp only
      split
      · exact .rename hpredecessor hsuccessor
      · exact .refl own _
    · exact .refl own _
  · cases h
  · obtain ⟨u₁, hrun, heq⟩ := Option.map_eq_some_iff.mp h
    obtain ⟨rfl, rfl⟩ := Prod.mk.inj heq
    unfold run at hrun
    split at hrun
    · obtain rfl := Option.some.inj hrun
      rw [begin_files]
      exact .refl own _
    · obtain ⟨r, -, rfl⟩ := Option.map_eq_some_iff.mp hrun
      rw [succeed_files]
      exact .refl own _
    · split at hrun
      · obtain rfl := Option.some.inj hrun
        exact .refl own _
      · rename_i files hcrop
        obtain rfl := Option.some.inj hrun
        exact cropFile_within hpredecessor hcrop
    · obtain rfl := Option.some.inj hrun
      exact leaveByName_within hpredecessor _
    · split at hrun
      · obtain rfl := Option.some.inj hrun
        exact .refl own _
      · obtain rfl := Option.some.inj hrun
        exact .rename hpredecessor hsuccessor
    · obtain rfl := Option.some.inj hrun
      exact .refl own _
    · split at hrun
      · cases hrun
      · obtain rfl := Option.some.inj hrun
        exact .refl own _
      · obtain rfl := Option.some.inj hrun
        exact .refl own _
    · cases hrun

end SuccessionState

/-! ### The merge -/

/-- The destination, while it is open. -/
def MergeStage.dest : MergeStage → Option Handle
  | .next dest _ | .reading dest _ _ | .writing dest _ _ _ => some dest
  | _ => none

theorem dest_openSource {files : Files} {dest : Handle} (config : FileRangeParams)
    (configs : List FileRangeParams) :
    ∀ dest' ∈ (openSource files dest config configs).dest, dest'.ino = dest.ino := by
  intro dest' hdest
  unfold openSource at hdest
  split at hdest
  · cases hdest
  · dsimp only at hdest
    split at hdest
    · exact (Option.some.inj hdest) ▸ rfl
    · split at hdest
      · cases hdest
      · exact (Option.some.inj hdest) ▸ rfl

theorem dest_afterWrite {dest : Handle} {source : MergeSource} {chunk : Bytes}
    {configs : List FileRangeParams} :
    ∀ dest' ∈ (afterWrite dest source chunk configs).dest, dest'.ino = dest.ino := by
  intro dest' hdest
  unfold afterWrite at hdest
  dsimp only at hdest
  split at hdest
  · exact (Option.some.inj hdest) ▸ rfl
  · split at hdest <;> exact (Option.some.inj hdest) ▸ rfl

/-- A round of a merge touches the destination, by name or by the handle it has. -/
theorem mergeStep_within {ioBufferSize : Nat} {destKey : String} {files files' : Files} {ok : Bool}
    {stage : MergeStage} {next : MergeStage ⊕ Option MergeError} (hkey : own destKey)
    (hheld : ∀ dest ∈ stage.dest, Held own files dest.ino)
    (h : mergeStep ioBufferSize destKey files ok stage = (files', next)) :
    Within own files files' ∧
      ∀ stage', next = .inl stage' → ∀ dest ∈ stage'.dest, Held own files' dest.ino := by
  have hsame : ∀ {dest : Handle} {stage' : MergeStage}, Held own files dest.ino →
      (∀ dest' ∈ stage'.dest, dest'.ino = dest.ino) → files' = files → next = .inl stage' →
        Within own files files' ∧
          ∀ stage', next = .inl stage' → ∀ dest ∈ stage'.dest, Held own files' dest.ino := by
    -- a round that writes nothing and keeps the destination
    rintro dest stage' hdest hino rfl rfl
    refine ⟨.refl own _, fun stage'' hstage dest' hdest' => ?_⟩
    obtain rfl := Sum.inl.inj hstage
    rw [hino dest' hdest']
    exact hdest
  cases stage with
  | opening configs =>
      simp only [mergeStep] at h
      split at h
      · obtain ⟨rfl, rfl⟩ := Prod.mk.inj h
        refine ⟨.openWrite hkey, fun stage' hstage dest hdest => ?_⟩
        obtain rfl := Sum.inl.inj hstage
        obtain rfl := Option.some.inj hdest
        exact .openWrite hkey
      · obtain ⟨rfl, rfl⟩ := Prod.mk.inj h
        exact ⟨.refl own _, fun _ hinl => by cases hinl⟩
  | next dest configs =>
      have hdest := hheld dest rfl
      cases configs with
      | nil =>
          obtain ⟨rfl, rfl⟩ := Prod.mk.inj h
          exact hsame hdest (fun _ hnone => by cases hnone) rfl rfl
      | cons config configs =>
          simp only [mergeStep] at h
          split at h
          · obtain ⟨rfl, rfl⟩ := Prod.mk.inj h
            exact hsame hdest (dest_openSource config configs) rfl rfl
          · obtain ⟨rfl, rfl⟩ := Prod.mk.inj h
            exact hsame hdest (fun _ hnone => by cases hnone) rfl rfl
  | reading dest source configs =>
      have hdest := hheld dest rfl
      simp only [mergeStep] at h
      split at h
      · split at h
        all_goals
          obtain ⟨rfl, rfl⟩ := Prod.mk.inj h
          refine hsame hdest ?_ rfl rfl
          exact fun dest' hdest' => (Option.some.inj hdest') ▸ rfl
      · obtain ⟨rfl, rfl⟩ := Prod.mk.inj h
        exact hsame hdest (fun _ hnone => by cases hnone) rfl rfl
  | writing dest source chunk configs =>
      have hdest := hheld dest rfl
      simp only [mergeStep] at h
      split at h
      · obtain ⟨rfl, rfl⟩ := Prod.mk.inj h
        have hwithin := Within.writeAt hdest dest.pos chunk
        refine ⟨hwithin, fun stage' hstage dest' hdest' => ?_⟩
        obtain rfl := Sum.inl.inj hstage
        rw [dest_afterWrite dest' hdest']
        exact hdest.mono hwithin
      · obtain ⟨rfl, rfl⟩ := Prod.mk.inj h
        exact hsame hdest (fun _ hnone => by cases hnone) rfl rfl
  | closing error =>
      simp only [mergeStep] at h
      split at h
      · obtain ⟨rfl, rfl⟩ := Prod.mk.inj h
        exact ⟨.refl own _, fun _ hinl => by cases hinl⟩
      · obtain ⟨rfl, rfl⟩ := Prod.mk.inj h
        exact ⟨.refl own _, fun _ hinl => by cases hinl⟩

namespace World

variable {params : ChunkManagerParams} {w w' : World}

/-! ### The invariant -/

/-- A suspended call is about files of the manager's own. -/
def FrameConfined (params : ChunkManagerParams) (files : Files) : Frame → Prop
  | .deleting name => OwnName params name
  | .listing names _ | .removing names _ _ => ∀ name ∈ names, OwnName params name
  | .merging stage _ => ∀ dest ∈ stage.dest, Held (OwnName params) files dest.ino
  | _ => True

/-- The records have names of the manager's own, and nothing refers to others. -/
structure NamesOwn (params : ChunkManagerParams) (w : World) : Prop where
  record : ∀ s < w.stats.length, OwnName params (w.record s).chunkFileName
  entry : ∀ r s, w.chunksStats.get? r = some s → s < w.stats.length
  task : ∀ t ∈ w.tasks, t.stats < w.stats.length ∧
    ∀ p k, t.job = .succession p k → p < w.stats.length

/-- A manager that keeps to its own files. -/
structure Confined (params : ChunkManagerParams) (w : World) : Prop
    extends w.NamesOwn params where
  handle : ∀ t ∈ w.tasks, ∀ file ∈ t.file, Held (OwnName params) w.files file.ino
  frame : ∀ f ∈ w.calls, FrameConfined params w.files f

theorem FrameConfined.mono {files files' : Files} {f : Frame}
    (h : FrameConfined params files f) (hwithin : Within (OwnName params) files files') :
    FrameConfined params files' f := by
  cases f with
  | merging stage cleanup => exact fun dest hdest => (h dest hdest).mono hwithin
  | _ => exact h

/-- The chunks of the table have names of the manager's own. -/
def TableConfined (params : ChunkManagerParams) (w : World) : Prop :=
  ∀ r s, w.chunksStats.get? r = some s → OwnName params (w.record s).chunkFileName

theorem NamesOwn.table (h : w.NamesOwn params) : w.TableConfined params :=
  fun r s hs => h.record s (h.entry r s hs)

/-- What a method leaves: changes to files of its own, and a call that is about such files. -/
structure StaysWithin (params : ChunkManagerParams) (w : World) (result : World × Progress) :
    Prop where
  files : Within (OwnName params) w.files result.1.files
  frame : ∀ f, result.2 = .suspended f → FrameConfined params result.1.files f

theorem StaysWithin.returned {rs : List Returned}
    (hfiles : Within (OwnName params) w.files w'.files) :
    w.StaysWithin params (w', .returned rs) :=
  ⟨hfiles, fun _ hf => by cases hf⟩

theorem StaysWithin.suspended {f : Frame} (hfiles : w'.files = w.files)
    (hf : FrameConfined params w.files f) : w.StaysWithin params (w', .suspended f) where
  files := by
    show Within _ w.files w'.files
    rw [hfiles]
    exact .refl _ _
  frame f' hf' := by
    obtain rfl := Progress.suspended.inj hf'
    show FrameConfined params w'.files f
    rw [hfiles]
    exact hf

/-- After something that touches files of its own. -/
theorem StaysWithin.after {result : World × Progress} (h : w'.StaysWithin params result)
    (hwithin : Within (OwnName params) w.files w'.files) : w.StaysWithin params result :=
  ⟨hwithin.trans h.files, h.frame⟩

/-! ### Each method -/

theorem popAndDelete_within (h : w.TableConfined params) (r : ChunkRange) :
    w.StaysWithin params (w.popAndDelete r) := by
  unfold popAndDelete
  split
  · exact .returned (.refl _ _)
  · rename_i s hs
    exact .suspended rfl (h r s hs)

theorem cancelReturns_within (h : w.TableConfined params) (r : ChunkRange)
    (thenDelete cancelled : Bool) :
    w.StaysWithin params (w.cancelReturns r thenDelete cancelled) := by
  unfold cancelReturns
  split
  · exact popAndDelete_within h r
  · exact .returned (.refl _ _)

theorem cancelJoined_within (h : w.TableConfined params) (r : ChunkRange) (thenDelete : Bool) :
    w.StaysWithin params (w.cancelJoined r thenDelete) := by
  unfold cancelJoined
  split
  · have hw : TableConfined params { w with chunksTasks := w.chunksTasks.erase r } := h
    exact (cancelReturns_within hw r thenDelete true).after (.refl _ _)
  · exact .returned (.refl _ _)

theorem cancelSignalled_within (h : w.TableConfined params) (r : ChunkRange) (t : TaskId)
    (thenDelete : Bool) : w.StaysWithin params (w.cancelSignalled r t thenDelete) := by
  unfold cancelSignalled
  dsimp only
  split
  · have hw : (w.cancelTask t).TableConfined params := h
    exact (cancelJoined_within hw r thenDelete).after (.refl _ _)
  · exact .suspended rfl trivial

theorem cancelChunk_within (h : w.TableConfined params) (r : ChunkRange) (thenDelete : Bool) :
    w.StaysWithin params (w.cancelChunk r thenDelete) := by
  unfold cancelChunk
  split
  · exact cancelReturns_within h r thenDelete false
  · split
    · exact .returned (.refl _ _)
    · split
      · split
        · exact cancelSignalled_within h r _ thenDelete
        · exact .suspended rfl trivial
      · exact cancelReturns_within h r thenDelete false

theorem deleteChunkData_within (h : w.TableConfined params) (r : ChunkRange) :
    w.StaysWithin params (w.deleteChunkData r) := by
  unfold deleteChunkData
  split
  · exact cancelChunk_within h r true
  · exact popAndDelete_within h r

theorem waitEntered_within (timed : Bool) (returnWhen : ReturnWhen) :
    w.StaysWithin params (w.waitEntered timed returnWhen) := by
  unfold waitEntered
  split
  · exact .returned (.refl _ _)
  · exact .suspended rfl trivial

theorem waitForChunks_within (timed : Bool) (returnWhen : ReturnWhen) :
    w.StaysWithin params (w.waitForChunks timed returnWhen) := by
  unfold waitForChunks
  split
  · exact .suspended rfl trivial
  · exact waitEntered_within timed returnWhen

theorem waitCollects_within (allTasks : List TaskId) :
    w.StaysWithin params (w.waitCollects allTasks) := by
  unfold waitCollects
  dsimp only
  split <;> exact .returned (.refl _ _)

theorem gathered_within (h : w.TableConfined params) (goal : GatherGoal) :
    w.StaysWithin params (w.gathered params goal) := by
  unfold gathered
  dsimp only
  split
  · exact .returned (.refl _ _)
  · refine .suspended rfl fun name hname => ?_
    obtain ⟨s, hs, rfl⟩ := List.mem_map.mp hname
    obtain ⟨r, hr⟩ := Dict.mem_values_iff.mp hs
    exact h r s hr
  · exact .returned (.refl _ _)

theorem cancelEntry_same (w : World) (entry : ChunkRange × TaskId) :
    (w.cancelEntry entry).files = w.files := by
  unfold cancelEntry
  dsimp only
  split
  · rfl
  · split <;> rfl

theorem cancelEntries_same (entries : List (ChunkRange × TaskId)) (w : World) :
    (entries.foldl cancelEntry w).files = w.files := by
  induction entries generalizing w with
  | nil => rfl
  | cons entry rest ih => exact (ih _).trans (w.cancelEntry_same entry)

theorem cancelAllChunks_within (h : w.TableConfined params) (goal : GatherGoal) :
    w.StaysWithin params (w.cancelAllChunks params goal) := by
  have hsame := cancelEntries_same w.chunksTasks.entries w
  have hev := cancelEntries_evolves w.chunksTasks.entries w
  have hw : TableConfined params (w.chunksTasks.entries.foldl cancelEntry w) := by
    intro r s hs
    rw [hev.chunksStats] at hs
    rw [(hev.record s).chunkFileName]
    exact h r s hs
  unfold cancelAllChunks
  dsimp only
  split
  · refine (gathered_within hw goal).after ?_
    rw [hsame]
    exact .refl _ _
  · exact .suspended hsame trivial

theorem cleanup_within (h : w.TableConfined params) (deleteFiles ofMerge : Bool) :
    w.StaysWithin params (w.cleanup params deleteFiles ofMerge) := by
  unfold World.cleanup
  split
  · exact .returned (.refl _ _)
  · have hw : TableConfined params { w with cleanedUp := true } := h
    exact (cancelAllChunks_within hw (.cleanup deleteFiles ofMerge)).after (.refl _ _)

theorem removeListed_within {names : List String} (h : ∀ name ∈ names, OwnName params name)
    (failed ofMerge : Bool) :
    w.StaysWithin params (w.removeListed params names failed ofMerge) := by
  unfold removeListed
  split
  · split <;> exact .returned (.refl _ _)
  · exact .suspended rfl h

theorem mergeChunks_within (cleanup : Bool) :
    w.StaysWithin params (w.mergeChunks params cleanup) := by
  unfold mergeChunks
  split
  · exact .returned (.refl _ _)
  · exact .suspended rfl nofun

theorem mergeRound_within (h : w.TableConfined params) {stage : MergeStage} {cleanup : Bool}
    (hf : FrameConfined params w.files (.merging stage cleanup)) (ok : Bool) :
    w.StaysWithin params (w.mergeRound params stage cleanup ok) := by
  unfold mergeRound
  split
  all_goals
    rename_i hround
    obtain ⟨hwithin, hnext⟩ := mergeStep_within (Or.inl rfl) hf hround
  · refine ⟨hwithin, fun f hf' => ?_⟩
    obtain rfl := Progress.suspended.inj hf'
    exact hnext _ rfl
  · exact .returned hwithin
  · split
    · rename_i files _
      have hw : TableConfined params { w with files } := h
      exact (cleanup_within hw true true).after hwithin
    · exact .returned hwithin

theorem resume_within (h : w.TableConfined params) {f : Frame}
    (hf : FrameConfined params w.files f) {ok : Bool} {result : World × Progress}
    (hresume : w.resume params f ok = some result) : w.StaysWithin params result := by
  unfold resume at hresume
  cases f with
  | cancelInit r t thenDelete =>
      dsimp only at hresume
      split at hresume
      · obtain rfl := Option.some.inj hresume
        exact cancelSignalled_within h r t thenDelete
      · cases hresume
  | cancelJoin r t thenDelete =>
      dsimp only at hresume
      split at hresume
      · obtain rfl := Option.some.inj hresume
        exact cancelJoined_within h r thenDelete
      · cases hresume
  | deleting name =>
      obtain rfl := Option.some.inj hresume
      refine .returned ?_
      dsimp only
      split
      · exact .unlink hf
      · exact .refl _ _
  | lockWait timed returnWhen =>
      dsimp only at hresume
      split at hresume
      · cases hresume
      · obtain rfl := Option.some.inj hresume
        exact waitEntered_within timed returnWhen
  | waiting allTasks timed returnWhen =>
      dsimp only at hresume
      split at hresume
      · obtain rfl := Option.some.inj hresume
        exact waitCollects_within allTasks
      · cases hresume
  | gathering allTasks goal =>
      dsimp only at hresume
      split at hresume
      · obtain rfl := Option.some.inj hresume
        exact gathered_within h goal
      · cases hresume
  | listing names ofMerge =>
      dsimp only at hresume
      split at hresume
      · obtain rfl := Option.some.inj hresume
        exact removeListed_within (fun name hname => hf name (List.mem_filter.mp hname).1) false
          ofMerge
      · obtain rfl := Option.some.inj hresume
        exact .returned (.refl _ _)
  | removing names failed ofMerge =>
      cases names with
      | nil =>
          obtain rfl := Option.some.inj hresume
          exact removeListed_within hf failed ofMerge
      | cons name names =>
          have hrest : ∀ name' ∈ names, OwnName params name' :=
            fun name' hname' => hf name' (List.mem_cons_of_mem _ hname')
          dsimp only at hresume
          split at hresume
          · obtain rfl := Option.some.inj hresume
            exact (removeListed_within hrest failed ofMerge).after
              (.unlink (hf name (List.mem_cons_self ..)))
          · obtain rfl := Option.some.inj hresume
            exact removeListed_within hrest true ofMerge
  | merging stage cleanup =>
      obtain rfl := Option.some.inj hresume
      exact mergeRound_within h hf ok

/-! ### Each step -/

/-- Tasks that stand where others do have the same files open. -/
theorem file_of_unasked {tasks tasks' : List Task} {held : Handle → Prop}
    (h : tasks'.map Task.unasked = tasks.map Task.unasked)
    (hheld : ∀ t ∈ tasks, ∀ file ∈ t.file, held file) :
    ∀ t ∈ tasks', ∀ file ∈ t.file, held file := by
  intro t' ht' file hfile
  have hmem : t'.unasked ∈ tasks.map Task.unasked := h ▸ List.mem_map_of_mem ht'
  obtain ⟨t, ht, heq⟩ := List.mem_map.mp hmem
  have hsame : t.unasked.file = t'.unasked.file := congrArg Task.file heq
  exact hheld t ht file (show file ∈ t.unasked.file from hsame ▸ hfile)

/-- A turn of a task. -/
theorem taskStep_within (h : w.Confined params) {i : TaskId} {e : TaskEvent}
    (hstep : w.taskStep i e = some w') :
    Within (OwnName params) w.files w'.files ∧
      ∀ t ∈ w'.tasks, ∀ file ∈ t.file, Held (OwnName params) w'.files file.ino := by
  -- what the other tasks have open stays held
  have hset : ∀ {files : Files} {t' : Task}, Within (OwnName params) w.files files →
      (∀ file ∈ t'.file, Held (OwnName params) files file.ino) →
        ∀ t ∈ w.tasks.set i t', ∀ file ∈ t.file, Held (OwnName params) files file.ino := by
    intro files t' hwithin hfile t ht
    rcases List.mem_or_eq_of_mem_set ht with hold | rfl
    · exact fun file hf => (h.handle t hold file hf).mono hwithin
    · exact hfile
  unfold taskStep at hstep
  split at hstep
  · cases hstep
  · rename_i t ht
    have hmem := List.mem_of_getElem? ht
    obtain ⟨hstats, hpredecessor⟩ := h.task t hmem
    split at hstep
    · split at hstep
      · cases hstep
      · rename_i d callback hturn
        obtain rfl := Option.some.inj hstep
        obtain ⟨hwithin, hfile⟩ := DownloadState.step_within (OwnName params)
          (h.record t.stats hstats) (h.handle t hmem) hturn
        cases callback with
        | none => exact ⟨hwithin, hset hwithin hfile⟩
        | some cb =>
            rw [Option.elim_some, (stopPredecessor_asks _ cb).files]
            exact ⟨hwithin, file_of_unasked (stopPredecessor_standsStill _ cb).tasks
              (hset hwithin hfile)⟩
    · rename_i p predecessorTask hjob
      split at hstep
      · cases hstep
      · rename_i u stops hturn
        obtain rfl := Option.some.inj hstep
        have hwithin := SuccessionState.step_within (OwnName params)
          (h.record t.stats hstats) (h.record p (hpredecessor p _ hjob)) hturn
        have hnone : u.task.file = none := by
          have hphase := (SuccessionState.proceeds_step hturn).phase
          unfold Task.file
          cases hp : u.task.phase with
          | receiving _ _ | writing _ _ _ | closing _ _ _ =>
              rw [hp] at hphase
              cases hphase
          | _ => rfl
        have hfile : ∀ file ∈ u.task.file, Held (OwnName params) u.files file.ino := by
          intro file hf
          rw [hnone] at hf
          cases hf
        cases stops with
        | false => exact ⟨hwithin, hset hwithin hfile⟩
        | true =>
            cases predecessorTask with
            | none => exact ⟨hwithin, hset hwithin hfile⟩
            | some j => exact ⟨hwithin, file_of_unasked (cancelTask_standsStill _ j).tasks
                (hset hwithin hfile)⟩

/-- Whom a registration calls the predecessor. -/
theorem predecessor_of_registering {e : Event} {r : ChunkRange} {p : StatsId} {k : Option TaskId}
    (h : e.registering w = some (r, .succession p k)) : ∃ r', w.chunksStats.get? r' = some p := by
  cases e with
  | startChunk r' speed =>
      unfold Event.registering at h
      dsimp only at h
      split at h <;> cases h
  | resizeChunk currentRange newRange =>
      unfold Event.registering at h
      dsimp only at h
      split at h
      · obtain ⟨a, ha, heq⟩ := Option.map_eq_some_iff.mp h
        obtain ⟨rfl, -⟩ := Job.succession.inj (Prod.mk.inj heq).2
        exact ⟨currentRange, ha⟩
      · cases h
  | _ => cases h

theorem NamesOwn.creates (h : w.NamesOwn params) {r : ChunkRange} {job : Job} {e : Event}
    (hregisters : e.registering w = some (r, job)) (hc : w.Creates params w' r job) :
    w'.NamesOwn params where
  record s hs := by
    rw [hc.numStats] at hs
    rcases Nat.lt_or_eq_of_le (Nat.le_of_lt_succ hs) with hold | rfl
    · rw [(hc.record s hold).chunkFileName]
      exact h.record s hold
    · rw [← hc.newRecord.chunkFileName.symm]
      exact ownName_format params r
  entry r' s hs := by
    rw [hc.chunksStats, Dict.get?_set] at hs
    rw [hc.numStats]
    split at hs
    · exact (Option.some.inj hs) ▸ Nat.lt_succ_self _
    · exact Nat.lt_succ_of_lt (h.entry r' s hs)
  task t' ht' := by
    obtain ⟨i, hi⟩ := List.mem_iff_getElem?.mp ht'
    rw [hc.numStats]
    rcases hc.task_of hi with ⟨t, ht, hlater⟩ | ⟨-, rfl⟩
    · obtain ⟨hstats, hpredecessor⟩ := h.task t (List.mem_of_getElem? ht)
      rw [hlater.stats, hlater.job]
      exact ⟨Nat.lt_succ_of_lt hstats, fun p k hjob => Nat.lt_succ_of_lt (hpredecessor p k hjob)⟩
    · refine ⟨Nat.lt_succ_self _, fun p k hjob => ?_⟩
      obtain rfl : job = .succession p k := hjob
      obtain ⟨r', hr'⟩ := predecessor_of_registering hregisters
      exact Nat.lt_succ_of_lt (h.entry r' p hr')

theorem NamesOwn.forgets (h : w.NamesOwn params) (hf : w.Forgets w') : w'.NamesOwn params where
  record s hs := by
    rw [(hf.record s).chunkFileName]
    exact h.record s (hf.numStats ▸ hs)
  entry r s hs := hf.numStats ▸ h.entry r s (hf.chunksStats hs)
  task t' ht' := by
    obtain ⟨i, hi⟩ := List.mem_iff_getElem?.mp ht'
    have hlt : i < w.tasks.length := by
      rw [← hf.numTasks]
      exact (List.getElem?_eq_some_iff.mp hi).1
    obtain ⟨t'', ht'', hlater⟩ := hf.task i _ (List.getElem?_eq_getElem hlt)
    obtain rfl : t'' = t' := Option.some.inj (ht''.symm.trans hi)
    obtain ⟨hstats, hpredecessor⟩ := h.task _ (List.getElem_mem hlt)
    rw [hlater.stats, hlater.job, hf.numStats]
    exact ⟨hstats, hpredecessor⟩

theorem NamesOwn.step (h : w.NamesOwn params) {e : Event} {out : List Returned}
    (hstep : SDownload.step params w e = some (w', out)) : w'.NamesOwn params := by
  rcases step_cases hstep with ⟨r, job, hregisters, hc⟩ | ⟨-, hf⟩
  · exact h.creates hregisters hc
  · exact h.forgets hf

/-- A method is called, or a suspended call goes on: calls that stay are as they were, and the new
one is about files of the manager's own. -/
theorem Confined.settles (h : w.Confined params) {result : World × Progress} {held : Nat}
    (hs : w.Settled result held) (hwithin : w.StaysWithin params result) (calls : List Frame)
    (hcalls : ∀ f ∈ calls, f ∈ w.calls ∨ result.2 = .suspended f)
    (hnames : NamesOwn params { result.1 with calls }) :
    Confined params { result.1 with calls } where
  toNamesOwn := hnames
  handle := file_of_unasked hs.tasks fun t ht file hfile =>
    (h.handle t ht file hfile).mono hwithin.files
  frame f hf := by
    rcases hcalls f hf with hold | hnew
    · exact (h.frame f hold).mono hwithin.files
    · exact hwithin.frame f hnew

theorem Confined.called (h : w.Confined params) {result : World × Progress}
    (hs : w.Settled result 0) (hwithin : w.StaysWithin params result)
    (hnames : (called result).1.NamesOwn params) :
    (called result).1.Confined params ∧
      Within (OwnName params) w.files (called result).1.files := by
  obtain ⟨w', progress⟩ := result
  have hcalls : w'.calls = w.calls := hs.calls
  cases progress with
  | suspended f =>
      refine ⟨h.settles hs hwithin _ (fun g hg => ?_) hnames, hwithin.files⟩
      rcases List.mem_append.mp hg with hold | hnew
      · exact Or.inl (hcalls ▸ hold)
      · exact Or.inr (congrArg Progress.suspended (List.mem_singleton.mp hnew).symm)
  | returned rs =>
      exact ⟨h.settles hs hwithin w'.calls (fun g hg => Or.inl (hcalls ▸ hg)) hnames,
        hwithin.files⟩

theorem Confined.resumed (h : w.Confined params) {result : World × Progress} {i held : Nat}
    (hs : w.Settled result held) (hwithin : w.StaysWithin params result)
    (hnames : (resumed i result).1.NamesOwn params) :
    (resumed i result).1.Confined params ∧
      Within (OwnName params) w.files (resumed i result).1.files := by
  obtain ⟨w', progress⟩ := result
  have hcalls : w'.calls = w.calls := hs.calls
  cases progress with
  | suspended f =>
      refine ⟨h.settles hs hwithin _ (fun g hg => ?_) hnames, hwithin.files⟩
      rcases List.mem_or_eq_of_mem_set hg with hold | rfl
      · exact Or.inl (hcalls ▸ hold)
      · exact Or.inr rfl
  | returned rs =>
      refine ⟨h.settles hs hwithin _ (fun g hg => ?_) hnames, hwithin.files⟩
      exact Or.inl (hcalls ▸ List.mem_of_mem_eraseIdx hg)

/-- A task is registered; the files and what is open stay as they are. -/
theorem Confined.registers (h : w.Confined params) {tasks : List Task} {t : Task}
    (htasks : w'.tasks = tasks ++ [t]) (hfile : t.file = none)
    (hsame : tasks.map Task.unasked = w.tasks.map Task.unasked) (hfiles : w'.files = w.files)
    (hcalls : w'.calls = w.calls) (hnames : w'.NamesOwn params) :
    w'.Confined params ∧ Within (OwnName params) w.files w'.files := by
  refine ⟨⟨hnames, fun t' ht' => ?_, fun f hf => ?_⟩, hfiles ▸ .refl _ _⟩
  · rw [hfiles]
    rw [htasks] at ht'
    rcases List.mem_append.mp ht' with hold | hnew
    · exact file_of_unasked hsame h.handle t' hold
    · rw [List.mem_singleton.mp hnew, hfile]
      intro file hnone
      cases hnone
  · rw [hfiles]
    exact h.frame f (hcalls ▸ hf)

theorem Confined.startChunk (h : w.Confined params) (r : ChunkRange) (speed : Option Int)
    (hnames : (w.startChunk params r speed).NamesOwn params) :
    (w.startChunk params r speed).Confined params ∧
      Within (OwnName params) w.files (w.startChunk params r speed).files := by
  unfold World.startChunk at hnames ⊢
  split at hnames
  · rename_i hcompleted
    rw [if_pos hcompleted]
    exact ⟨h, .refl _ _⟩
  · rename_i hcompleted
    rw [if_neg hcompleted]
    split at hnames
    · rename_i hkey
      rw [if_pos hkey]
      exact ⟨h, .refl _ _⟩
    · rename_i hkey
      rw [if_neg hkey]
      exact h.registers rfl rfl rfl rfl rfl hnames

theorem Confined.resizeChunk (h : w.Confined params) {currentRange newRange : ChunkRange}
    (hok : w.resizeChunk params currentRange newRange = .ok w') (hnames : w'.NamesOwn params) :
    w'.Confined params ∧ Within (OwnName params) w.files w'.files := by
  rcases resizeChunk_cases hok with ⟨rfl, -⟩ | ⟨hresizes, a, ha, hcreates⟩
  · exact ⟨h, .refl _ _⟩
  · have hcalls := hcreates.calls
    rw [resizeChunk_eq params hresizes ha] at hok
    obtain rfl := Except.ok.inj hok
    obtain ⟨hfiles, htasks⟩ := observing_same w currentRange newRange a
      (w.awaiting params newRange (w.record a).targetSpeedBps)
    exact h.registers rfl rfl htasks hfiles hcalls hnames

/-- **One step** of a manager touches its own files only. -/
theorem Confined.step (h : w.Confined params) (halive : w.Alive) {e : Event} {out : List Returned}
    (hstep : SDownload.step params w e = some (w', out)) :
    w'.Confined params ∧ Within (OwnName params) w.files w'.files := by
  have hnames := h.toNamesOwn.step hstep
  have htable := h.table
  cases e with
  | startChunk r speed =>
      obtain ⟨rfl, -⟩ := Prod.mk.inj (Option.some.inj hstep)
      exact h.startChunk r speed hnames
  | resizeChunk currentRange newRange =>
      obtain ⟨e, -, rfl, -⟩ | ⟨hok, -⟩ := step_resizeChunk hstep
      · exact ⟨h, .refl _ _⟩
      · exact h.resizeChunk hok hnames
  | cancelChunk r =>
      obtain ⟨rfl, -⟩ := Prod.mk.inj (Option.some.inj hstep)
      exact h.called (cancelChunk_settled halive.entry r false) (cancelChunk_within htable r false)
        hnames
  | deleteChunkData r =>
      obtain ⟨rfl, -⟩ := Prod.mk.inj (Option.some.inj hstep)
      exact h.called (deleteChunkData_settled halive.entry r) (deleteChunkData_within htable r)
        hnames
  | wait timed returnWhen =>
      obtain ⟨rfl, -⟩ := Prod.mk.inj (Option.some.inj hstep)
      exact h.called (waitForChunks_settled halive.entry timed returnWhen)
        (waitForChunks_within timed returnWhen) hnames
  | cancelAllChunks =>
      obtain ⟨rfl, -⟩ := Prod.mk.inj (Option.some.inj hstep)
      exact h.called (cancelAllChunks_settled params halive.entry .cancelAll)
        (cancelAllChunks_within htable .cancelAll) hnames
  | cleanup deleteFiles =>
      obtain ⟨rfl, -⟩ := Prod.mk.inj (Option.some.inj hstep)
      exact h.called (cleanup_settled params halive.entry deleteFiles false)
        (cleanup_within htable deleteFiles false) hnames
  | mergeChunks cleanup =>
      obtain ⟨rfl, -⟩ := Prod.mk.inj (Option.some.inj hstep)
      exact h.called (mergeChunks_settled params w cleanup) (mergeChunks_within cleanup) hnames
  | resume i ok =>
      obtain ⟨f, result, hf, hresume, heq⟩ := step_resume hstep
      have hmem := List.mem_of_getElem? hf
      obtain rfl : (SDownload.resumed i result).1 = w' := congrArg Prod.fst heq
      exact h.resumed
        (resume_settled halive.entry (halive.known f hmem) (halive.holds_le hf) hresume)
        (resume_within htable (h.frame f hmem) hresume) hnames
  | task i e =>
      obtain ⟨hturn, -⟩ := step_task hstep
      obtain ⟨hwithin, hhandle⟩ := taskStep_within h hturn
      refine ⟨⟨hnames, hhandle, fun f hf => ?_⟩, hwithin⟩
      rw [(taskStep_evolves hturn).calls] at hf
      exact (h.frame f hf).mono hwithin

theorem confined_init (files : Files) {recoveredStats : List Stats}
    (hnames : ∀ stat ∈ recoveredStats, OwnName params stat.chunkFileName) :
    (World.init files recoveredStats).Confined params where
  record s hs := by
    have hget : (World.init files recoveredStats).record s = recoveredStats[s] :=
      List.getD_eq_getElem _ _ hs
    rw [hget]
    exact hnames _ (List.getElem_mem hs)
  entry r s hs := ((registered_init files recoveredStats).stats r s hs).1
  task _ ht := absurd ht List.not_mem_nil
  handle _ ht := absurd ht List.not_mem_nil
  frame _ hf := absurd hf List.not_mem_nil

/-- A run that started with these files has kept to its own. -/
structure ConfinedSince (params : ChunkManagerParams) (files : Files) (w : World) : Prop where
  alive : w.Alive
  confined : w.Confined params
  within : Within (OwnName params) files w.files

theorem ConfinedSince.step {files : Files} (h : ConfinedSince params files w) {e : Event}
    {out : List Returned} (hstep : SDownload.step params w e = some (w', out)) :
    ConfinedSince params files w' := by
  obtain ⟨hconfined, hwithin⟩ := h.confined.step h.alive hstep
  exact ⟨h.alive.step hstep, hconfined, h.within.trans hwithin⟩

end World

/-- **A manager touches its own files only.** In every run, whatever is called and whatever fails:
every other name leads to the same bytes as at the start. -/
theorem own_files_only (params : ChunkManagerParams) (files : Files) (recoveredStats : List Stats)
    (hnames : ∀ stat ∈ recoveredStats, OwnName params stat.chunkFileName) {w : World}
    (h : Reaches (step params) (fun _ _ => True) (World.init files recoveredStats) w)
    {name : String} (hname : ¬ OwnName params name) : SameFile files w.files name := by
  have hinv : World.ConfinedSince params files w :=
    h.invariant ⟨World.alive_init files recoveredStats, World.confined_init files hnames, .refl _ _⟩
      fun hinv _ hstep => hinv.step hstep
  exact sameFile_of_within hinv.within hname

/-- A chunk is deleted by the `cleanup` of its manager while it is written to. -/
def neighbouredRun : List Event :=
  [.startChunk ⟨0, some 1⟩ none, .task 0 .begins, .task 0 .opened, .task 0 (.piece [1]),
    .task 0 .written, .cleanup true, .task 0 (.cancelled none), .task 0 .closed, .resume 0 true,
    .resume 0 true, .resume 0 true]

/-- A directory with a file of somebody else. -/
def neighbouredFiles : Files := (FileSystem.empty.openWrite "g").2.writeAt 0 0 [7]

theorem own_files_only_neighboured :
    let w := runTo (step ⟨"f", some 2, 1⟩) (fun _ _ => True) (World.init neighbouredFiles [])
      neighbouredRun
    (w.cleanedUp = true ∧ w.calls = []) ∧
      w.files.read (formatChunkFileName ⟨0, some 1⟩ "f") = none ∧
        SameFile neighbouredFiles w.files "g" := by
  have hname : ¬ OwnName ⟨"f", some 2, 1⟩ "g" := by
    rintro (hfile | ⟨r, hchunk⟩)
    · exact absurd hfile (by decide)
    · exact ne_formatChunkFileName_of_short (by decide) r "f" hchunk
  exact ⟨by decide, by decide, own_files_only _ neighbouredFiles [] (fun _ hstat => by cases hstat)
    (reaches_runTo _ _ _ neighbouredRun) hname⟩

end SDownload
