import SDownload.Manager.Operations

/-!
# SDownload.Manager.Evolution

What a step cannot change.

* `Evolves`: a turn of a task, and everything a method does short of registering or
  forgetting a chunk, leaves the two tables and the suspended calls alone. Tasks
  and records keep what they are about, no new ones appear, and a task that is
  done stays as it is.
* `startChunk_cases` and `resizeChunk_cases` say what registering a chunk does.
-/

namespace SDownload

/-! ### Tasks and records keep what they are about -/

/-- The same task, further on. -/
structure Task.Later (t t' : Task) : Prop where
  range : t'.range = t.range
  stats : t'.stats = t.stats
  job : t'.job = t.job
  done : ∀ r, t.phase = .done r → t'.phase = .done r

theorem Task.Later.refl (t : Task) : t.Later t := ⟨rfl, rfl, rfl, fun _ h => h⟩

theorem Task.Later.trans {t t' t'' : Task} (h : t.Later t') (h' : t'.Later t'') : t.Later t'' :=
  ⟨h'.range.trans h.range, h'.stats.trans h.stats, h'.job.trans h.job,
    fun r hr => h'.done r (h.done r hr)⟩

/-- The same record, with what never changes in it. -/
structure SameRecord (s s' : Stats) : Prop where
  range : s'.range = s.range
  chunkFileName : s'.chunkFileName = s.chunkFileName
  fileSize : s'.fileSize = s.fileSize

theorem SameRecord.refl (s : Stats) : SameRecord s s := ⟨rfl, rfl, rfl⟩

theorem SameRecord.symm {s s' : Stats} (h : SameRecord s s') : SameRecord s' s :=
  ⟨h.range.symm, h.chunkFileName.symm, h.fileSize.symm⟩

theorem SameRecord.trans {s s' s'' : Stats} (h : SameRecord s s') (h' : SameRecord s' s'') :
    SameRecord s s'' :=
  ⟨h'.range.trans h.range, h'.chunkFileName.trans h.chunkFileName, h'.fileSize.trans h.fileSize⟩

namespace Task

theorem done_iff {t : Task} : t.Done ↔ ∃ r, t.phase = .done r := by
  unfold Done result
  cases t.phase <;> simp

theorem result_eq_some {t : Task} {r : TaskEnd} : t.result = some r ↔ t.phase = .done r := by
  unfold result
  cases t.phase <;> simp

theorem Later.done_of {t t' : Task} (h : t.Later t') (hd : t.Done) : t'.Done := by
  obtain ⟨r, hr⟩ := done_iff.mp hd
  exact done_iff.mpr ⟨r, h.done r hr⟩

end Task

theorem SameRecord.addQtBytesDownloaded (s : Stats) (n : Int) :
    SameRecord s (s.addQtBytesDownloaded n).1 := by
  unfold ChunkDownloadStats.addQtBytesDownloaded
  dsimp only
  split
  · split <;> exact ⟨rfl, rfl, rfl⟩
  · exact ⟨rfl, rfl, rfl⟩

theorem SameRecord.addLimitObserver (s : Stats) (n : Int) (cb : StopCallback) :
    SameRecord s (s.addLimitObserver n cb).1 := by
  unfold ChunkDownloadStats.addLimitObserver
  split <;> exact ⟨rfl, rfl, rfl⟩

/-- The record `_register_chunk_stats` makes. -/
def freshRecord (params : ChunkManagerParams) (r : ChunkRange) : Stats where
  chunkFileName := formatChunkFileName r params.fileName
  range := r
  fileSize := (getEffectiveRangeInfo r params.fileSize).2

namespace DownloadState

/-- A download, further on. -/
structure Later (d d' : DownloadState) : Prop where
  task : d.task.Later d'.task
  stats : SameRecord d.stats d'.stats

/-- A turn that starts at a phase the task is not done in moves the task on. -/
theorem later_of_not_done {d d' : DownloadState} (hnd : ∀ r, d.task.phase ≠ .done r)
    (hrange : d'.task.range = d.task.range) (hstats : d'.task.stats = d.task.stats)
    (hjob : d'.task.job = d.task.job) (hrecord : SameRecord d.stats d'.stats) : d.Later d' :=
  ⟨⟨hrange, hstats, hjob, fun r h => absurd h (hnd r)⟩, hrecord⟩

theorem finish_stats (d : DownloadState) (e : TaskEnd) : SameRecord d.stats (d.finish e).stats := by
  cases e with
  | returned =>
      unfold finish
      dsimp only
      split
      · split <;> exact ⟨rfl, rfl, rfl⟩
      · exact ⟨rfl, rfl, rfl⟩
  | cancelled =>
      unfold finish
      dsimp only
      split
      · split <;> exact ⟨rfl, rfl, rfl⟩
      · exact ⟨rfl, rfl, rfl⟩
  | failed e => exact ⟨rfl, rfl, rfl⟩

/-- Finishing only moves the task to an end. -/
theorem finish_task (d : DownloadState) (e : TaskEnd) :
    ∃ r, (d.finish e).task = { d.task with phase := .done r } := by
  cases e with
  | returned =>
      unfold finish
      dsimp only
      split
      · split <;> exact ⟨_, rfl⟩
      · exact ⟨_, rfl⟩
  | cancelled => exact ⟨_, rfl⟩
  | failed e => exact ⟨_, rfl⟩

@[simp] theorem finish_files (d : DownloadState) (e : TaskEnd) :
    (d.finish e).files = d.files := by
  cases e with
  | returned =>
      unfold finish
      dsimp only
      split
      · split <;> rfl
      · rfl
  | cancelled => rfl
  | failed e => rfl

theorem finish_bytesDownloaded (d : DownloadState) (e : TaskEnd) :
    (d.finish e).stats.bytesDownloaded = d.stats.bytesDownloaded := by
  cases e with
  | returned =>
      unfold finish
      dsimp only
      split
      · split <;> rfl
      · rfl
  | cancelled =>
      unfold finish
      dsimp only
      split
      · split <;> rfl
      · rfl
  | failed e => rfl

@[simp] theorem leave_task (d : DownloadState) (file : Handle) (effect : Option Bytes) :
    (d.leave file effect).task = d.task := by
  cases effect <;> rfl

@[simp] theorem leave_stats (d : DownloadState) (file : Handle) (effect : Option Bytes) :
    (d.leave file effect).stats = d.stats := by
  cases effect <;> rfl

theorem finish_later {d d' : DownloadState} (e : TaskEnd) (hnd : ∀ r, d.task.phase ≠ .done r)
    (htask : d'.task.range = d.task.range ∧ d'.task.stats = d.task.stats ∧
      d'.task.job = d.task.job) (hstats : d'.stats = d.stats) : d.Later (d'.finish e) := by
  obtain ⟨r, hr⟩ := d'.finish_task e
  refine later_of_not_done hnd ?_ ?_ ?_ (hstats ▸ d'.finish_stats e)
  · rw [hr]; exact htask.1
  · rw [hr]; exact htask.2.1
  · rw [hr]; exact htask.2.2

theorem openFile_later (d : DownloadState) (opened : Bool) :
    (if opened then d.openFile.2 else d).task = d.task ∧
      (if opened then d.openFile.2 else d).stats = d.stats := by
  cases opened <;> exact ⟨rfl, rfl⟩

theorem run_later {d d' : DownloadState} {e : TaskEvent} {cb : Option StopCallback}
    (h : d.run e = some (d', cb)) : d.Later d' := by
  unfold run at h
  split at h <;> first | cases h; done | rename_i hphase
  all_goals
    have hnd : ∀ r, d.task.phase ≠ .done r := by intro r hr; rw [hphase] at hr; cases hr
    obtain ⟨rfl, -⟩ := Prod.mk.inj (Option.some.inj h)
  · exact later_of_not_done hnd rfl rfl rfl ⟨rfl, rfl, rfl⟩
  · exact later_of_not_done hnd rfl rfl rfl ⟨rfl, rfl, rfl⟩
  · -- a failed opening, which may have created the file
    rename_i effect
    obtain ⟨htask, hstats⟩ := d.openFile_later effect.isSome
    exact finish_later _ hnd (by simp only [htask, and_self]) hstats
  · exact later_of_not_done hnd rfl rfl rfl (SameRecord.addQtBytesDownloaded _ _)
  · exact later_of_not_done hnd rfl rfl rfl ⟨rfl, rfl, rfl⟩
  · exact later_of_not_done hnd rfl rfl rfl ⟨rfl, rfl, rfl⟩
  · exact later_of_not_done hnd rfl rfl rfl ⟨rfl, rfl, rfl⟩
  · refine later_of_not_done hnd ?_ ?_ ?_ ?_ <;> simp [enter, SameRecord.refl]
  · exact finish_later _ hnd ⟨rfl, rfl, rfl⟩ rfl
  · exact finish_later _ hnd (by simp) (by simp)

theorem cancel_later {d d' : DownloadState} {effect : Option Bytes}
    (h : d.cancel effect = some d') : d.Later d' := by
  unfold cancel at h
  dsimp only at h
  split at h <;> first | cases h; done | rename_i hphase
  all_goals
    have hnd : ∀ r, d.task.phase ≠ .done r := by intro r hr; rw [hphase] at hr; cases hr
    obtain rfl := Option.some.inj h
  · exact later_of_not_done hnd rfl rfl rfl ⟨rfl, rfl, rfl⟩
  · have hopen := openFile_later { d with task := { d.task with cancelRequested := false } }
      effect.isSome
    exact finish_later _ hnd (by simp only [hopen.1, and_self]) hopen.2
  · exact later_of_not_done hnd rfl rfl rfl ⟨rfl, rfl, rfl⟩
  · exact later_of_not_done hnd rfl rfl rfl ⟨rfl, rfl, rfl⟩
  · exact later_of_not_done hnd rfl rfl rfl ⟨rfl, rfl, rfl⟩

theorem step_later {d d' : DownloadState} {e : TaskEvent} {cb : Option StopCallback}
    (h : d.step e = some (d', cb)) : d.Later d' := by
  unfold step at h
  split at h
  · obtain ⟨d'', hcancel, heq⟩ := Option.map_eq_some_iff.mp h
    obtain ⟨rfl, -⟩ := Prod.mk.inj heq
    exact cancel_later hcancel
  · cases h
  · exact run_later h

end DownloadState

namespace SuccessionState

/-- A succession, further on. -/
structure Later (u u' : SuccessionState) : Prop where
  task : u.task.Later u'.task
  successor : SameRecord u.successor u'.successor
  predecessor : SameRecord u.predecessor u'.predecessor

/-- The two states are about the same task and records. -/
structure Same (u u' : SuccessionState) : Prop where
  range : u'.task.range = u.task.range
  stats : u'.task.stats = u.task.stats
  job : u'.task.job = u.task.job
  successor : SameRecord u.successor u'.successor
  predecessor : SameRecord u.predecessor u'.predecessor

theorem Same.trans {u u' u'' : SuccessionState} (h : u.Same u') (h' : u'.Same u'') : u.Same u'' :=
  ⟨h'.range.trans h.range, h'.stats.trans h.stats, h'.job.trans h.job,
    h.successor.trans h'.successor, h.predecessor.trans h'.predecessor⟩

theorem Same.later {u u' : SuccessionState} (h : u.Same u') (hnd : ∀ r, u.task.phase ≠ .done r) :
    u.Later u' :=
  ⟨⟨h.range, h.stats, h.job, fun r hr => absurd hr (hnd r)⟩, h.successor, h.predecessor⟩

/-- Neither the files nor the flags of the task are part of it. -/
theorem same_of_files (u : SuccessionState) (files : Files) (cancelRequested : Bool) :
    u.Same { u with files, task := { u.task with cancelRequested } } :=
  ⟨rfl, rfl, rfl, .refl _, .refl _⟩

theorem same_enter (u : SuccessionState) (phase : Phase) : u.Same (u.enter phase) :=
  ⟨rfl, rfl, rfl, .refl _, .refl _⟩

theorem same_fail (u : SuccessionState) (e : TaskError) : u.Same (u.fail e) := by
  refine ⟨rfl, rfl, rfl, ?_, .refl _⟩
  unfold fail
  dsimp only
  split <;> exact ⟨rfl, rfl, rfl⟩

theorem same_failWith (u : SuccessionState) (e : TaskError) : u.Same (u.failWith e) := by
  have hset : u.Same { u with successor := u.successor.setError e } :=
    ⟨rfl, rfl, rfl, ⟨rfl, rfl, rfl⟩, .refl _⟩
  exact hset.trans (same_fail _ e)

theorem same_succeed (u : SuccessionState) (e : TaskEnd) : u.Same (u.succeed e) := by
  unfold succeed
  dsimp only
  split
  · exact same_failWith _ _
  · split
    · exact same_failWith _ _
    · split
      · exact same_failWith _ _
      · split
        · exact same_fail _ _
        · exact same_enter _ _

theorem same_begin (u : SuccessionState) (hasTask : Bool) : u.Same (u.begin hasTask) := by
  have hsignal : u.Same { u with task := { u.task with initSignal := true } } :=
    ⟨rfl, rfl, rfl, .refl _, .refl _⟩
  unfold begin
  dsimp only
  split
  · exact hsignal.trans (same_fail _ _)
  · split
    · exact hsignal.trans (same_enter _ _)
    · exact hsignal.trans (same_succeed _ _)

theorem same_handleCancel (u : SuccessionState) (runs : Bool) :
    u.Same (u.handleCancel runs).1 := by
  unfold handleCancel
  cases runs <;> exact ⟨rfl, rfl, rfl, ⟨rfl, rfl, rfl⟩, ⟨rfl, rfl, rfl⟩⟩

theorem run_later {u u' : SuccessionState} {hasTask : Bool} {predecessorEnd : Option TaskEnd}
    {e : TaskEvent} (h : u.run hasTask predecessorEnd e = some u') : u.Later u' := by
  unfold run at h
  split at h <;> first | cases h; done | rename_i hphase
  all_goals
    have hnd : ∀ r, u.task.phase ≠ .done r := by intro r hr; rw [hphase] at hr; cases hr
  · obtain rfl := Option.some.inj h
    exact (same_begin _ _).later hnd
  · obtain ⟨e, -, rfl⟩ := Option.map_eq_some_iff.mp h
    exact (same_succeed _ _).later hnd
  · split at h
    · obtain rfl := Option.some.inj h
      exact (same_fail _ _).later hnd
    · obtain rfl := Option.some.inj h
      exact Same.later ⟨rfl, rfl, rfl, .refl _, .refl _⟩ hnd
  · obtain rfl := Option.some.inj h
    exact ((u.same_of_files _ _).trans (same_fail _ _)).later hnd
  · split at h
    · obtain rfl := Option.some.inj h
      exact (same_fail _ _).later hnd
    · obtain rfl := Option.some.inj h
      exact Same.later ⟨rfl, rfl, rfl, ⟨rfl, rfl, rfl⟩, ⟨rfl, rfl, rfl⟩⟩ hnd
  · obtain rfl := Option.some.inj h
    exact (same_fail _ _).later hnd
  · split at h
    · cases h
    · obtain rfl := Option.some.inj h
      exact (same_enter _ _).later hnd
    · obtain rfl := Option.some.inj h
      exact Same.later ⟨rfl, rfl, rfl, ⟨rfl, rfl, rfl⟩, ⟨rfl, rfl, rfl⟩⟩ hnd

theorem cancel_later {u u' : SuccessionState} {runs stops : Bool} {effect : Option Bytes}
    (h : u.cancel runs effect = some (u', stops)) : u.Later u' := by
  unfold cancel at h
  dsimp only at h
  split at h <;> first | cases h; done | rename_i hphase
  all_goals
    have hnd : ∀ r, u.task.phase ≠ .done r := by intro r hr; rw [hphase] at hr; cases hr
    obtain ⟨rfl, -⟩ := Prod.mk.inj (Option.some.inj h)
  · exact Same.later ⟨rfl, rfl, rfl, .refl _, .refl _⟩ hnd
  · exact ((u.same_of_files _ false).trans (same_handleCancel _ _)).later hnd
  · exact ((u.same_of_files _ false).trans (same_handleCancel _ _)).later hnd
  · exact ((u.same_of_files _ false).trans (same_handleCancel _ _)).later hnd
  · exact Same.later ⟨rfl, rfl, rfl, ⟨rfl, rfl, rfl⟩, ⟨rfl, rfl, rfl⟩⟩ hnd

theorem step_later {u u' : SuccessionState} {hasTask stops : Bool}
    {predecessorEnd : Option TaskEnd} {e : TaskEvent}
    (h : u.step hasTask predecessorEnd e = some (u', stops)) : u.Later u' := by
  unfold step at h
  split at h
  · exact cancel_later h
  · cases h
  · obtain ⟨u'', hrun, heq⟩ := Option.map_eq_some_iff.mp h
    obtain ⟨rfl, -⟩ := Prod.mk.inj heq
    exact run_later hrun

end SuccessionState

/-! ### Worlds that keep their tables -/

namespace World

/-- The second world is the first one further on, with nothing registered or forgotten since. -/
structure Evolves (w w' : World) : Prop where
  chunksStats : w'.chunksStats = w.chunksStats
  chunksTasks : w'.chunksTasks = w.chunksTasks
  waitLocked : w'.waitLocked = w.waitLocked
  cleanedUp : w'.cleanedUp = w.cleanedUp
  calls : w'.calls = w.calls
  numTasks : w'.tasks.length = w.tasks.length
  numStats : w'.stats.length = w.stats.length
  task : ∀ (i : TaskId) (t : Task), w.tasks[i]? = some t →
    ∃ t', w'.tasks[i]? = some t' ∧ t.Later t'
  record : ∀ s, SameRecord (w.record s) (w'.record s)

theorem Evolves.refl (w : World) : w.Evolves w :=
  ⟨rfl, rfl, rfl, rfl, rfl, rfl, rfl, fun _ t h => ⟨t, h, .refl t⟩, fun _ => .refl _⟩

theorem Evolves.trans {w w' w'' : World} (h : w.Evolves w') (h' : w'.Evolves w'') :
    w.Evolves w'' where
  chunksStats := h'.chunksStats.trans h.chunksStats
  chunksTasks := h'.chunksTasks.trans h.chunksTasks
  waitLocked := h'.waitLocked.trans h.waitLocked
  cleanedUp := h'.cleanedUp.trans h.cleanedUp
  calls := h'.calls.trans h.calls
  numTasks := h'.numTasks.trans h.numTasks
  numStats := h'.numStats.trans h.numStats
  task := by
    intro i t ht
    obtain ⟨t', ht', hl⟩ := h.task i t ht
    obtain ⟨t'', ht'', hl'⟩ := h'.task i t' ht'
    exact ⟨t'', ht'', hl.trans hl'⟩
  record := fun s => (h.record s).trans (h'.record s)

/-- Where one task was replaced, a task is the new one or was there before. -/
theorem task_of_set {tasks : List Task} {i j : TaskId} {t u t' : Task} (ht : tasks[i]? = some t)
    (h : (tasks.set i u)[j]? = some t') : j = i ∧ t' = u ∨ j ≠ i ∧ tasks[j]? = some t' := by
  by_cases hji : j = i
  · subst hji
    rw [List.getElem?_set_self (List.getElem?_eq_some_iff.mp ht).1] at h
    exact Or.inl ⟨rfl, (Option.some.inj h).symm⟩
  · rw [List.getElem?_set_ne (Ne.symm hji)] at h
    exact Or.inr ⟨hji, h⟩

/-- Every task of the later world was there before. -/
theorem Evolves.task_of {w w' : World} (h : w.Evolves w') {i : TaskId} {t' : Task}
    (ht' : w'.tasks[i]? = some t') : ∃ t, w.tasks[i]? = some t ∧ t.Later t' := by
  have hlt : i < w.tasks.length := by
    rw [← h.numTasks]
    exact (List.getElem?_eq_some_iff.mp ht').1
  obtain ⟨t'', ht'', hl⟩ := h.task i _ (List.getElem?_eq_getElem hlt)
  obtain rfl : t'' = t' := Option.some.inj (ht''.symm.trans ht')
  exact ⟨_, List.getElem?_eq_getElem hlt, hl⟩

/-- Every task has a record, of its own range. -/
def TaskRanges (w : World) : Prop :=
  ∀ (i : TaskId) (t : Task), w.tasks[i]? = some t →
    t.stats < w.stats.length ∧ (w.record t.stats).range = t.range

/-- No two tasks have a record in common. -/
def OwnRecords (w : World) : Prop :=
  ∀ (i j : TaskId) (t t' : Task), w.tasks[i]? = some t → w.tasks[j]? = some t' →
    t.stats = t'.stats → i = j

/-- Every task of the record has ended. -/
def Ended (w : World) (s : StatsId) : Prop :=
  ∀ (i : TaskId) (t : Task), w.tasks[i]? = some t → t.stats = s → t.Done

theorem Evolves.task_stats {w w' : World} (h : w.Evolves w') {i : TaskId} {s : StatsId}
    (htask : ∃ t, w.tasks[i]? = some t ∧ t.stats = s) :
    ∃ t, w'.tasks[i]? = some t ∧ t.stats = s := by
  obtain ⟨t, ht, hstats⟩ := htask
  obtain ⟨t', ht', hl⟩ := h.task i t ht
  exact ⟨t', ht', hl.stats.trans hstats⟩

theorem Ended.evolves {w w' : World} {s : StatsId} (h : w.Ended s) (hev : w.Evolves w') :
    w'.Ended s := by
  intro i t' ht' hstats
  obtain ⟨t, ht, hl⟩ := hev.task_of ht'
  exact hl.done_of (h i t ht (hl.stats ▸ hstats))

theorem Evolves.taskRanges {w w' : World} (h : w.Evolves w') (hranges : w.TaskRanges) :
    w'.TaskRanges := by
  intro i t' ht'
  obtain ⟨t, ht, hl⟩ := h.task_of ht'
  rw [hl.stats, hl.range, h.numStats, (h.record _).range]
  exact hranges i t ht

theorem Evolves.ownRecords {w w' : World} (h : w.Evolves w') (hown : w.OwnRecords) :
    w'.OwnRecords := by
  intro i j t₁' t₂' h₁ h₂ heq
  obtain ⟨t₁, ht₁, hl₁⟩ := h.task_of h₁
  obtain ⟨t₂, ht₂, hl₂⟩ := h.task_of h₂
  exact hown i j t₁ t₂ ht₁ ht₂ (by rw [← hl₁.stats, ← hl₂.stats, heq])

theorem taskDone_iff {w : World} {i : TaskId} :
    w.TaskDone i ↔ ∃ t, w.tasks[i]? = some t ∧ t.Done := by
  unfold TaskDone taskResult Task.Done
  cases w.tasks[i]? <;> simp

theorem requestCancel_later (t : Task) : t.Later (requestCancel t) := by
  unfold requestCancel
  split
  · exact .refl t
  · exact ⟨rfl, rfl, rfl, fun _ h => h⟩

theorem result_requestCancel (t : Task) : (requestCancel t).result = t.result := by
  unfold requestCancel
  split <;> rfl

theorem getElem?_cancelTask (w : World) (i j : TaskId) :
    (w.cancelTask i).tasks[j]? = (w.tasks[j]?).map fun t =>
      if cancelTarget w.tasks w.tasks.length i = j then requestCancel t else t := by
  unfold cancelTask
  dsimp only
  rw [List.getElem?_modify]
  rfl

/-- Asking a task to stop does not end it. -/
@[simp] theorem taskResult_cancelTask (w : World) (i j : TaskId) :
    (w.cancelTask i).taskResult j = w.taskResult j := by
  unfold taskResult
  rw [getElem?_cancelTask]
  cases w.tasks[j]? with
  | none => rfl
  | some t =>
      simp only [Option.map_some, Option.bind_some]
      split
      · exact result_requestCancel t
      · rfl

@[simp] theorem taskDone_cancelTask (w : World) (i j : TaskId) :
    (w.cancelTask i).TaskDone j ↔ w.TaskDone j := by
  unfold TaskDone
  rw [taskResult_cancelTask]

theorem cancelTask_evolves (w : World) (i : TaskId) : w.Evolves (w.cancelTask i) where
  chunksStats := rfl
  chunksTasks := rfl
  waitLocked := rfl
  cleanedUp := rfl
  calls := rfl
  numTasks := List.length_modify ..
  numStats := rfl
  task := by
    intro j t ht
    rw [getElem?_cancelTask, ht]
    refine ⟨_, rfl, ?_⟩
    split
    · exact requestCancel_later t
    · exact .refl t
  record := fun _ => .refl _

theorem stopPredecessor_evolves (w : World) (cb : StopCallback) :
    w.Evolves (w.stopPredecessor cb) := by
  unfold stopPredecessor
  split
  · exact .refl w
  · split
    · exact cancelTask_evolves _ _
    · exact .refl w

theorem record_setRecord (w : World) (s s' : StatsId) (stats : Stats) :
    (w.setRecord s stats).record s' =
      if s' = s ∧ s < w.stats.length then stats else w.record s' := by
  unfold record setRecord
  by_cases hs : s' = s
  · subst hs
    by_cases hlt : s' < w.stats.length <;> simp [hlt]
  · simp [hs, Ne.symm hs]

theorem setRecord_evolves (w : World) {s : StatsId} {stats : Stats}
    (h : SameRecord (w.record s) stats) : w.Evolves (w.setRecord s stats) where
  chunksStats := rfl
  chunksTasks := rfl
  waitLocked := rfl
  cleanedUp := rfl
  calls := rfl
  numTasks := rfl
  numStats := List.length_set ..
  task := fun _ t ht => ⟨t, ht, .refl t⟩
  record := by
    intro s'
    rw [record_setRecord]
    split
    · rename_i hs
      rw [hs.1]
      exact h
    · exact .refl _

/-- Replace a task by itself, further on, and the files by any. -/
theorem setTask_evolves {w : World} {i : TaskId} {t t' : Task} (files : Files)
    (ht : w.tasks[i]? = some t) (h : t.Later t') :
    w.Evolves { w with files := files, tasks := w.tasks.set i t' } where
  chunksStats := rfl
  chunksTasks := rfl
  waitLocked := rfl
  cleanedUp := rfl
  calls := rfl
  numTasks := List.length_set ..
  numStats := rfl
  task := by
    intro j t₀ ht₀
    rw [List.getElem?_set]
    split
    · rename_i hij
      subst hij
      obtain rfl : t₀ = t := Option.some.inj (ht₀.symm.trans ht)
      rw [if_pos (List.getElem?_eq_some_iff.mp ht).1]
      exact ⟨t', rfl, h⟩
    · exact ⟨t₀, ht₀, .refl _⟩
  record := fun _ => .refl _

/-- A turn of a task keeps the tables. -/
theorem taskStep_evolves {w w' : World} {i : TaskId} {e : TaskEvent}
    (h : w.taskStep i e = some w') : w.Evolves w' := by
  unfold taskStep at h
  split at h
  · cases h
  · rename_i t ht
    split at h
    · split at h
      · cases h
      · rename_i d cb hstep
        have hl := DownloadState.step_later hstep
        have hset := (setTask_evolves d.files ht hl.task).trans (setRecord_evolves _ hl.stats)
        obtain rfl := Option.some.inj h
        cases cb with
        | none => exact hset
        | some cb => exact hset.trans (stopPredecessor_evolves _ cb)
    · rename_i p predecessorTask hjob
      split at h
      · cases h
      · rename_i u stops hstep
        have hl := SuccessionState.step_later hstep
        have hset := (setTask_evolves u.files ht hl.task).trans (setRecord_evolves _ hl.successor)
        have hset' := hset.trans
          (setRecord_evolves _ (s := p) ((hset.record p).symm.trans hl.predecessor))
        obtain rfl := Option.some.inj h
        cases stops with
        | false => exact hset'
        | true =>
            cases predecessorTask with
            | none => exact hset'
            | some task => exact hset'.trans (cancelTask_evolves _ task)

/-! ### Registering a chunk -/

/-- The second world has a new record and a new task for a range; the rest is the first world
further on. -/
structure Creates (params : ChunkManagerParams) (w w' : World) (r : ChunkRange) (job : Job) :
    Prop where
  chunksStats : w'.chunksStats = w.chunksStats.set r w.stats.length
  chunksTasks : w'.chunksTasks = w.chunksTasks.set r w.tasks.length
  waitLocked : w'.waitLocked = w.waitLocked
  cleanedUp : w'.cleanedUp = w.cleanedUp
  calls : w'.calls = w.calls
  numTasks : w'.tasks.length = w.tasks.length + 1
  numStats : w'.stats.length = w.stats.length + 1
  task : ∀ (i : TaskId) (t : Task), w.tasks[i]? = some t →
    ∃ t', w'.tasks[i]? = some t' ∧ t.Later t'
  newTask : w'.tasks[w.tasks.length]? = some { range := r, stats := w.stats.length, job }
  record : ∀ s < w.stats.length, SameRecord (w.record s) (w'.record s)
  newRecord : SameRecord
    { chunkFileName := formatChunkFileName r params.fileName
      range := r
      fileSize := (getEffectiveRangeInfo r params.fileSize).2 } (w'.record w.stats.length)

variable {params : ChunkManagerParams}

/-- The records are those there were, and the new one. -/
theorem Creates.lt_or_eq {w w' : World} {r : ChunkRange} {job : Job} (h : w.Creates params w' r job)
    {s : StatsId} (hs : s < w'.stats.length) : s < w.stats.length ∨ s = w.stats.length := by
  rw [h.numStats] at hs
  exact Nat.lt_succ_iff_lt_or_eq.mp hs

theorem Creates.lt_succ {w w' : World} {r : ChunkRange} {job : Job} (h : w.Creates params w' r job)
    {s : StatsId} (hs : s < w.stats.length) : s < w'.stats.length := by
  rw [h.numStats]
  exact Nat.lt_succ_of_lt hs

theorem Creates.range {w w' : World} {r : ChunkRange} {job : Job} (h : w.Creates params w' r job)
    {s : StatsId} (hs : s < w.stats.length) : (w'.record s).range = (w.record s).range :=
  (h.record s hs).range

/-- Every task of the later world was there before, or is the new one. -/
theorem Creates.task_of {w w' : World} {r : ChunkRange} {job : Job} (h : w.Creates params w' r job)
    {i : TaskId} {t' : Task} (ht' : w'.tasks[i]? = some t') :
    (∃ t, w.tasks[i]? = some t ∧ t.Later t') ∨
      i = w.tasks.length ∧ t' = { range := r, stats := w.stats.length, job } := by
  rcases Nat.lt_or_ge i w.tasks.length with hlt | hge
  · obtain ⟨t'', ht'', hl⟩ := h.task i _ (List.getElem?_eq_getElem hlt)
    obtain rfl : t'' = t' := Option.some.inj (ht''.symm.trans ht')
    exact Or.inl ⟨_, List.getElem?_eq_getElem hlt, hl⟩
  · have hlt := (List.getElem?_eq_some_iff.mp ht').1
    rw [h.numTasks] at hlt
    obtain rfl : i = w.tasks.length := Nat.le_antisymm (Nat.lt_succ_iff.mp hlt) hge
    exact Or.inr ⟨rfl, Option.some.inj (ht'.symm.trans h.newTask)⟩

theorem Creates.task_stats {w w' : World} {r : ChunkRange} {job : Job}
    (h : w.Creates params w' r job) {i : TaskId} {s : StatsId}
    (htask : ∃ t, w.tasks[i]? = some t ∧ t.stats = s) :
    ∃ t, w'.tasks[i]? = some t ∧ t.stats = s := by
  obtain ⟨t, ht, hstats⟩ := htask
  obtain ⟨t', ht', hl⟩ := h.task i t ht
  exact ⟨t', ht', hl.stats.trans hstats⟩

theorem Ended.creates {w w' : World} {r : ChunkRange} {job : Job} {s : StatsId} (h : w.Ended s)
    (hs : s < w.stats.length) (hcreates : w.Creates params w' r job) : w'.Ended s := by
  intro i t' ht' hstats
  rcases hcreates.task_of ht' with ⟨t, ht, hl⟩ | ⟨-, rfl⟩
  · exact hl.done_of (h i t ht (hl.stats ▸ hstats))
  · exact absurd hstats (Nat.ne_of_gt hs)

theorem Creates.taskRanges {w w' : World} {r : ChunkRange} {job : Job}
    (h : w.Creates params w' r job) (hranges : w.TaskRanges) : w'.TaskRanges := by
  intro i t' ht'
  rw [h.numStats]
  rcases h.task_of ht' with ⟨t, ht, hl⟩ | ⟨-, rfl⟩
  · obtain ⟨hlt, hrange⟩ := hranges i t ht
    rw [hl.stats, hl.range, (h.record _ hlt).range]
    exact ⟨Nat.lt_succ_of_lt hlt, hrange⟩
  · exact ⟨Nat.lt_succ_self _, h.newRecord.range⟩

/-- The new task has the new record. -/
theorem Creates.ownRecords {w w' : World} {r : ChunkRange} {job : Job}
    (h : w.Creates params w' r job) (hown : w.OwnRecords)
    (hbound : ∀ (i : TaskId) (t : Task), w.tasks[i]? = some t → t.stats < w.stats.length) :
    w'.OwnRecords := by
  intro i j t₁' t₂' h₁ h₂ heq
  rcases h.task_of h₁ with ⟨t₁, ht₁, hl₁⟩ | ⟨hi, rfl⟩
  · rw [hl₁.stats] at heq
    rcases h.task_of h₂ with ⟨t₂, ht₂, hl₂⟩ | ⟨-, rfl⟩
    · rw [hl₂.stats] at heq
      exact hown i j t₁ t₂ ht₁ ht₂ heq
    · exact absurd heq (Nat.ne_of_lt (hbound i t₁ ht₁))
  · rcases h.task_of h₂ with ⟨t₂, ht₂, hl₂⟩ | ⟨hj, rfl⟩
    · rw [hl₂.stats] at heq
      exact absurd heq.symm (Nat.ne_of_lt (hbound j t₂ ht₂))
    · rw [hi, hj]

theorem record_registerChunkStats (w : World) (r : ChunkRange) (speed : Option Int) (s : StatsId) :
    (w.registerChunkStats params r speed).record s =
      if s = w.stats.length then
        { chunkFileName := formatChunkFileName r params.fileName
          range := r
          fileSize := (getEffectiveRangeInfo r params.fileSize).2
          targetSpeedBps := speed }
      else w.record s := by
  unfold record registerChunkStats
  dsimp only
  split
  · rename_i hs
    subst hs
    simp
  · rename_i hs
    rw [List.getD_eq_getElem?_getD, List.getD_eq_getElem?_getD]
    rcases Nat.lt_or_ge s w.stats.length with hlt | hge
    · rw [List.getElem?_append_left hlt]
    · rw [List.getElem?_eq_none hge, List.getElem?_eq_none]
      rw [List.length_append, List.length_singleton]
      exact Nat.lt_of_le_of_ne hge (Ne.symm hs)

/-- Register a record, go on without touching the tables, and create the task. -/
theorem creates_of_evolves {w w' : World} {r : ChunkRange} (speed : Option Int) (job : Job)
    (h : (w.registerChunkStats params r speed).Evolves w') :
    w.Creates params (w'.createTask r w.stats.length job) r job where
  chunksStats := h.chunksStats
  chunksTasks := by
    show w'.chunksTasks.set r w'.tasks.length = _
    rw [h.chunksTasks, h.numTasks]
    rfl
  waitLocked := h.waitLocked
  cleanedUp := h.cleanedUp
  calls := h.calls
  numTasks := by
    show (w'.tasks ++ [_]).length = _
    rw [List.length_append, h.numTasks]
    rfl
  numStats := by
    show w'.stats.length = _
    rw [h.numStats]
    exact List.length_append
  task := by
    intro i t ht
    obtain ⟨t', ht', hl⟩ := h.task i t ht
    refine ⟨t', ?_, hl⟩
    show (w'.tasks ++ [_])[i]? = _
    rw [List.getElem?_append_left (List.getElem?_eq_some_iff.mp ht').1, ht']
  newTask := by
    show (w'.tasks ++ [_])[w.tasks.length]? = _
    have hlen : w'.tasks.length = w.tasks.length := h.numTasks
    rw [← hlen, List.getElem?_concat_length]
  record := by
    intro s hs
    have hrecord := h.record s
    rw [record_registerChunkStats, if_neg (Nat.ne_of_lt hs)] at hrecord
    exact hrecord
  newRecord := by
    have hrecord := h.record w.stats.length
    rw [record_registerChunkStats, if_pos rfl] at hrecord
    exact ⟨hrecord.range, hrecord.chunkFileName, hrecord.fileSize⟩

/-- `start_chunk` does nothing, or registers a range that is not completed and has no task. -/
theorem startChunk_cases (params : ChunkManagerParams) (w : World) (r : ChunkRange)
    (speed : Option Int) :
    w.startChunk params r speed = w ∧
        ((w.statsOf r).any (·.status = .completed) = true ∨ r ∈ w.chunksTasks.keys) ∨
      (w.statsOf r).any (·.status = .completed) = false ∧ r ∉ w.chunksTasks.keys ∧
        w.Creates params (w.startChunk params r speed) r .download := by
  unfold startChunk
  by_cases hcompleted : (w.statsOf r).any (·.status = .completed) = true
  · exact Or.inl ⟨if_pos hcompleted, Or.inl hcompleted⟩
  · rw [if_neg hcompleted]
    by_cases hkeys : r ∈ w.chunksTasks.keys
    · exact Or.inl ⟨if_pos hkeys, Or.inr hkeys⟩
    · rw [if_neg hkeys]
      exact Or.inr ⟨Bool.eq_false_iff.mpr hcompleted, hkeys,
        creates_of_evolves speed _ (.refl _)⟩

theorem addLimitObserver_evolves (w : World) (s : StatsId) (limit : Int) (cb : StopCallback) :
    w.Evolves (w.addLimitObserver s limit cb) := by
  have hset := w.setRecord_evolves (SameRecord.addLimitObserver (w.record s) limit cb)
  unfold addLimitObserver
  dsimp only
  cases ((w.record s).addLimitObserver limit cb).2 with
  | none => exact hset
  | some cb => exact hset.trans (stopPredecessor_evolves _ cb)

/-- The calls of `resize_chunk` that register the new range. -/
def Resizes (w : World) (currentRange newRange : ChunkRange) : Prop :=
  currentRange.contains newRange = true ∧ newRange ≠ currentRange ∧
    (w.statsOf currentRange).any
      (fun s => s.status ∈ [EDownloadStatus.pending, .downloading, .completed]) = true

instance (w : World) (currentRange newRange : ChunkRange) :
    Decidable (w.Resizes currentRange newRange) :=
  inferInstanceAs (Decidable (_ ∧ _ ∧ _))

/-- The new range of a resize is registered and awaits its succession. -/
def awaiting (params : ChunkManagerParams) (w : World) (r : ChunkRange) (speed : Option Int) :
    World :=
  (w.registerChunkStats params r speed).setRecord w.stats.length
    (((w.registerChunkStats params r speed).record w.stats.length).setStatus .awaitingSuccession)

theorem length_awaiting (params : ChunkManagerParams) (w : World) (r : ChunkRange)
    (speed : Option Int) : (w.awaiting params r speed).stats.length = w.stats.length + 1 :=
  (List.length_set ..).trans List.length_append

/-- The current range is observed, where it still downloads and is cut to a limit. -/
def observing (w : World) (currentRange newRange : ChunkRange) (a : StatsId) (w₂ : World) : World :=
  match newRange.endByte with
  | none => w₂
  | some e =>
      if e - currentRange.start + 1 ≠ 0 ∧
          (w.record a).status ∈ [EDownloadStatus.pending, .downloading] then
        w₂.addLimitObserver a (e - currentRange.start + 1) ⟨a, w.chunksTasks.get? currentRange⟩
      else w₂

/-- What a call does that registers the new range. -/
theorem resizeChunk_eq (params : ChunkManagerParams) {w : World}
    {currentRange newRange : ChunkRange} (h : w.Resizes currentRange newRange) {a : StatsId}
    (ha : w.chunksStats.get? currentRange = some a) :
    w.resizeChunk params currentRange newRange =
      .ok ((w.observing currentRange newRange a
        (w.awaiting params newRange (w.record a).targetSpeedBps)).createTask newRange w.stats.length
          (.succession a (w.chunksTasks.get? currentRange))) := by
  obtain ⟨hcontains, hne, hany⟩ := h
  rw [statsOf, ha] at hany
  have hstatus : (w.record a).status ∈ [EDownloadStatus.pending, .downloading, .completed] :=
    of_decide_eq_true hany
  unfold resizeChunk
  rw [if_neg (not_not.mpr hcontains), ha]
  dsimp only
  rw [if_neg hne, if_neg (not_not.mpr hstatus)]
  rfl

theorem awaiting_evolves (w₀ : World) (s : StatsId) :
    w₀.Evolves (w₀.setRecord s ((w₀.record s).setStatus .awaitingSuccession)) :=
  setRecord_evolves w₀ ⟨rfl, rfl, rfl⟩

theorem observing_evolves (w : World) (currentRange newRange : ChunkRange) (a : StatsId)
    (w₂ : World) : w₂.Evolves (w.observing currentRange newRange a w₂) := by
  unfold observing
  split
  · exact .refl _
  · split
    · exact addLimitObserver_evolves _ _ _ _
    · exact .refl _

/-- A call that registers the new range does so with a succession from the record and the task of
the current one. -/
theorem resizeChunk_of_resizes (params : ChunkManagerParams) {w : World}
    {currentRange newRange : ChunkRange} (h : w.Resizes currentRange newRange) :
    ∃ w' a, w.resizeChunk params currentRange newRange = .ok w' ∧
      w.chunksStats.get? currentRange = some a ∧
      w.Creates params w' newRange (.succession a (w.chunksTasks.get? currentRange)) := by
  have hany := h.2.2
  unfold statsOf at hany
  cases ha : w.chunksStats.get? currentRange with
  | none => simp [ha] at hany
  | some a =>
      exact ⟨_, a, resizeChunk_eq params h ha, rfl, creates_of_evolves (w.record a).targetSpeedBps _
        ((awaiting_evolves _ _).trans (observing_evolves _ _ _ _ _))⟩

/-- A call that does not raise registers the new range, if it is another one. -/
theorem resizes_of_ok {w w' : World} {currentRange newRange : ChunkRange}
    (hne : newRange ≠ currentRange) (h : w.resizeChunk params currentRange newRange = .ok w') :
    w.Resizes currentRange newRange := by
  unfold resizeChunk at h
  split at h
  · cases h
  rename_i hcontains
  split at h
  · split at h <;> cases h
  rename_i a ha
  dsimp only at h
  split at h
  · cases h
  rename_i hstatus
  refine ⟨not_not.mp hcontains, hne, ?_⟩
  rw [statsOf, ha]
  exact decide_eq_true (not_not.mp hstatus)

/-- `resize_chunk` raises, does nothing, or registers the new range. -/
theorem resizeChunk_cases {w w' : World} {currentRange newRange : ChunkRange}
    (h : w.resizeChunk params currentRange newRange = .ok w') :
    w' = w ∧ ¬ w.Resizes currentRange newRange ∨ w.Resizes currentRange newRange ∧
      ∃ a, w.chunksStats.get? currentRange = some a ∧
        w.Creates params w' newRange (.succession a (w.chunksTasks.get? currentRange)) := by
  by_cases hresizes : w.Resizes currentRange newRange
  · obtain ⟨w₁, a, hok, ha, hcreates⟩ := resizeChunk_of_resizes params hresizes
    obtain rfl : w' = w₁ := Except.ok.inj (h.symm.trans hok)
    exact Or.inr ⟨hresizes, a, ha, hcreates⟩
  · obtain rfl : newRange = currentRange := by
      by_contra hne
      exact hresizes (resizes_of_ok hne h)
    refine Or.inl ⟨?_, hresizes⟩
    unfold resizeChunk at h
    split at h
    · cases h
    split at h
    · split at h <;> cases h
    rw [if_pos rfl] at h
    exact (Except.ok.inj h).symm

end World

end SDownload
