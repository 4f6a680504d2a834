import SDownload.Manager.Downloads

/-!
# SDownload.Manager.Successions

What a turn of a succession that nobody cancels does, who is asked to stop, and what
`resize_chunk` leaves.

`Turns` lists the turns, with everything that a proof about them needs; `Started` and
`Resized` say the same of `start_chunk` and `resize_chunk` when they register a chunk.
-/

namespace SDownload

/-! ### Cropping -/

/-- Cropping bytes of the source leaves bytes of the source. -/
theorem cropBytes_of_drop {source bytes : Bytes} {a s e : Int} (ha : 0 ≤ a) (hle : a ≤ s)
    (hse : s ≤ e) (hfront : bytes <+: source.drop a.toNat) (hlt : e - a < bytes.length) :
    cropBytes bytes (s - a) (e - a) = (source.drop s.toNat).take (e + 1 - s).toNat := by
  unfold cropBytes
  rw [List.prefix_iff_eq_take.mp hfront, List.drop_take, List.drop_drop, List.take_take]
  congr 1
  · omega
  · congr 1
    omega

/-- Cropping a front of a range's part to a range inside it leaves that range's part. -/
theorem cropBytes_of_prefix {source : Bytes} {a b : ChunkRange} {e : Int} {bytes : Bytes}
    (ha : 0 ≤ a.start)
    (hend : b.endByte = some e) (hinside : a.contains b = true)
    (hfront : bytes <+: a.bytesOf source)
    (hlt : e - a.start < bytes.length) :
    cropBytes bytes (b.start - a.start) (e - a.start) = b.bytesOf source := by
  obtain ⟨hle, hle', -⟩ := ChunkRange.of_contains hend hinside
  rw [cropBytes_of_drop ha hle hle' (hfront.trans (List.take_prefix _ _)) hlt]
  obtain ⟨s, e'⟩ := b
  obtain rfl : e' = some e := hend
  rfl

/-! ### A turn of a succession -/

namespace SuccessionState

variable {u u' : SuccessionState}

/-- What is left alone by a turn that moves the task on, or ends it with an error. -/
structure SameData (u u' : SuccessionState) : Prop where
  cancelRequested : u'.task.cancelRequested = u.task.cancelRequested
  predecessor : u'.predecessor = u.predecessor
  files : u'.files = u.files
  bytesDownloaded : u'.successor.bytesDownloaded = u.successor.bytesDownloaded
  onLimit : u'.successor.onLimit = u.successor.onLimit

/-- The succession has failed. -/
structure Failed (u u' : SuccessionState) : Prop extends u.SameData u' where
  phase : ∃ e, u'.task.phase = .done (.failed e)
  status : u'.successor.status = .error

/-- The succession has begun to wait for its predecessor. -/
structure Waits (u u' : SuccessionState) : Prop extends u.SameData u' where
  phase : u'.task.phase = .awaitingPredecessor
  successor : u'.successor = u.successor

/-- The succession goes on to crop its predecessor's file. -/
structure Crops (u u' : SuccessionState) : Prop extends u.SameData u' where
  phase : u'.task.phase = .cropping u.startCrop u.endCrop
  successor : u'.successor = u.successor
  hasData : 0 < u.predecessor.bytesDownloaded

/-- The turns of a succession that nobody cancels, where no operation fails. -/
inductive Turns (u : SuccessionState) (predecessorEnded : Bool) : SuccessionState → Prop
  | failed {u' : SuccessionState} (h : u.Failed u')
      (missing : ∀ startCrop endCrop, u.task.phase = .moving startCrop endCrop →
        u.files.lookup u.predecessor.chunkFileName = none) : Turns u predecessorEnded u'
  | waits {u' : SuccessionState} (phase : u.task.phase = .created) (h : u.Waits u') :
      Turns u predecessorEnded u'
  | crops {u' : SuccessionState} (ended : predecessorEnded = true)
      (phase : u.task.phase = .created ∨ u.task.phase = .awaitingPredecessor) (h : u.Crops u') :
      Turns u predecessorEnded u'
  | cropped {startCrop endCrop : Int} {files : Files}
      (phase : u.task.phase = .cropping startCrop endCrop)
      (crop : cropFile u.files u.predecessor.chunkFileName startCrop endCrop = .ok files) :
      Turns u predecessorEnded { u.enter (.moving startCrop endCrop) with files }
  | moved {startCrop endCrop : Int} {ino : Nat} (phase : u.task.phase = .moving startCrop endCrop)
      (lookup : u.files.lookup u.predecessor.chunkFileName = some ino) :
      Turns u predecessorEnded ({ u with
        files := u.files.rename u.predecessor.chunkFileName u.successor.chunkFileName
        }.complete startCrop endCrop)

theorem failed_fail (u : SuccessionState) (e : TaskError) : u.Failed (u.fail e) := by
  unfold fail
  dsimp only
  split
  · exact ⟨⟨rfl, rfl, rfl, rfl, rfl⟩, ⟨e, rfl⟩, rfl⟩
  · rename_i h
    exact ⟨⟨rfl, rfl, rfl, rfl, rfl⟩, ⟨e, rfl⟩, not_not.mp h⟩

theorem failed_failWith (u : SuccessionState) (e : TaskError) : u.Failed (u.failWith e) := by
  have h := failed_fail { u with successor := u.successor.setError e } e
  exact ⟨⟨h.cancelRequested, h.predecessor, h.files, h.bytesDownloaded, h.onLimit⟩, h.phase,
    h.status⟩

/-- Once the predecessor has ended, a succession fails or goes on to crop. -/
theorem succeed_cases (u : SuccessionState) (predecessorEnd : TaskEnd) :
    u.Failed (u.succeed predecessorEnd) ∨ u.Crops (u.succeed predecessorEnd) := by
  unfold succeed
  dsimp only
  split
  · exact Or.inl (failed_failWith _ _)
  · split
    · exact Or.inl (failed_failWith _ _)
    · split
      · exact Or.inl (failed_failWith _ _)
      · rename_i hdata
        split
        · exact Or.inl (failed_fail _ _)
        · exact Or.inr ⟨⟨rfl, rfl, rfl, rfl, rfl⟩, rfl, rfl, not_le.mp hdata⟩

/-- **Every turn** of a succession that nobody cancels is one of `Turns`. -/
theorem turns_of_run {hasPredecessorTask : Bool} {predecessorEnd : Option TaskEnd} {e : TaskEvent}
    (hphase : u.task.phase ≠ .cancellingPredecessor) (he : ∀ effect, e ≠ .fails effect)
    (h : u.run hasPredecessorTask predecessorEnd e = some u') :
    u.Turns (!hasPredecessorTask || predecessorEnd.isSome) u' := by
  unfold run at h
  split at h <;> first | cases h; done | rename_i hp
  · obtain rfl := Option.some.inj h
    unfold begin
    dsimp only
    split
    · have hfail := failed_fail { u with task := { u.task with initSignal := true } }
        .notAwaitingSuccession
      exact .failed ⟨⟨hfail.cancelRequested, hfail.predecessor, hfail.files,
        hfail.bytesDownloaded, hfail.onLimit⟩, hfail.phase, hfail.status⟩ (by simp [hp])
    · split
      · exact .waits hp ⟨⟨rfl, rfl, rfl, rfl, rfl⟩, rfl, rfl⟩
      · rename_i hnone
        obtain hfail | hcrops :=
          succeed_cases { u with task := { u.task with initSignal := true } } .returned
        · exact .failed ⟨⟨hfail.cancelRequested, hfail.predecessor, hfail.files,
            hfail.bytesDownloaded, hfail.onLimit⟩, hfail.phase, hfail.status⟩ (by simp [hp])
        · exact .crops (by simp [Bool.eq_false_iff.mpr hnone]) (Or.inl hp) ⟨⟨hcrops.cancelRequested,
            hcrops.predecessor, hcrops.files, hcrops.bytesDownloaded, hcrops.onLimit⟩,
            hcrops.phase, hcrops.successor, hcrops.hasData⟩
  · obtain ⟨predecessorEnd, rfl, rfl⟩ := Option.map_eq_some_iff.mp h
    obtain hfail | hcrops := succeed_cases u predecessorEnd
    · exact .failed hfail (by simp [hp])
    · exact .crops (by simp) (Or.inr hp) hcrops
  · split at h
    · obtain rfl := Option.some.inj h
      exact .failed (failed_fail _ _) (by simp [hp])
    · rename_i hcrop
      obtain rfl := Option.some.inj h
      exact .cropped hp hcrop
  · exact absurd rfl (he _)
  · split at h
    · rename_i hnone
      obtain rfl := Option.some.inj h
      exact .failed (failed_fail _ _) fun _ _ _ => hnone
    · rename_i hlookup
      obtain rfl := Option.some.inj h
      exact .moved hp hlookup
  · exact absurd rfl (he _)
  · exact absurd hp hphase

/-- A succession that is done has no turn. -/
theorem not_done_of_run {hasPredecessorTask : Bool} {predecessorEnd : Option TaskEnd}
    {e : TaskEvent} (h : u.run hasPredecessorTask predecessorEnd e = some u') : ¬ u.task.Done := by
  intro hdone
  obtain ⟨r, hr⟩ := Task.done_iff.mp hdone
  simp [run, hr] at h

/-- The predecessor's record is left alone, or deprecated. -/
theorem Turns.predecessor {ended : Bool} (h : u.Turns ended u') :
    u'.predecessor = u.predecessor ∨ u'.predecessor = u.predecessor.setStatus .deprecated := by
  cases h with
  | failed h _ => exact Or.inl h.predecessor
  | waits _ h => exact Or.inl h.predecessor
  | crops _ _ h => exact Or.inl h.predecessor
  | cropped _ _ => exact Or.inl rfl
  | moved _ _ => exact Or.inr rfl

theorem Turns.onLimit {ended : Bool} (h : u.Turns ended u') :
    u'.successor.onLimit = u.successor.onLimit ∧
      u'.predecessor.onLimit = u.predecessor.onLimit := by
  refine ⟨?_, ?_⟩
  · cases h with
    | failed h _ => exact h.onLimit
    | waits _ h => exact h.onLimit
    | crops _ _ h => exact h.onLimit
    | cropped _ _ => rfl
    | moved _ _ => rfl
  · rcases h.predecessor with h | h <;> rw [h]
    rfl

/-- Nothing stops the succession, and it is not taken for a download. -/
theorem Turns.unstopped {ended : Bool} (h : u.Turns ended u')
    (hcancel : u.task.cancelRequested = false)
    (hstatus : u.successor.status ∉ [EDownloadStatus.pending, .downloading]) :
    (u'.task.cancelRequested = false ∧ u'.task.phase ≠ .cancellingPredecessor) ∧
      u'.successor.status ∉ [EDownloadStatus.pending, .downloading] := by
  cases h with
  | failed h _ =>
      obtain ⟨e, hphase⟩ := h.phase
      exact ⟨⟨h.cancelRequested.trans hcancel, by simp [hphase]⟩, by simp [h.status]⟩
  | waits _ h =>
      exact ⟨⟨h.cancelRequested.trans hcancel, by simp [h.phase]⟩, h.successor ▸ hstatus⟩
  | crops _ _ h =>
      exact ⟨⟨h.cancelRequested.trans hcancel, by simp [h.phase]⟩, h.successor ▸ hstatus⟩
  | cropped _ _ => exact ⟨⟨hcancel, by simp [enter]⟩, hstatus⟩
  | moved _ _ =>
      exact ⟨⟨hcancel, by simp [complete, enter]⟩, by
        simp [complete, ChunkDownloadStats.setStatus]⟩

end SuccessionState

/-! ### In the world -/

namespace World

/-- What a turn of a succession leaves, when nobody is asked to stop. -/
structure SuccessionTurn (w w' : World) (i : TaskId) (t : Task) (p : StatsId)
    (u : SuccessionState) : Prop where
  files : w'.files = u.files
  tasks : w'.tasks = w.tasks.set i u.task
  record : ∀ s, w'.record s =
    if s = p ∧ p < w.stats.length then u.predecessor
    else if s = t.stats ∧ t.stats < w.stats.length then u.successor else w.record s

/-- A turn of a succession that is not asked to stop is a turn of the coroutine, put back into the
world. -/
theorem successionTurn {w w' : World} {i : TaskId} {t : Task} {e : TaskEvent} {p : StatsId}
    {predecessorTask : Option TaskId} (ht : w.tasks[i]? = some t)
    (hjob : t.job = .succession p predecessorTask) (hcancel : t.cancelRequested = false)
    (hstep : w.taskStep i e = some w') :
    ∃ u, SuccessionState.run ⟨t, w.record t.stats, w.record p, w.files⟩ predecessorTask.isSome
        (predecessorTask.bind w.taskResult) e = some u ∧ w.SuccessionTurn w' i t p u := by
  unfold taskStep at hstep
  simp only [ht, hjob] at hstep
  split at hstep
  · cases hstep
  · rename_i u stops hturn
    simp only [SuccessionState.step, hcancel] at hturn
    obtain ⟨u', hrun, heq⟩ := Option.map_eq_some_iff.mp hturn
    obtain ⟨rfl, rfl⟩ := Prod.mk.inj heq
    obtain rfl := Option.some.inj hstep
    refine ⟨u', hrun, rfl, rfl, fun s => ?_⟩
    rw [if_neg Bool.false_ne_true, record_setRecord]
    simp only [setRecord, List.length_set]
    split
    · rfl
    · exact record_setRecord _ _ _ _

/-! ### Who is asked to stop -/

/-- At most the tasks with the property were asked to stop, and nothing else has changed. -/
structure AsksOnly (p : TaskId → Prop) (w w' : World) : Prop where
  files : w'.files = w.files
  stats : w'.stats = w.stats
  task : ∀ (i : TaskId) (t' : Task), w'.tasks[i]? = some t' →
    ∃ t, w.tasks[i]? = some t ∧ (t' = t ∨ p i ∧ t.Asked t')

/-- Every task of the list is a download. -/
def Downloads (w : World) (k : Option TaskId) : Prop :=
  ∀ i ∈ k, ∃ t, w.tasks[i]? = some t ∧ t.job = .download

theorem AsksOnly.refl (p : TaskId → Prop) (w : World) : AsksOnly p w w :=
  ⟨rfl, rfl, fun _ t ht => ⟨t, ht, Or.inl rfl⟩⟩

/-- A cancellation arrives at its task, unless that is cancelling its predecessor. -/
theorem cancelTarget_self {tasks : List Task} {i : TaskId} {t : Task} (ht : tasks[i]? = some t)
    (hnot : ∀ s p, t.job = .succession s (some p) → t.phase ≠ .cancellingPredecessor) (fuel : Nat) :
    cancelTarget tasks fuel i = i := by
  cases fuel with
  | zero => rfl
  | succ fuel =>
      unfold cancelTarget
      rw [ht]
      split
      · rename_i s p signal asked heq
        obtain rfl := Option.some.inj heq
        exact absurd rfl (hnot s p rfl)
      · rfl

theorem cancelTarget_download {tasks : List Task} {i : TaskId} {t : Task} (ht : tasks[i]? = some t)
    (hjob : t.job = .download) (fuel : Nat) : cancelTarget tasks fuel i = i :=
  cancelTarget_self ht (fun _ _ h => nomatch hjob.symm.trans h) fuel

/-- The callback of a succession asks at most its predecessor's task to stop. -/
theorem stopPredecessor_asksOnly {w : World} {cb : StopCallback}
    (hcb : w.Downloads cb.predecessorTask) :
    AsksOnly (fun i => cb.predecessorTask = some i) w (w.stopPredecessor cb) := by
  unfold stopPredecessor
  split
  · exact .refl _ w
  · rename_i k hk
    split
    · refine ⟨rfl, rfl, fun i t' ht' => ?_⟩
      obtain ⟨tk, htk, hjob⟩ := hcb k hk
      rw [getElem?_cancelTask, cancelTarget_download htk hjob] at ht'
      obtain ⟨t, ht, rfl⟩ := Option.map_eq_some_iff.mp ht'
      refine ⟨t, ht, ?_⟩
      split
      · rename_i hki
        exact Or.inr ⟨hk.trans (congrArg some hki), requestCancel_asked t⟩
      · exact Or.inl rfl
    · exact .refl _ w

end World

namespace DownloadState

variable {d d' : DownloadState}

/-- The end of a download writes the status and the error. -/
theorem finish_record (d : DownloadState) (e : TaskEnd) :
    ∃ status lastError, (d.finish e).stats = { d.stats with status, lastError } := by
  cases e with
  | returned =>
      unfold finish
      dsimp only
      split
      · split <;> exact ⟨_, _, rfl⟩
      · exact ⟨_, _, rfl⟩
  | cancelled =>
      unfold finish
      dsimp only
      split
      · split <;> exact ⟨_, _, rfl⟩
      · exact ⟨_, _, rfl⟩
  | failed e => exact ⟨_, _, rfl⟩

/-- **The record** after a turn of a download: a piece was counted, or the status was set. -/
theorem step_record {e : TaskEvent} {called : Option StopCallback}
    (h : d.step e = some (d', called)) :
    (∃ data : Bytes, (d'.stats, called) = d.stats.addQtBytesDownloaded data.length) ∨
      called = none ∧ ∃ status lastError, d'.stats = { d.stats with status, lastError } := by
  unfold step at h
  split at h
  · rename_i effect _
    obtain ⟨d'', hcancel, heq⟩ := Option.map_eq_some_iff.mp h
    obtain ⟨rfl, rfl⟩ := Prod.mk.inj heq
    refine Or.inr ⟨rfl, ?_⟩
    unfold cancel at hcancel
    dsimp only at hcancel
    split at hcancel <;> first | cases hcancel; done | skip
    all_goals obtain rfl := Option.some.inj hcancel
    · exact ⟨_, _, rfl⟩
    · obtain ⟨status, lastError, hfinish⟩ := finish_record (if effect.isSome then
        (openFile { d with task := { d.task with cancelRequested := false } }).2
        else { d with task := { d.task with cancelRequested := false } }) .cancelled
      rw [(openFile_later _ _).2] at hfinish
      exact ⟨status, lastError, hfinish⟩
    · exact ⟨_, _, rfl⟩
    · exact ⟨_, _, rfl⟩
    · exact ⟨_, _, rfl⟩
  · cases h
  · unfold run at h
    split at h <;> first | cases h; done | skip
    all_goals obtain ⟨rfl, rfl⟩ := Prod.mk.inj (Option.some.inj h)
    · exact Or.inr ⟨rfl, _, _, rfl⟩
    · exact Or.inr ⟨rfl, _, _, rfl⟩
    · rename_i effect _
      obtain ⟨status, lastError, hfinish⟩ :=
        finish_record (if effect.isSome then d.openFile.2 else d) (.failed .environment)
      rw [(d.openFile_later _).2] at hfinish
      exact Or.inr ⟨rfl, status, lastError, hfinish⟩
    · exact Or.inl ⟨_, rfl⟩
    · exact Or.inr ⟨rfl, _, _, rfl⟩
    · exact Or.inr ⟨rfl, _, _, rfl⟩
    · exact Or.inr ⟨rfl, _, _, rfl⟩
    · rename_i file delivered chunk effect _
      exact Or.inr ⟨rfl, _, _, leave_stats d file effect⟩
    · exact Or.inr ⟨rfl, finish_record _ _⟩
    · rename_i file delivered left effect _
      obtain ⟨status, lastError, hfinish⟩ := finish_record (d.leave file effect)
        (.failed .environment)
      rw [leave_stats] at hfinish
      exact Or.inr ⟨rfl, status, lastError, hfinish⟩

/-- No turn of a download places a callback, and the one it calls was there. -/
theorem step_onLimit {e : TaskEvent} {called : Option StopCallback}
    (h : d.step e = some (d', called)) {cb : StopCallback}
    (hcb : d'.stats.onLimit = some cb ∨ called = some cb) : d.stats.onLimit = some cb := by
  obtain ⟨data, hcount⟩ | ⟨rfl, status, lastError, hstats⟩ := step_record h
  · unfold ChunkDownloadStats.addQtBytesDownloaded at hcount
    dsimp only at hcount
    split at hcount
    · split at hcount
      · obtain ⟨hstats, rfl⟩ := Prod.mk.inj hcount
        rw [hstats] at hcb
        exact hcb.resolve_left (by simp)
      · obtain ⟨hstats, rfl⟩ := Prod.mk.inj hcount
        rw [hstats] at hcb
        exact hcb.resolve_right (by simp)
    · obtain ⟨hstats, rfl⟩ := Prod.mk.inj hcount
      rw [hstats] at hcb
      exact hcb.resolve_right (by simp)
  · rw [hstats] at hcb
    exact hcb.resolve_right (by simp)

/-- A download does not uncount. -/
theorem bytes_le_of_step {e : TaskEvent} {called : Option StopCallback}
    (hstep : d.step e = some (d', called)) :
    d.stats.bytesDownloaded ≤ d'.stats.bytesDownloaded := by
  obtain ⟨data, hcount⟩ | ⟨-, status, lastError, hstats⟩ := step_record hstep
  · rw [show d'.stats = _ from congrArg Prod.fst hcount, (addQtBytesDownloaded_fields _ _).1]
    omega
  · rw [hstats]

end DownloadState

/-! ### Registering a chunk -/

namespace World

variable {params : ChunkManagerParams} {w w' : World}

theorem record_of_length_le {s : StatsId} (h : w.stats.length ≤ s) : w.record s = default := by
  rw [record, List.getD_eq_getElem?_getD, List.getElem?_eq_none h, Option.getD_none]

/-- What registering a chunk leaves alone, and what the new record is. -/
structure Grows (params : ChunkManagerParams) (w w' : World) (r : ChunkRange)
    (status : EDownloadStatus) : Prop where
  files : w'.files = w.files
  counts : ∀ s < w.stats.length, (w'.record s).bytesDownloaded = (w.record s).bytesDownloaded ∧
    (w'.record s).status = (w.record s).status
  fresh : ∃ speed,
    w'.record w.stats.length = { freshRecord params r with status, targetSpeedBps := speed }

/-- `start_chunk` of a range it registers. -/
structure Started (params : ChunkManagerParams) (w w' : World) (r : ChunkRange) : Prop
    extends w.Creates params w' r .download, w.Grows params w' r .pending where
  same : ∀ s < w.stats.length, w'.record s = w.record s
  tasks : ∀ i ≠ w.tasks.length, w'.tasks[i]? = w.tasks[i]?

theorem getElem?_createTask (w : World) (r : ChunkRange) (s : StatsId) (job : Job) {i : TaskId}
    (hi : i ≠ w.tasks.length) : (w.createTask r s job).tasks[i]? = w.tasks[i]? := by
  show (w.tasks ++ [_])[i]? = _
  rcases Nat.lt_or_ge i w.tasks.length with hlt | hge
  · exact List.getElem?_append_left hlt
  · rw [List.getElem?_eq_none hge, List.getElem?_eq_none]
    rw [List.length_append, List.length_singleton]
    exact Nat.lt_of_le_of_ne hge (Ne.symm hi)

theorem startChunk_started (params : ChunkManagerParams) (w : World) (r : ChunkRange)
    (speed : Option Int) :
    w.startChunk params r speed = w ∨
      (w.statsOf r).any (·.status = .completed) = false ∧ r ∉ w.chunksTasks.keys ∧
        w.Started params (w.startChunk params r speed) r := by
  obtain ⟨hsame, -⟩ | ⟨hnew, hkey, hcreates⟩ := startChunk_cases params w r speed
  · exact Or.inl hsame
  · refine Or.inr ⟨hnew, hkey, ?_⟩
    have heq : w.startChunk params r speed =
        (w.registerChunkStats params r speed).createTask r w.stats.length .download := by
      unfold startChunk
      rw [if_neg (Bool.eq_false_iff.mp hnew), if_neg hkey]
    have hsame : ∀ s < w.stats.length,
        (w.startChunk params r speed).record s = w.record s := fun s hs => by
      rw [heq]
      exact (record_registerChunkStats w r speed s).trans (if_neg (Nat.ne_of_lt hs))
    refine { hcreates with
      files := by rw [heq]; rfl
      counts := fun s hs => by rw [hsame s hs]; exact ⟨rfl, rfl⟩
      fresh := ⟨speed, ?_⟩
      same := hsame
      tasks := fun i hi => by rw [heq]; exact getElem?_createTask _ _ _ _ hi }
    rw [heq]
    exact (record_registerChunkStats w r speed _).trans (if_pos rfl)

/-- What `resize_chunk` makes of the predecessor's record, and the callback that is called at
once. -/
def observed (w : World) (a : StatsId) (limit : Int) (cb : StopCallback) :
    Stats × Option StopCallback :=
  if limit ≠ 0 ∧ (w.record a).status ∈ [EDownloadStatus.pending, .downloading] then
    (w.record a).addLimitObserver limit cb
  else (w.record a, none)

theorem observed_onLimit (w : World) (a : StatsId) (limit : Int) (cb : StopCallback) :
    ((w.observed a limit cb).1.onLimit = (w.record a).onLimit ∧
        (w.observed a limit cb).2 = none) ∨
      (w.record a).status ∈ [EDownloadStatus.pending, .downloading] ∧
        ((w.observed a limit cb).1.onLimit = (w.record a).onLimit ∨
          (w.observed a limit cb).1.onLimit = some cb) := by
  unfold observed ChunkDownloadStats.addLimitObserver
  split
  · rename_i h
    refine Or.inr ⟨h.2, ?_⟩
    split
    · exact Or.inl rfl
    · exact Or.inr rfl
  · exact Or.inl ⟨rfl, rfl⟩

/-- The callback is called at once only if the limit is reached. -/
theorem observed_called {w : World} {a : StatsId} {limit : Int} {cb : StopCallback}
    (h : (w.observed a limit cb).2.isSome = true) : limit ≤ (w.record a).bytesDownloaded := by
  unfold observed ChunkDownloadStats.addLimitObserver at h
  split at h
  · split at h
    · assumption
    · cases h
  · cases h

/-- The record is as it was, or has the limit the observer is placed with. -/
theorem observed_limit (w : World) (a : StatsId) (limit : Int) (cb : StopCallback) :
    (w.observed a limit cb).1 = w.record a ∨ (w.observed a limit cb).1.limitQtBytes = limit := by
  unfold observed ChunkDownloadStats.addLimitObserver
  split
  · split
    · exact Or.inl rfl
    · exact Or.inr rfl
  · exact Or.inl rfl

theorem observed_fields (w : World) (a : StatsId) (limit : Int) (cb : StopCallback) :
    (w.observed a limit cb).1.bytesDownloaded = (w.record a).bytesDownloaded ∧
      (w.observed a limit cb).1.status = (w.record a).status := by
  unfold observed ChunkDownloadStats.addLimitObserver
  split
  · split <;> exact ⟨rfl, rfl⟩
  · exact ⟨rfl, rfl⟩

/-- `resize_chunk` to a range it registers, with the record `a` of the current one. -/
structure Resized (params : ChunkManagerParams) (w w' : World) (currentRange newRange : ChunkRange)
    (a : StatsId) (limit : Int) : Prop
    extends w.Creates params w' newRange (.succession a (w.chunksTasks.get? currentRange)),
      w.Grows params w' newRange .awaitingSuccession where
  predecessor : w'.record a = (w.observed a limit ⟨a, w.chunksTasks.get? currentRange⟩).1
  other : ∀ s < w.stats.length, s ≠ a → w'.record s = w.record s
  asked : ∀ (i : TaskId) (t' : Task), i ≠ w.tasks.length → w'.tasks[i]? = some t' →
    ∃ t, w.tasks[i]? = some t ∧ (t' = t ∨
      (w.observed a limit ⟨a, w.chunksTasks.get? currentRange⟩).2.isSome = true ∧
        w.chunksTasks.get? currentRange = some i ∧ t.Asked t')

/-- A limit observer is placed, and the callback perhaps called. -/
theorem addLimitObserver_asksOnly {a : StatsId} (limit : Int) (cb : StopCallback)
    (ha : a < w.stats.length) (hcb : w.Downloads cb.predecessorTask) :
    (w.addLimitObserver a limit cb).files = w.files ∧
      (∀ s, (w.addLimitObserver a limit cb).record s =
        if s = a then ((w.record a).addLimitObserver limit cb).1 else w.record s) ∧
      ∀ (i : TaskId) (t' : Task), (w.addLimitObserver a limit cb).tasks[i]? = some t' →
        ∃ t, w.tasks[i]? = some t ∧ (t' = t ∨
          ((w.record a).addLimitObserver limit cb).2.isSome = true ∧
            cb.predecessorTask = some i ∧ t.Asked t') := by
  have hset : ∀ s, (w.setRecord a ((w.record a).addLimitObserver limit cb).1).record s =
      if s = a then ((w.record a).addLimitObserver limit cb).1 else w.record s := fun s => by
    rw [record_setRecord]
    simp only [ha, and_true]
  have hcalled : ∀ cb', ((w.record a).addLimitObserver limit cb).2 = some cb' → cb' = cb := by
    unfold ChunkDownloadStats.addLimitObserver
    intro cb' h
    split at h
    · exact (Option.some.inj h).symm
    · cases h
  unfold addLimitObserver
  dsimp only
  cases hcase : ((w.record a).addLimitObserver limit cb).2 with
  | none => exact ⟨rfl, hset, fun i t' ht' => ⟨t', ht', Or.inl rfl⟩⟩
  | some cb' =>
      obtain rfl := hcalled cb' hcase
      have hasks := stopPredecessor_asksOnly
        (w := w.setRecord a ((w.record a).addLimitObserver limit cb').1) hcb
      refine ⟨hasks.files, fun s => ?_, fun i t' ht' => ?_⟩
      · refine Eq.trans ?_ (hset s)
        unfold record
        exact congrArg (fun stats => List.getD stats s default) hasks.stats
      · obtain ⟨t, ht, hsame⟩ := hasks.task i t' ht'
        exact ⟨t, ht, hsame.imp_right fun h => ⟨rfl, h⟩⟩

/-- The records once `resize_chunk` has registered its range and before it places its observer. -/
theorem record_awaiting (params : ChunkManagerParams) (w : World) (r : ChunkRange)
    (speed : Option Int) (s : StatsId) :
    (w.awaiting params r speed).record s =
      if s = w.stats.length then
        { freshRecord params r with status := .awaitingSuccession, targetSpeedBps := speed }
      else w.record s := by
  rw [awaiting, record_setRecord, record_registerChunkStats, record_registerChunkStats, if_pos rfl]
  by_cases hs : s = w.stats.length
  · rw [if_pos ⟨hs, by simp [registerChunkStats]⟩, if_pos hs]
    rfl
  · rw [if_neg fun h => hs h.1, if_neg hs, if_neg hs]

/-- What placing the observer does to the world in which the new range is registered. -/
theorem observing_observed {currentRange newRange : ChunkRange} {e : Int} {a : StatsId} {w₂ : World}
    (hend : newRange.endByte = some e) (hlt : a < w₂.stats.length)
    (hfiles : w₂.files = w.files) (htasks : w₂.tasks = w.tasks)
    (hrecord : w₂.record a = w.record a)
    (hdownloads : (w.record a).status ∈ [EDownloadStatus.pending, .downloading] →
      w₂.Downloads (w.chunksTasks.get? currentRange)) :
    (w.observing currentRange newRange a w₂).files = w.files ∧
      (∀ s, (w.observing currentRange newRange a w₂).record s =
        if s = a then (w.observed a (e - currentRange.start + 1)
          ⟨a, w.chunksTasks.get? currentRange⟩).1 else w₂.record s) ∧
      ∀ (i : TaskId) (t' : Task),
        (w.observing currentRange newRange a w₂).tasks[i]? = some t' → ∃ t, w.tasks[i]? = some t ∧
          (t' = t ∨ (w.observed a (e - currentRange.start + 1)
            ⟨a, w.chunksTasks.get? currentRange⟩).2.isSome = true ∧
            w.chunksTasks.get? currentRange = some i ∧ t.Asked t') := by
  unfold observed observing
  rw [hend]
  dsimp only
  split
  · rename_i hobserved
    have hasks := addLimitObserver_asksOnly (w := w₂) (a := a) (e - currentRange.start + 1)
      ⟨a, w.chunksTasks.get? currentRange⟩ hlt (hdownloads hobserved.2)
    rw [hrecord, hfiles, htasks] at hasks
    exact hasks
  · refine ⟨hfiles, fun s => ?_, fun i t' ht' => ⟨t', htasks ▸ ht', Or.inl rfl⟩⟩
    split
    · rename_i hs
      rw [hs, hrecord]
    · rfl

/-- **`resize_chunk`** to a bounded range raises, does nothing, or is `Resized`. -/
theorem resizeChunk_resized {currentRange newRange : ChunkRange} {e : Int}
    (hend : newRange.endByte = some e)
    (hstats : ∀ r s, w.chunksStats.get? r = some s → s < w.stats.length)
    (hdownloads : ∀ a, w.chunksStats.get? currentRange = some a →
      (w.record a).status ∈ [EDownloadStatus.pending, .downloading] →
        w.Downloads (w.chunksTasks.get? currentRange))
    (h : w.resizeChunk params currentRange newRange = .ok w') :
    w' = w ∨ w.Resizes currentRange newRange ∧
      ∃ a, w.chunksStats.get? currentRange = some a ∧
        w.Resized params w' currentRange newRange a (e - currentRange.start + 1) := by
  obtain ⟨rfl, -⟩ | ⟨hresizes, a, ha, hcreates⟩ := resizeChunk_cases h
  · exact Or.inl rfl
  refine Or.inr ⟨hresizes, a, ha, ?_⟩
  have hlt := hstats _ _ ha
  obtain rfl := Except.ok.inj ((resizeChunk_eq params hresizes ha).symm.trans h)
  -- the new record waits for its succession, the others are as before
  let w₂ := w.awaiting params newRange (w.record a).targetSpeedBps
  have hlen : w₂.stats.length = w.stats.length + 1 := length_awaiting ..
  have hnew : w₂.record w.stats.length = { freshRecord params newRange with
      status := .awaitingSuccession, targetSpeedBps := (w.record a).targetSpeedBps } :=
    (record_awaiting params w newRange _ _).trans (if_pos rfl)
  have hold : ∀ s < w.stats.length, w₂.record s = w.record s := fun s hs =>
    (record_awaiting params w newRange _ s).trans (if_neg (Nat.ne_of_lt hs))
  let cb : StopCallback := ⟨a, w.chunksTasks.get? currentRange⟩
  let limit := e - currentRange.start + 1
  obtain ⟨w₃, hw₃, hfiles, hrecord, htasks⟩ : ∃ w₃,
      w.observing currentRange newRange a w₂ = w₃ ∧ w₃.files = w.files ∧
      (∀ s, w₃.record s = if s = a then (w.observed a limit cb).1 else w₂.record s) ∧
      ∀ (i : TaskId) (t' : Task), w₃.tasks[i]? = some t' → ∃ t, w.tasks[i]? = some t ∧
        (t' = t ∨ (w.observed a limit cb).2.isSome = true ∧
          w.chunksTasks.get? currentRange = some i ∧ t.Asked t') :=
    ⟨_, rfl, observing_observed hend (hlen ▸ Nat.lt_succ_of_lt hlt) rfl rfl (hold a hlt)
      (hdownloads a ha)⟩
  have hw' := congrArg (fun w' => createTask w' newRange w.stats.length
    (.succession a (w.chunksTasks.get? currentRange))) hw₃
  have hnumTasks : w₃.tasks.length = w.tasks.length := by
    have hnum : (w₃.tasks ++ [_]).length = w.tasks.length + 1 :=
      (congrArg (·.tasks.length) hw').symm.trans hcreates.numTasks
    rw [List.length_append, List.length_singleton] at hnum
    exact Nat.add_right_cancel hnum
  have hne : ∀ s < w.stats.length, s ≠ a → w₃.record s = w.record s := fun s hs hsa => by
    rw [hrecord, if_neg hsa, hold s hs]
  have hresized : w.Creates params (w₃.createTask newRange w.stats.length
      (.succession a (w.chunksTasks.get? currentRange))) newRange
      (.succession a (w.chunksTasks.get? currentRange)) →
      w.Resized params (w₃.createTask newRange w.stats.length
        (.succession a (w.chunksTasks.get? currentRange))) currentRange newRange a limit :=
    fun hcreates => { hcreates with
      files := hfiles
      counts := fun s hs => by
        by_cases hsa : s = a
        · obtain ⟨hbytes, hstatus⟩ := observed_fields w a limit cb
          show (w₃.record s).bytesDownloaded = _ ∧ (w₃.record s).status = _
          rw [hrecord, if_pos hsa, hsa]
          exact ⟨hbytes, hstatus⟩
        · show (w₃.record s).bytesDownloaded = _ ∧ (w₃.record s).status = _
          rw [hne s hs hsa]
          exact ⟨rfl, rfl⟩
      fresh := ⟨_, (hrecord _).trans (by rw [if_neg (Nat.ne_of_gt hlt), hnew])⟩
      predecessor := (hrecord a).trans (if_pos rfl)
      other := hne
      asked := fun i t' hi ht' =>
        htasks i t' ((getElem?_createTask _ _ _ _ (hnumTasks ▸ hi)).symm.trans ht') }
  exact hw' ▸ hresized (hw' ▸ hcreates)

end World

end SDownload
