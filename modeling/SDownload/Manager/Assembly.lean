import SDownload.Manager.Downloads
import SDownload.Manager.Registry

/-!
# SDownload.Manager.Assembly

End to end, without resizing: when `merge_chunks` returns, the file is the source.

The callers start, cancel, delete and wait, one call at a time; the server sends a
part of what was asked for or all of the file (`anyService`), and any operation may
fail. `Exact` is the invariant: a chunk that a table calls completed has exactly its
part of the source in its file, and one that is being downloaded is as
`DownloadState.Ok` says. The tables are those of `Registered`, which tells the
running task of a range from every other, and with it the file from every other.
-/

namespace SDownload

/-- A server that sends a front of what was asked for, or of the whole file: the first may end
anywhere, the second ends with the file. -/
def anyService (source : Bytes) (r : ChunkRange) : Service where
  sent bytes := bytes <+: r.bytesOf source ∨ bytes <+: source
  whole bytes := bytes <+: r.bytesOf source ∨ bytes = source
  fails := True
  sent_nil := Or.inl List.nil_prefix

instance (source : Bytes) (r : ChunkRange) (d : DownloadState) (e : TaskEvent) :
    Decidable (d.Allowed (anyService source r) e) := by
  delta DownloadState.Allowed anyService
  generalize d.task.phase = phase
  induction phase using Phase.casesOn <;> induction e using TaskEvent.casesOn <;> infer_instance

/-- The steps of a manager that is used without resizing, over a server that is `anyService`. -/
def UsedPlainly (source : Bytes) (w : World) : Event → Prop
  | .startChunk r _ => r.InFile source.length ∧ w.calls = []
  | .cancelChunk _ | .deleteChunkData _ | .wait _ _ => w.calls = []
  | .mergeChunks cleanup => cleanup = false ∧ w.calls = []
  | .resume _ _ => True
  | .task i e => ∀ t ∈ w.tasks[i]?,
      DownloadState.Allowed (anyService source t.range) ⟨t, w.record t.stats, w.files⟩ e
  | .resizeChunk _ _ | .cancelAllChunks | .cleanup _ => False

instance (source : Bytes) (w : World) (e : Event) : Decidable (UsedPlainly source w e) := by
  delta UsedPlainly
  induction e using Event.casesOn <;> infer_instance

/-- A response that came to its end and has as many bytes as were asked for is what was asked
for. -/
theorem anyService_exact {source : Bytes} {r : ChunkRange} {bytes : Bytes}
    (hin : r.InFile source.length) (hlen : (bytes.length : Int) = r.stop source.length - r.start)
    (hwhole : (anyService source r).whole bytes) : bytes = r.bytesOf source := by
  obtain hfront | rfl := hwhole
  · refine hfront.eq_of_length (Int.natCast_inj.mp ?_)
    rw [hlen, hin.length_bytesOf]
  · exact (hin.bytesOf_eq hlen.symm).symm

namespace World

variable {source : Bytes} {params : ChunkManagerParams} {w w' : World}

/-! ### The invariant -/

/-- Downloads are on their way, completed chunks are exact. -/
structure Exact (source : Bytes) (params : ChunkManagerParams) (w : World) : Prop where
  job : ∀ (i : TaskId) (t : Task), w.tasks[i]? = some t → t.job = .download
  live : ∀ (i : TaskId) (t : Task), w.tasks[i]? = some t → ¬ t.Done →
    w.chunksStats.get? t.range = some t.stats ∧
      DownloadState.Ok (anyService source t.range) ⟨t, w.record t.stats, w.files⟩
  entry : ∀ r s, w.chunksStats.get? r = some s →
    r.InFile source.length ∧ SameRecord (freshRecord params r) (w.record s) ∧
      ((w.record s).status = .completed →
        w.files.read (w.record s).chunkFileName = some (r.bytesOf source))

/-- A suspended call: one that waits for the task of an entry still has the entry, the file that
is to be deleted is nobody's, and a merge reads completed chunks. -/
def FrameOk (source : Bytes) (params : ChunkManagerParams) (w : World) : Frame → Prop
  | .cancelInit r t _ | .cancelJoin r t _ => w.chunksTasks.get? r = some t
  | .deleting name => ∀ r s, w.chunksStats.get? r = some s →
      formatChunkFileName r params.fileName ≠ name
  | .lockWait _ _ | .waiting _ _ _ => True
  | .merging stage cleanup => cleanup = false ∧ ∃ plan : MergePlan,
      plan.destKey = params.fileName ∧ plan.Inv source w.files stage ∧
        ∀ key ∈ plan.keys, ∃ r s, w.chunksStats.get? r = some s ∧
          (w.record s).status = .completed ∧ key = formatChunkFileName r params.fileName
  | _ => False

/-- What `merge_chunks` may reply. -/
def MergeOk (source : Bytes) (params : ChunkManagerParams) (w : World) (reply : Reply) : Prop :=
  reply = .merged params.fileName ∧ w.files.read params.fileName = some source ∨
    ∃ cause, reply = .raised (.reconstruction cause)

/-- What the invariant depends on: the records, which of them the tables still know, the tasks up
to requests to stop, and the files of the chunks. -/
theorem Exact.congr (h : w.Exact source params) (hstats : w'.stats = w.stats)
    (htasks : ∀ (i : TaskId) (t' : Task), w'.tasks[i]? = some t' →
      ∃ t, w.tasks[i]? = some t ∧ t.Asked t')
    (hkeys : ∀ r s, w'.chunksStats.get? r = some s → w.chunksStats.get? r = some s)
    (hlive : ∀ (i : TaskId) (t : Task), w.tasks[i]? = some t → ¬ t.Done →
      w'.chunksStats.get? t.range = w.chunksStats.get? t.range)
    (hfiles : ∀ r s, w'.chunksStats.get? r = some s →
      SameFile w.files w'.files (formatChunkFileName r params.fileName)) :
    w'.Exact source params := by
  have hrecord : ∀ s, w'.record s = w.record s := fun s => by rw [record, record, hstats]
  refine ⟨fun i t' ht' => ?_, fun i t' ht' hlive' => ?_, fun r s hs => ?_⟩
  · obtain ⟨t, ht, c, rfl⟩ := htasks i t' ht'
    exact h.job i t ht
  · obtain ⟨t, ht, hasked⟩ := htasks i t' ht'
    have hrunning : ¬ t.Done := fun hd => hlive' (hasked.done_iff.mpr hd)
    obtain ⟨hget, hok⟩ := h.live i t ht hrunning
    have hget' := (hlive i t ht hrunning).trans hget
    obtain ⟨-, hfresh, -⟩ := h.entry _ _ hget
    obtain ⟨c, rfl⟩ := hasked
    refine ⟨hget', hok.congr ⟨?_, ?_, ?_, ?_⟩ rfl ?_⟩
    · exact congrArg _ (hrecord _)
    · exact congrArg _ (hrecord _)
    · exact congrArg _ (hrecord _)
    · have hname : (w.record t.stats).chunkFileName = formatChunkFileName t.range params.fileName :=
        hfresh.chunkFileName
      show SameFile _ _ (w.record t.stats).chunkFileName
      rw [hname]
      exact hfiles _ _ hget'
    · exact congrArg _ (hrecord _)
  · obtain ⟨hin, hfresh, hexact⟩ := h.entry r s (hkeys r s hs)
    rw [hrecord]
    refine ⟨hin, hfresh, fun hstatus => ?_⟩
    have hname : (w.record s).chunkFileName = formatChunkFileName r params.fileName :=
      hfresh.chunkFileName
    rw [hname, (hfiles r s hs).read, ← hname]
    exact hexact hstatus

/-- A download that completes leaves its part of the source. -/
theorem completed_exact {r : ChunkRange} {d : DownloadState}
    (hsize : params.fileSize = some (source.length : Int)) (hin : r.InFile source.length)
    (hfresh : SameRecord (freshRecord params r) d.stats)
    (hok : d.Ok (anyService source r)) (hstatus : d.stats.status = .completed) :
    d.files.read d.stats.chunkFileName = some (r.bytesOf source) := by
  obtain ⟨hsizeOk, bytes, hread, hbytes, hwhole⟩ := hok.of_completed hstatus
  have hexpected : d.stats.fileSize = some (r.stop source.length - r.start) := by
    rw [hfresh.fileSize, freshRecord, hsize, getEffectiveRangeInfo_snd]
  rw [hread, anyService_exact hin (hbytes.symm.trans (hsizeOk _ hexpected)) hwhole]

/-- **A turn of a download** keeps the invariant; it changes neither a completed record nor the
file of another range. -/
theorem Exact.turn (hsize : params.fileSize = some (source.length : Int)) (hr : w.Registered)
    (h : w.Exact source params) {i : TaskId} {t : Task} {e : TaskEvent} {d : DownloadState}
    {cb : Option StopCallback} (ht : w.tasks[i]? = some t)
    (hallowed : DownloadState.Allowed (anyService source t.range)
      ⟨t, w.record t.stats, w.files⟩ e)
    (hstep : DownloadState.step ⟨t, w.record t.stats, w.files⟩ e = some (d, cb))
    (hev : w.Evolves w') (hturn : w.DownloadTurn w' i d) :
    w'.Exact source params ∧
      (∀ s, s ≠ t.stats → w'.record s = w.record s) ∧
      (∀ name, name ≠ formatChunkFileName t.range params.fileName →
        SameFile w.files w'.files name) := by
  have hlive := DownloadState.not_done_of_step hstep
  obtain ⟨hget, hok⟩ := h.live i t ht hlive
  obtain ⟨hin, hfresh, -⟩ := h.entry _ _ hget
  obtain ⟨hok', hothers⟩ := hok.step hallowed hstep
  have hlater := DownloadState.step_later hstep
  have hname : (w.record t.stats).chunkFileName = formatChunkFileName t.range params.fileName :=
    hfresh.chunkFileName
  have hself : w'.record t.stats = d.stats := by
    rw [hturn.record, if_pos ⟨hlater.task.stats.symm, hlater.task.stats ▸ (hr.stats _ _ hget).1⟩]
  have hother : ∀ s, s ≠ t.stats → w'.record s = w.record s := fun s hs => by
    rw [hturn.record, if_neg fun hand => hs (hand.1.trans hlater.task.stats)]
  have hfiles : ∀ name, name ≠ formatChunkFileName t.range params.fileName →
      SameFile w.files w'.files name := fun name hne => by
    rw [hturn.files]
    exact hothers name fun he => hne (he.trans hname)
  have hfile : ∀ r, r ≠ t.range →
      SameFile w.files w'.files (formatChunkFileName r params.fileName) := fun r hne =>
    hfiles _ fun he => hne (formatChunkFileName_inj he).1
  refine ⟨⟨fun j t' ht' => ?_, fun j t' ht' hlive' => ?_, fun r s hs => ?_⟩, hother, hfiles⟩
  · obtain ⟨t₀, ht₀, hl⟩ := hev.task_of ht'
    exact hl.job.trans (h.job j t₀ ht₀)
  · by_cases hj : j = i
    · -- the download itself
      subst hj
      obtain ⟨c, rfl⟩ := hturn.self t' ht'
      rw [hev.chunksStats, show ({ d.task with cancelRequested := c } : Task).range = t.range from
        hlater.task.range]
      have hstats : ({ d.task with cancelRequested := c } : Task).stats = t.stats :=
        hlater.task.stats
      rw [hstats, hself, hturn.files]
      exact ⟨hget, hok'.congr ⟨rfl, rfl, rfl, .refl _ _⟩ rfl rfl⟩
    · -- another download: neither its record nor its file is this one's
      obtain ⟨t₀, ht₀, c, rfl⟩ := hturn.other j t' hj ht'
      have hlive₀ : ¬ t₀.Done := hlive'
      obtain ⟨hget₀, hok₀⟩ := h.live j t₀ ht₀ hlive₀
      have hrange : t₀.range ≠ t.range := fun he => hj (hr.live_inj ht ht₀ hlive hlive₀ he)
      have hstats : t₀.stats ≠ t.stats := fun he => hrange <| by
        rw [← (hr.stats _ _ hget₀).2, ← (hr.stats _ _ hget).2, he]
      have hname₀ : (w.record t₀.stats).chunkFileName =
          formatChunkFileName t₀.range params.fileName := (h.entry _ _ hget₀).2.1.chunkFileName
      refine ⟨hev.chunksStats ▸ hget₀, hok₀.congr ⟨?_, ?_, ?_, ?_⟩ rfl ?_⟩
      · exact congrArg _ (hother _ hstats)
      · exact congrArg _ (hother _ hstats)
      · exact congrArg _ (hother _ hstats)
      · show SameFile _ _ (w.record t₀.stats).chunkFileName
        rw [hname₀]
        exact hfile _ hrange
      · exact congrArg _ (hother _ hstats)
  · rw [hev.chunksStats] at hs
    obtain ⟨hin', hfresh', hexact⟩ := h.entry r s hs
    refine ⟨hin', hfresh'.trans (hev.record s), fun hstatus => ?_⟩
    by_cases hst : s = t.stats
    · -- its own record: if this turn completes it, its file holds the range
      subst hst
      obtain rfl : t.range = r := by rw [← (hr.stats _ _ hget).2, ← (hr.stats _ _ hs).2]
      rw [hself, hturn.files]
      rw [hself] at hstatus
      exact completed_exact hsize hin (hfresh.trans hlater.stats) hok' hstatus
    · have hne : r ≠ t.range := fun he => hst <| by
        subst he
        exact Option.some.inj (hs.symm.trans hget)
      have hname' : (w.record s).chunkFileName = formatChunkFileName r params.fileName :=
        hfresh'.chunkFileName
      rw [hother s hst] at hstatus ⊢
      rw [hname', (hfile r hne).read, ← hname']
      exact hexact hstatus

/-- A suspended call is not disturbed by a turn of a download. -/
theorem FrameOk.turn {f : Frame} {i : TaskId} {t : Task} (h : w.Exact source params)
    (hev : w.Evolves w') (ht : w.tasks[i]? = some t) (hlive : ¬ t.Done)
    (hrecord : ∀ s, s ≠ t.stats → w'.record s = w.record s)
    (hfiles : ∀ name, name ≠ formatChunkFileName t.range params.fileName →
      SameFile w.files w'.files name)
    (hf : w.FrameOk source params f) : w'.FrameOk source params f := by
  cases f with
  | cancelInit r task thenDelete | cancelJoin r task thenDelete =>
      show w'.chunksTasks.get? r = some task
      rw [hev.chunksTasks]
      exact hf
  | deleting name =>
      show ∀ r s, w'.chunksStats.get? r = some s → _
      rw [hev.chunksStats]
      exact hf
  | merging stage cleanup =>
      obtain ⟨hcleanup, plan, hdest, hinv, hkeys⟩ := hf
      obtain ⟨hget, hok⟩ := h.live i t ht hlive
      -- the downloading range is not completed, so it is not one the merge reads
      have hother : ∀ r s, w.chunksStats.get? r = some s → (w.record s).status = .completed →
          s ≠ t.stats ∧ r ≠ t.range := by
        intro r s hs hstatus
        have hne : s ≠ t.stats := fun he =>
          DownloadState.not_completed (hok.running hlive) (he ▸ hstatus)
        refine ⟨hne, fun he => hne ?_⟩
        subst he
        exact Option.some.inj (hs.symm.trans hget)
      refine ⟨hcleanup, plan, hdest, hinv.congr ?_ fun key hkey => ?_, fun key hkey => ?_⟩
      · exact hfiles _ (hdest ▸ (formatChunkFileName_ne _ _).symm)
      · obtain ⟨r, s, hs, hstatus, rfl⟩ := hkeys key hkey
        exact hfiles _ fun he => (hother r s hs hstatus).2 (formatChunkFileName_inj he).1
      · obtain ⟨r, s, hs, hstatus, rfl⟩ := hkeys key hkey
        refine ⟨r, s, hev.chunksStats ▸ hs, ?_, rfl⟩
        rw [hrecord s (hother r s hs hstatus).1]
        exact hstatus
  | lockWait timed returnWhen | waiting allTasks timed returnWhen => trivial
  | _ => exact hf.elim

/-! ### Each method -/

/-- A method that keeps the invariant, with the call it leaves or what it replies. -/
structure KeepsExact (source : Bytes) (params : ChunkManagerParams) (w : World)
    (result : World × Progress) : Prop where
  exact : result.1.Exact source params
  calls : result.1.calls = w.calls
  frame : ∀ f, result.2 = .suspended f → result.1.FrameOk source params f
  merged : ∀ rs, result.2 = .returned rs → ∀ reply, ⟨.mergeChunks, reply⟩ ∈ rs →
    result.1.MergeOk source params reply

theorem KeepsExact.suspended {f : Frame} (h : w'.Exact source params)
    (hcalls : w'.calls = w.calls) (hf : w'.FrameOk source params f) :
    w.KeepsExact source params (w', .suspended f) where
  exact := h
  calls := hcalls
  frame := fun f' hf' => Progress.suspended.inj hf' ▸ hf
  merged := by simp

theorem KeepsExact.returned {rs : List Returned} (h : w'.Exact source params)
    (hcalls : w'.calls = w.calls)
    (hmerged : ∀ reply, ⟨.mergeChunks, reply⟩ ∈ rs → w'.MergeOk source params reply) :
    w.KeepsExact source params (w', .returned rs) where
  exact := h
  calls := hcalls
  frame := by simp
  merged := fun rs' hrs => Progress.returned.inj hrs ▸ hmerged

theorem KeepsExact.of_calls {w₁ : World} {result : World × Progress}
    (h : w₁.KeepsExact source params result) (hcalls : w₁.calls = w.calls) :
    w.KeepsExact source params result :=
  ⟨h.exact, h.calls.trans hcalls, h.frame, h.merged⟩

/-- The task table is no part of it. -/
theorem Exact.of_tasks (h : w.Exact source params) (chunksTasks : Dict ChunkRange TaskId)
    (waitLocked : Bool) : Exact source params { w with chunksTasks, waitLocked } :=
  ⟨h.job, h.live, h.entry⟩

/-- No running task has the range. -/
def RangeIdle (w : World) (r : ChunkRange) : Prop :=
  ∀ (i : TaskId) (t : Task), w.tasks[i]? = some t → ¬ t.Done → t.range ≠ r

theorem Exact.eraseStats (h : w.Exact source params) {r : ChunkRange} (hidle : w.RangeIdle r) :
    Exact source params { w with chunksStats := w.chunksStats.erase r } := by
  refine h.congr rfl (fun i t ht => ⟨t, ht, .refl t⟩)
    (fun r' s hs => (Dict.get?_erase_eq_some.mp hs).2) (fun i t ht hlive => ?_)
    (fun _ _ _ => .refl _ _)
  rw [Dict.get?_erase, if_neg (hidle i t ht hlive)]

theorem popAndDelete_exact (h : w.Exact source params) {r : ChunkRange} (hidle : w.RangeIdle r) :
    w.KeepsExact source params (w.popAndDelete r) := by
  unfold popAndDelete
  split
  · exact .returned h rfl (by simp)
  · rename_i s hs
    refine .suspended (h.eraseStats hidle) rfl fun r' s' hs' he => ?_
    obtain ⟨hne, -⟩ := Dict.get?_erase_eq_some.mp hs'
    have hname : (w.record s).chunkFileName = formatChunkFileName r params.fileName :=
      (h.entry r s hs).2.1.chunkFileName
    exact hne (formatChunkFileName_inj (he.trans hname)).1

theorem cancelReturns_exact (h : w.Exact source params) {r : ChunkRange} {thenDelete : Bool}
    (hidle : thenDelete = true → w.RangeIdle r) (b : Bool) :
    w.KeepsExact source params (w.cancelReturns r thenDelete b) := by
  unfold cancelReturns
  split
  · rename_i hdelete
    exact popAndDelete_exact h (hidle hdelete)
  · exact .returned h rfl (by simp)

theorem cancelRaises_exact (h : w.Exact source params) (r : ChunkRange) (thenDelete : Bool) :
    w.KeepsExact source params (w.cancelRaises r thenDelete) :=
  .returned h rfl (by cases thenDelete <;> simp)

theorem cancelJoined_exact (hr : w.Registered) (h : w.Exact source params) {r : ChunkRange}
    (hd : w.EntryDone r) (thenDelete : Bool) :
    w.KeepsExact source params (w.cancelJoined r thenDelete) := by
  unfold cancelJoined
  split
  · refine (cancelReturns_exact (h.of_tasks _ _) (fun _ => ?_) true).of_calls rfl
    exact fun i t ht hlive => hr.range_ne hd ht hlive
  · exact cancelRaises_exact h r thenDelete

theorem cancelSignalled_exact (hr : w.Registered) (h : w.Exact source params) {r : ChunkRange}
    {i : TaskId} (hentry : w.chunksTasks.get? r = some i) (thenDelete : Bool) :
    w.KeepsExact source params (w.cancelSignalled r i thenDelete) := by
  have hasks := w.cancelTask_asks i
  have h' : (w.cancelTask i).Exact source params :=
    h.congr hasks.stats hasks.task (fun _ _ hs => hs) (fun _ _ _ _ => rfl) fun _ _ _ => .refl _ _
  unfold cancelSignalled
  dsimp only
  split
  · rename_i hdone
    refine (cancelJoined_exact (hr.evolves (w.cancelTask_evolves i)) h' ?_ thenDelete).of_calls rfl
    intro j hj
    obtain rfl : i = j := Option.some.inj (hentry.symm.trans hj)
    exact hdone
  · exact .suspended h' rfl hentry

/-- A download that runs is one `cancel_chunk` stops. -/
theorem Exact.idle_of_status (h : w.Exact source params) {r : ChunkRange}
    {stats : Stats} (hstats : w.statsOf r = some stats)
    (hstatus : stats.status ∉ [EDownloadStatus.downloading, .pending, .awaitingSuccession]) :
    w.RangeIdle r := by
  intro i t ht hlive hrange
  subst hrange
  obtain ⟨hget, hok⟩ := h.live i t ht hlive
  rw [statsOf, hget, Option.map_some, Option.some.injEq] at hstats
  subst hstats
  obtain hpending | hdownloading := hok.running hlive
  · exact hstatus (by simp [show (w.record t.stats).status = .pending from hpending])
  · exact hstatus (by simp [show (w.record t.stats).status = .downloading from hdownloading])

theorem Registered.idle_of_none (hr : w.Registered) {r : ChunkRange}
    (hnone : w.chunksTasks.get? r = none) : w.RangeIdle r := fun i t ht hlive he => by
  have hlive' := hr.live i t ht hlive
  rw [he, hnone] at hlive'
  cases hlive'

theorem cancelChunk_exact (hr : w.Registered) (h : w.Exact source params) (r : ChunkRange)
    (thenDelete : Bool) : w.KeepsExact source params (w.cancelChunk r thenDelete) := by
  unfold cancelChunk
  split
  · rename_i hnone
    exact cancelReturns_exact h (fun _ => hr.idle_of_none hnone) _
  · rename_i i hentry
    split
    · exact cancelRaises_exact h r thenDelete
    · rename_i stats hstats
      split
      · split
        · exact cancelSignalled_exact hr h hentry thenDelete
        · exact .suspended h rfl hentry
      · rename_i hstatus
        exact cancelReturns_exact h (fun _ => h.idle_of_status hstats hstatus) _

theorem deleteChunkData_exact (hr : w.Registered) (h : w.Exact source params) (r : ChunkRange) :
    w.KeepsExact source params (w.deleteChunkData r) := by
  unfold deleteChunkData
  split
  · exact cancelChunk_exact hr h r true
  · rename_i hkey
    exact popAndDelete_exact h (hr.idle_of_none (Dict.get?_eq_none_iff.mpr hkey))

theorem waitEntered_exact (h : w.Exact source params) (timed : Bool) (returnWhen : ReturnWhen) :
    w.KeepsExact source params (w.waitEntered timed returnWhen) := by
  unfold waitEntered
  split
  · exact .returned h rfl (by simp)
  · exact .suspended (h.of_tasks _ _) rfl trivial

theorem waitForChunks_exact (h : w.Exact source params) (timed : Bool) (returnWhen : ReturnWhen) :
    w.KeepsExact source params (w.waitForChunks timed returnWhen) := by
  unfold waitForChunks
  split
  · exact .suspended h rfl trivial
  · exact waitEntered_exact h timed returnWhen

theorem waitCollects_exact (h : w.Exact source params) (allTasks : List TaskId) :
    w.KeepsExact source params (w.waitCollects allTasks) := by
  unfold waitCollects
  dsimp only
  split
  · exact .returned (h.of_tasks _ _) rfl (by simp)
  · exact .returned (h.of_tasks _ _) rfl (by simp)

/-- A chunk is registered that has no entry. -/
theorem startChunk_exact (hr : w.Registered) (h : w.Exact source params) {r : ChunkRange}
    (hin : r.InFile source.length) (speed : Option Int) :
    (w.startChunk params r speed).Exact source params := by
  unfold startChunk
  split
  · exact h
  split
  · exact h
  rename_i hkey
  have hrecord : ∀ s, s < w.stats.length →
      (w.registerChunkStats params r speed).record s = w.record s := fun s hs => by
    rw [record_registerChunkStats, if_neg (Nat.ne_of_lt hs)]
  have hnew : (w.registerChunkStats params r speed).record w.stats.length =
      { freshRecord params r with targetSpeedBps := speed } := by
    rw [record_registerChunkStats, if_pos rfl]
    rfl
  refine ⟨fun i t ht => ?_, fun i t ht hlive => ?_, fun r' s hs => ?_⟩
  · rcases List.mem_append.mp (List.mem_of_getElem? ht) with hold | hnew
    · obtain ⟨j, hj⟩ := List.mem_iff_getElem?.mp hold
      exact h.job j t hj
    · rw [List.mem_singleton.mp hnew]
  · show (w.chunksStats.set r w.stats.length).get? t.range = some t.stats ∧ _
    have ht' : (w.tasks ++ [_])[i]? = some t := ht
    rcases Nat.lt_or_ge i w.tasks.length with hlt | hge
    · rw [List.getElem?_append_left hlt] at ht'
      obtain ⟨hget, hok⟩ := h.live i t ht' hlive
      have hne : t.range ≠ r := fun he =>
        hkey (Dict.mem_keys_iff.mpr ⟨i, he ▸ hr.live i t ht' hlive⟩)
      refine ⟨by rw [Dict.get?_set_of_ne _ _ hne, hget], ?_⟩
      show DownloadState.Ok _ ⟨t, (w.registerChunkStats params r speed).record t.stats, w.files⟩
      rw [hrecord _ (hr.stats _ _ hget).1]
      exact hok
    · -- the new task has not begun
      rw [List.getElem?_append_right hge, List.getElem?_singleton] at ht'
      split at ht'
      · obtain rfl := Option.some.inj ht'
        refine ⟨Dict.get?_set_self _ _ _, ?_⟩
        show DownloadState.Ok _ ⟨_, (w.registerChunkStats params r speed).record w.stats.length, _⟩
        rw [hnew]
        exact ⟨fun _ => Or.inl rfl, rfl⟩
      · cases ht'
  · have hs' : (w.chunksStats.set r w.stats.length).get? r' = some s := hs
    show _ ∧ SameRecord _ ((w.registerChunkStats params r speed).record s) ∧
      (((w.registerChunkStats params r speed).record s).status = _ →
        w.files.read ((w.registerChunkStats params r speed).record s).chunkFileName = _)
    rw [Dict.get?_set] at hs'
    split at hs'
    · rename_i hr'
      subst hr'
      obtain rfl := Option.some.inj hs'
      rw [hnew]
      exact ⟨hin, ⟨rfl, rfl, rfl⟩, fun hstatus => absurd hstatus (by simp [freshRecord])⟩
    · rw [hrecord s (hr.stats _ _ hs').1]
      exact h.entry r' s hs'

/-- What `merge_chunks` sets out to do makes the source. -/
theorem mergeChunks_exact (hsize : params.fileSize = some (source.length : Int))
    (hsource : 0 < source.length) (hr : w.Registered) (h : w.Exact source params) :
    w.KeepsExact source params (w.mergeChunks params false) := by
  unfold mergeChunks
  split
  · rename_i cause _
    refine .returned h rfl fun reply hreply => ?_
    simp only [List.mem_singleton, Returned.mk.injEq, true_and] at hreply
    exact Or.inr ⟨cause, hreply⟩
  · rename_i configs hconfigs
    rw [hsize] at hconfigs
    -- every record of the list is that of an entry
    have hentry : ∀ stats ∈ w.chunksStats.values.map w.record, ∃ r s,
        w.chunksStats.get? r = some s ∧ stats = w.record s ∧ stats.range = r := by
      intro stats hstats
      obtain ⟨s, hs, rfl⟩ := List.mem_map.mp hstats
      obtain ⟨r, hget⟩ := Dict.mem_values_iff.mp hs
      exact ⟨r, s, hget, rfl, (hr.stats r s hget).2⟩
    have hchunk : ∀ stats ∈ w.chunksStats.values.map w.record, stats.status = .completed →
        stats.range.InFile source.length ∧
          (w.files.read stats.chunkFileName).getD [] = stats.range.bytesOf source := by
      intro stats hstats hstatus
      obtain ⟨r, s, hget, rfl, hrange⟩ := hentry stats hstats
      obtain ⟨hin, -, hexact⟩ := h.entry r s hget
      rw [hrange, hexact hstatus]
      exact ⟨hin, rfl⟩
    obtain ⟨hkeys, hbytes⟩ := mergeConfigs_bytes (fun key => (w.files.read key).getD []) hsource
      hchunk hconfigs
    have hcompleted : ∀ c ∈ configs, ∃ r s, w.chunksStats.get? r = some s ∧
        (w.record s).status = .completed ∧ c.key = formatChunkFileName r params.fileName ∧
          w.files.read c.key = some (r.bytesOf source) := by
      intro c hc
      obtain ⟨stats, hstats, hstatus, hname⟩ := hkeys c hc
      obtain ⟨r, s, hget, rfl, -⟩ := hentry stats hstats
      obtain ⟨-, hfresh, hexact⟩ := h.entry r s hget
      exact ⟨r, s, hget, hstatus, hname.trans hfresh.chunkFileName, hname ▸ hexact hstatus⟩
    refine .suspended h rfl ⟨rfl, ⟨params.fileName, configs.map (·.key),
      fun key => (w.files.read key).getD [], fun hmem => ?_⟩, rfl, ⟨?_, ?_, hbytes⟩, ?_⟩
    · obtain ⟨c, hc, hkey⟩ := List.mem_map.mp hmem
      obtain ⟨r, -, -, -, hname, -⟩ := hcompleted c hc
      exact formatChunkFileName_ne r params.fileName (hname.symm.trans hkey)
    · intro key hkey
      obtain ⟨c, hc, rfl⟩ := List.mem_map.mp hkey
      obtain ⟨r, -, -, -, -, hread⟩ := hcompleted c hc
      simp [hread]
    · exact fun c hc => List.mem_map_of_mem hc
    · intro key hkey
      obtain ⟨c, hc, rfl⟩ := List.mem_map.mp hkey
      obtain ⟨r, s, hget, hstatus, hname, -⟩ := hcompleted c hc
      exact ⟨r, s, hget, hstatus, hname⟩

/-- Writing the destination touches no chunk. -/
theorem Exact.files (h : w.Exact source params) {files : Files}
    (hsame : ∀ name, name ≠ params.fileName → SameFile w.files files name) :
    Exact source params { w with files } :=
  h.congr rfl (fun _ t ht => ⟨t, ht, .refl t⟩) (fun _ _ hs => hs) (fun _ _ _ _ => rfl)
    fun r _ _ => hsame _ (formatChunkFileName_ne r params.fileName)

/-- A round of the merge, and its last. -/
theorem mergeRound_exact (hbuffer : 1 ≤ params.ioBufferSize) (h : w.Exact source params)
    {stage : MergeStage} (hf : w.FrameOk source params (.merging stage false)) (ok : Bool) :
    w.KeepsExact source params (w.mergeRound params stage false ok) ∧
      ∀ stage' cleanup, (w.mergeRound params stage false ok).2 =
          .suspended (.merging stage' cleanup) →
        stage'.roundsLeft source.length < stage.roundsLeft source.length := by
  obtain ⟨-, plan, hdest, hinv, hkeys⟩ := hf
  unfold mergeRound
  split
  all_goals
    rename_i hround
    rw [← hdest] at hround
    obtain ⟨hsame, hnext, hlast⟩ := hinv.round hbuffer hround
    rw [hdest] at hsame
  · obtain ⟨hinv', hlt⟩ := hnext _ rfl
    refine ⟨.suspended (h.files hsame) rfl ⟨rfl, plan, hdest, hinv', hkeys⟩, ?_⟩
    intro stage' cleanup hs
    obtain ⟨rfl, -⟩ := Frame.merging.inj (Progress.suspended.inj hs)
    exact hlt
  · refine ⟨.returned (h.files hsame) rfl fun reply hreply => ?_, by simp⟩
    simp only [List.mem_singleton, Returned.mk.injEq, true_and] at hreply
    exact Or.inr ⟨_, hreply⟩
  · refine ⟨.returned (h.files hsame) rfl fun reply hreply => ?_, by simp⟩
    simp only [List.mem_singleton, Returned.mk.injEq, true_and] at hreply
    exact Or.inl ⟨hreply, hdest ▸ hlast rfl⟩

/-- A suspended call goes on. -/
theorem Exact.resume (hbuffer : 1 ≤ params.ioBufferSize) (hr : w.Registered)
    (h : w.Exact source params) {f : Frame} (hf : w.FrameOk source params f) {ok : Bool}
    {result : World × Progress} (hresume : w.resume params f ok = some result) :
    w.KeepsExact source params result := by
  unfold World.resume at hresume
  cases f with
  | cancelInit r i thenDelete =>
      dsimp only at hresume
      split at hresume
      · obtain rfl := Option.some.inj hresume
        exact cancelSignalled_exact hr h hf thenDelete
      · cases hresume
  | cancelJoin r i thenDelete =>
      dsimp only at hresume
      split at hresume
      · rename_i hdone
        obtain rfl := Option.some.inj hresume
        refine cancelJoined_exact hr h (fun j hj => ?_) thenDelete
        obtain rfl : i = j := Option.some.inj (Eq.trans (Eq.symm hf) hj)
        exact hdone
      · cases hresume
  | deleting name =>
      obtain rfl := Option.some.inj hresume
      refine .returned ?_ rfl (by simp)
      refine h.congr rfl (fun _ t ht => ⟨t, ht, .refl t⟩) (fun _ _ hs => hs) (fun _ _ _ _ => rfl)
        fun r s hs => ?_
      dsimp only
      split
      · exact ⟨by rw [FileSystem.lookup_unlink, if_neg (hf r s hs)], fun _ _ => rfl⟩
      · exact .refl _ _
  | lockWait timed returnWhen =>
      dsimp only at hresume
      split at hresume
      · cases hresume
      · obtain rfl := Option.some.inj hresume
        exact waitEntered_exact h timed returnWhen
  | waiting allTasks timed returnWhen =>
      dsimp only at hresume
      split at hresume
      · obtain rfl := Option.some.inj hresume
        exact waitCollects_exact h allTasks
      · cases hresume
  | merging stage cleanup =>
      obtain rfl := hf.1
      obtain rfl := Option.some.inj hresume
      exact (mergeRound_exact hbuffer h hf ok).1
  | _ => exact hf.elim

/-! ### Each step -/

/-- The invariant of a manager that is used without resizing. -/
structure Plain (source : Bytes) (params : ChunkManagerParams) (w : World) : Prop where
  registered : w.Registered
  exact : w.Exact source params
  single : w.calls.length ≤ 1
  frames : ∀ f ∈ w.calls, w.FrameOk source params f

theorem Plain.keepsTasks (h : w.Plain source params) {e : Event} (hused : UsedPlainly source w e) :
    KeepsTasks w e := by
  cases e with
  | startChunk r speed =>
      intro _ ⟨f, hf, _⟩
      rw [hused.2] at hf
      cases hf
  | resume i ok =>
      unfold KeepsTasks
      dsimp only
      split
      all_goals first | trivial | rename_i hf
      · intro hdone j hj
        obtain rfl := Option.some.inj ((h.frames _ (List.mem_of_getElem? hf)).symm.trans hj)
        exact hdone
      · intro hdone j hj
        obtain rfl := Option.some.inj ((h.frames _ (List.mem_of_getElem? hf)).symm.trans hj)
        exact hdone
      · exact absurd (h.frames _ (List.mem_of_getElem? hf)).1 (by simp)
  | resizeChunk currentRange newRange => exact hused.elim
  | cancelAllChunks => trivial
  | cleanup deleteFiles => exact hused.elim
  | _ => trivial

/-- A method that is called while no other is suspended. -/
theorem KeepsExact.called {result : World × Progress} (hkeeps : w.KeepsExact source params result)
    (hr : (SDownload.called result).1.Registered) (hcalls : w.calls = []) :
    (SDownload.called result).1.Plain source params ∧
      ∀ reply, ⟨.mergeChunks, reply⟩ ∈ (SDownload.called result).2 →
        (SDownload.called result).1.MergeOk source params reply := by
  obtain ⟨w', progress⟩ := result
  have hcalls' : w'.calls = [] := hkeeps.calls.trans hcalls
  have hexact : w'.Exact source params := hkeeps.exact
  cases progress with
  | suspended f =>
      refine ⟨⟨hr, ⟨hexact.job, hexact.live, hexact.entry⟩, ?_, fun f' hf' => ?_⟩, by
        simp [SDownload.called]⟩
      · simp [SDownload.called, hcalls']
      · simp only [SDownload.called, hcalls', List.nil_append, List.mem_singleton] at hf'
        subst hf'
        exact hkeeps.frame _ rfl
  | returned rs =>
      refine ⟨⟨hr, hexact, ?_, fun f' hf' => ?_⟩, hkeeps.merged rs rfl⟩
      · simp [SDownload.called, hcalls']
      · simp [SDownload.called, hcalls'] at hf'

/-- The suspended call went on. -/
theorem KeepsExact.resumed {result : World × Progress} {i : Nat} {f : Frame}
    (hkeeps : w.KeepsExact source params result) (hr : (SDownload.resumed i result).1.Registered)
    (hsingle : w.calls.length ≤ 1) (hf : w.calls[i]? = some f) :
    (SDownload.resumed i result).1.Plain source params ∧
      ∀ reply, ⟨.mergeChunks, reply⟩ ∈ (SDownload.resumed i result).2 →
        (SDownload.resumed i result).1.MergeOk source params reply := by
  obtain ⟨w', progress⟩ := result
  have hexact : w'.Exact source params := hkeeps.exact
  have hlt := (List.getElem?_eq_some_iff.mp hf).1
  obtain rfl : i = 0 := by omega
  have hcalls' : w'.calls = [f] := by
    refine hkeeps.calls.trans ?_
    obtain ⟨f', hf'⟩ := List.length_eq_one_iff.mp (show w.calls.length = 1 by omega)
    rw [hf', List.getElem?_cons_zero, Option.some.injEq] at hf
    rw [hf', hf]
  cases progress with
  | suspended f' =>
      refine ⟨⟨hr, ⟨hexact.job, hexact.live, hexact.entry⟩, ?_, fun f'' hf'' => ?_⟩, by
        simp [SDownload.resumed]⟩
      · simp [SDownload.resumed, hcalls']
      · simp only [SDownload.resumed, hcalls', List.set_cons_zero, List.mem_singleton] at hf''
        subst hf''
        exact hkeeps.frame _ rfl
  | returned rs =>
      refine ⟨⟨hr, ⟨hexact.job, hexact.live, hexact.entry⟩, ?_, fun f'' hf'' => ?_⟩,
        hkeeps.merged rs rfl⟩
      · simp [SDownload.resumed, hcalls']
      · simp [SDownload.resumed, hcalls'] at hf''

/-- A step keeps the invariant, and what `merge_chunks` replies is true. -/
theorem Plain.step (hsize : params.fileSize = some (source.length : Int))
    (hsource : 0 < source.length) (hbuffer : 1 ≤ params.ioBufferSize)
    (h : w.Plain source params) {e : Event} {out : List Returned}
    (hused : UsedPlainly source w e) (hstep : step params w e = some (w', out)) :
    w'.Plain source params ∧
      ∀ reply, ⟨.mergeChunks, reply⟩ ∈ out → w'.MergeOk source params reply := by
  have hr := h.registered
  have hr' := (hr.step (h.keepsTasks hused) hstep).1
  cases e with
  | startChunk r speed =>
      obtain ⟨rfl, rfl⟩ := Prod.mk.inj (Option.some.inj hstep)
      have hcalls : (w.startChunk params r speed).calls = [] := by
        obtain ⟨hsame, -⟩ | ⟨-, -, hcreates⟩ := startChunk_cases params w r speed
        · rw [hsame]
          exact hused.2
        · exact hcreates.calls.trans hused.2
      exact ⟨⟨hr', startChunk_exact hr h.exact hused.1 speed, by simp [hcalls], by simp [hcalls]⟩,
        by simp⟩
  | cancelChunk r =>
      obtain ⟨rfl, rfl⟩ := Prod.mk.inj (Option.some.inj hstep)
      exact (cancelChunk_exact hr h.exact r false).called hr' hused
  | deleteChunkData r =>
      obtain ⟨rfl, rfl⟩ := Prod.mk.inj (Option.some.inj hstep)
      exact (deleteChunkData_exact hr h.exact r).called hr' hused
  | wait timed returnWhen =>
      obtain ⟨rfl, rfl⟩ := Prod.mk.inj (Option.some.inj hstep)
      exact (waitForChunks_exact h.exact timed returnWhen).called hr' hused
  | mergeChunks cleanup =>
      obtain ⟨rfl, hcalls⟩ := hused
      obtain ⟨rfl, rfl⟩ := Prod.mk.inj (Option.some.inj hstep)
      exact (mergeChunks_exact hsize hsource hr h.exact).called hr' hcalls
  | resume i ok =>
      obtain ⟨f, result, hf, hresume, heq⟩ := step_resume hstep
      have hkeeps := h.exact.resume hbuffer hr (h.frames f (List.mem_of_getElem? hf)) hresume
      rw [show w' = (resumed i result).1 from (congrArg Prod.fst heq).symm] at hr' ⊢
      rw [show out = (resumed i result).2 from (congrArg Prod.snd heq).symm]
      exact hkeeps.resumed hr' h.single hf
  | task i e =>
      obtain ⟨hturn, rfl⟩ := step_task hstep
      have hev := taskStep_evolves hturn
      cases ht : w.tasks[i]? with
      | none => simp [taskStep, ht] at hturn
      | some t =>
          obtain ⟨d, cb, hd, hput⟩ := downloadTurn ht (h.exact.job i t ht) hturn
          obtain ⟨hexact, hrecord, hfiles⟩ := h.exact.turn hsize hr ht (hused t ht) hd hev hput
          refine ⟨⟨hr', hexact, ?_, fun f hf => ?_⟩, by simp⟩
          · rw [hev.calls]
            exact h.single
          · rw [hev.calls] at hf
            exact (h.frames f hf).turn h.exact hev ht (DownloadState.not_done_of_step hd) hrecord
              hfiles
  | _ => exact hused.elim

end World

end SDownload
