import SDownload.Manager.Assembly
import SDownload.Manager.Termination
import SDownload.Recovery.Naming
import SDownload.Recovery.Sessions
import SDownload.Recovery.Vouching

/-!
# SDownload.Recovery.Lives

A life of a manager, and what it hands on to the next one.

A life starts from what `load_info` recovers of an earlier one, and chunks are
started, cancelled, deleted and waited for in any interleaving, over a server that
honours ranges, while operations may fail. At some moment the records are saved, with
the chunk files on the disk as far as they are flushed, and the next life begins with
the files as they were then, or without them (`Reloaded`).

`Sound` is what the lives have in common: every record has its part of the source,
every file holds a front of that part as long as its counter says, and a completed
one holds all of it. `Living.step` is one step of a life, and `Living.reloaded` says
that what is left of a life is what another one can begin with.
-/

namespace SDownload

/-! ### How a manager is used -/

/-- A server that honours ranges, and may end early: what it has sent is a front of what was asked
for. -/
def unsteadyService (source : Bytes) (r : ChunkRange) : Service :=
  DownloadState.sendingService (fun bytes => bytes <+: r.bytesOf source) List.nil_prefix

instance (source : Bytes) (r : ChunkRange) (d : DownloadState) (e : TaskEvent) :
    Decidable (d.Allowed (unsteadyService source r) e) := by
  delta DownloadState.Allowed unsteadyService DownloadState.sendingService
  generalize d.task.phase = phase
  induction phase using Phase.casesOn <;> induction e using TaskEvent.casesOn <;> infer_instance

/-- Chunks are started inside the file, and not while their file is being deleted; a merge is
alone; and an operation that fails leaves a front of what it was given. -/
def Considerate (source : Bytes) (params : ChunkManagerParams) (w : World) : Event → Prop
  | .startChunk r _ => r.InFile source.length ∧ w.NoMerge ∧
      Frame.deleting (formatChunkFileName r params.fileName) ∉ w.calls
  | .cancelChunk _ | .deleteChunkData _ | .wait _ _ => w.NoMerge
  | .mergeChunks cleanup => cleanup = false ∧ w.calls = []
  | .resume _ _ => True
  | .task i e => ∀ t ∈ w.tasks[i]?,
      DownloadState.Allowed (unsteadyService source t.range) ⟨t, w.record t.stats, w.files⟩ e ∧
        DownloadState.LeavesFront ⟨t, w.record t.stats, w.files⟩ e
  | .resizeChunk _ _ | .cancelAllChunks | .cleanup _ => False

instance (source : Bytes) (params : ChunkManagerParams) (w : World) (e : Event) :
    Decidable (Considerate source params w e) := by
  delta Considerate
  induction e using Event.casesOn <;> infer_instance

/-- The steps of a life: no task is lost, no name is claimed twice, and calls are considerate. -/
def Lived (source : Bytes) (params : ChunkManagerParams) (w : World) (e : Event) : Prop :=
  KeepsTasks w e ∧ KeepsNames params w e ∧ Considerate source params w e

instance (source : Bytes) (params : ChunkManagerParams) (w : World) (e : Event) :
    Decidable (Lived source params w e) :=
  inferInstanceAs (Decidable (_ ∧ _ ∧ _))

/-- What the next life can begin with: nothing, or what is loaded of the records of the earlier one
that were saved. A chunk file that was saved is as it was then, or too short to be recovered. -/
inductive Reloaded (w : World) (disk : Files) : List Stats → Prop
  /-- Nothing is recovered. -/
  | anew : Reloaded w disk []
  /-- The records are saved, over the files that are on the disk then, and loaded. -/
  | loaded {saved : Files} {fileId : String} {totalFileSize minChunkSize : Int}
      {deleteUselessChunks : Bool} {now : DateTime} {deletes : String → Bool}
      {info : DownloadInfo StopCallback DateTime} (flushed : w.Flushed saved)
      (hasId : fileId ≠ "")
      (metadata : disk.read (recoveryKey fileId) =
        (saveInfo jsonCodec saved fileId totalFileSize (w.chunksStats.values.map w.record)
          minChunkSize deleteUselessChunks now deletes).read (recoveryKey fileId))
      (chunks : ∀ c ∈ dtoChunks saved minChunkSize (w.chunksStats.values.map w.record),
        disk.read c.chunkFileName = (saveInfo jsonCodec saved fileId totalFileSize
            (w.chunksStats.values.map w.record) minChunkSize deleteUselessChunks now
              deletes).read c.chunkFileName ∨
          sizeOnDisk disk c.chunkFileName < c.bytes)
      (load : loadInfo jsonCodec disk fileId = some info) : Reloaded w disk info.chunksFinished

/-! ### A record and its file -/

namespace DownloadState

/-- What is left open of a download depends on its file and its counter only. -/
theorem LeftOk.congr {sent : Bytes → Prop} {hnil : sent []} {d d' : DownloadState}
    (h : d.LeftOk sent) (hok : d.Ok (sendingService sent hnil)) (hsame : d.SameSaved d')
    (hphase : d'.task.phase = d.task.phase) : d'.LeftOk sent := by
  have hphaseOk := hok.phase
  unfold LeftOk at h ⊢
  rw [hphase]
  cases hp : d.task.phase with
  | closing file delivered left =>
      rw [hp] at h hphaseOk
      show d'.files.content file.ino <+: delivered
      rw [hsame.file.content _ hphaseOk.1]
      exact h
  | done r =>
      rw [hp] at h
      refine Front.congr h hsame.bytesDownloaded ?_
      rw [hsame.chunkFileName, hsame.file.read]
  | _ => trivial

end DownloadState

/-- A record stands for a part of the source, and its file holds as much of it as it says. -/
structure SoundRecord (source : Bytes) (files : Files) (r : ChunkRange) (stats : Stats) :
    Prop where
  inFile : r.InFile source.length
  fileSize : stats.fileSize = some (r.stop source.length - r.start)
  front : ∀ t, DownloadState.Front (fun bytes => bytes <+: r.bytesOf source) ⟨t, stats, files⟩
  completed : stats.status = .completed → files.read stats.chunkFileName = some (r.bytesOf source)

namespace SoundRecord

variable {source : Bytes} {files files' : Files} {r : ChunkRange} {stats : Stats}

theorem congr (h : SoundRecord source files r stats)
    (hread : files'.read stats.chunkFileName = files.read stats.chunkFileName) :
    SoundRecord source files' r stats where
  inFile := h.inFile
  fileSize := h.fileSize
  front t := (h.front t).congr rfl hread
  completed hstatus := hread.trans (h.completed hstatus)

/-- Nothing was downloaded yet. -/
theorem of_fresh (hin : r.InFile source.length)
    (hsize : stats.fileSize = some (r.stop source.length - r.start))
    (hbytes : stats.bytesDownloaded = 0) (hstatus : stats.status ≠ .completed) :
    SoundRecord source files r stats :=
  ⟨hin, hsize, fun _ => Or.inl hbytes, fun h => absurd h hstatus⟩

/-- After a turn of its download. -/
theorem of_download {d : DownloadState} (hin : r.InFile source.length)
    (hsize : d.stats.fileSize = some (r.stop source.length - r.start))
    (hok : d.Ok (unsteadyService source r))
    (hleft : d.LeftOk fun bytes => bytes <+: r.bytesOf source) :
    SoundRecord source d.files r d.stats := by
  refine ⟨hin, hsize, fun t => hok.front hleft, fun hstatus => ?_⟩
  obtain ⟨hsizeOk, bytes, hread, hbytes, hfront⟩ := hok.of_completed hstatus
  have hlen : (bytes.length : Int) = (r.bytesOf source).length := by
    rw [hin.length_bytesOf, ← hbytes]
    exact hsizeOk _ hsize
  rw [hread, List.IsPrefix.eq_of_length hfront (Int.natCast_inj.mp hlen)]

/-- Where the size of the file is the counter, the file holds all that was delivered. -/
theorem delivered (h : SoundRecord source files r stats)
    (hsize : sizeOnDisk files stats.chunkFileName = stats.bytesDownloaded)
    (hpos : 0 < stats.bytesDownloaded) :
    ∃ bytes : Bytes, stats.bytesDownloaded = bytes.length ∧ bytes <+: r.bytesOf source ∧
      files.read stats.chunkFileName = some bytes := by
  rcases h.front ⟨r, 0, .download, .created, false, false⟩ with hzero | hfront
  · exact absurd hzero hpos.ne'
  · obtain ⟨bytes, content, hbytes, hsent, hread, hprefix⟩ := hfront
    dsimp only at hbytes hread
    refine ⟨bytes, hbytes, hsent, ?_⟩
    rw [sizeOnDisk, hread, Option.getD_some, hbytes] at hsize
    rw [hread, List.IsPrefix.eq_of_length hprefix (Int.natCast_inj.mp hsize)]

end SoundRecord

namespace World

variable {source : Bytes} {params : ChunkManagerParams} {recovered : List Stats} {w w' w₁ : World}

/-! ### The invariant -/

/-- Downloads are on their way, and records are sound. -/
structure Sound (source : Bytes) (w : World) : Prop where
  job : ∀ (i : TaskId) (t : Task), w.tasks[i]? = some t → t.job = .download
  live : ∀ (i : TaskId) (t : Task), w.tasks[i]? = some t → ¬ t.Done →
    w.chunksStats.get? t.range = some t.stats ∧
      DownloadState.Ok (unsteadyService source t.range) ⟨t, w.record t.stats, w.files⟩ ∧
        DownloadState.LeftOk (fun bytes => bytes <+: t.range.bytesOf source)
          ⟨t, w.record t.stats, w.files⟩
  entry : ∀ r s, w.chunksStats.get? r = some s → SoundRecord source w.files r (w.record s)

/-- A suspended call: the file that is to be deleted is nobody's, and a merge reads completed
chunks. -/
def FrameSound (source : Bytes) (params : ChunkManagerParams) (w : World) : Frame → Prop
  | .cancelInit .. | .cancelJoin .. | .lockWait .. | .waiting .. => True
  | .deleting name => ∀ r s, w.chunksStats.get? r = some s → (w.record s).chunkFileName ≠ name
  | .merging stage cleanup => cleanup = false ∧ ∃ plan : MergePlan,
      plan.destKey = params.fileName ∧ plan.Inv source w.files stage ∧
        ∀ key ∈ plan.keys, ∃ r s, w.chunksStats.get? r = some s ∧
          (w.record s).status = .completed ∧ key = (w.record s).chunkFileName
  | _ => False

/-- What the invariant depends on: the records, which of them the tables still know, the tasks up
to requests to stop, and the files of the chunks. -/
theorem Sound.congr (h : w.Sound source) (hstats : w'.stats = w.stats)
    (htasks : ∀ (i : TaskId) (t' : Task), w'.tasks[i]? = some t' →
      ∃ t, w.tasks[i]? = some t ∧ t.Asked t')
    (hkeys : ∀ r s, w'.chunksStats.get? r = some s → w.chunksStats.get? r = some s)
    (hlive : ∀ (i : TaskId) (t : Task), w.tasks[i]? = some t → ¬ t.Done →
      w'.chunksStats.get? t.range = w.chunksStats.get? t.range)
    (hfiles : ∀ r s, w'.chunksStats.get? r = some s →
      SameFile w.files w'.files (w.record s).chunkFileName) : w'.Sound source := by
  have hrecord : ∀ s, w'.record s = w.record s := fun s => by rw [record, record, hstats]
  refine ⟨fun i t' ht' => ?_, fun i t' ht' hlive' => ?_, fun r s hs => ?_⟩
  · obtain ⟨t, ht, c, rfl⟩ := htasks i t' ht'
    exact h.job i t ht
  · obtain ⟨t, ht, hasked⟩ := htasks i t' ht'
    have hrunning : ¬ t.Done := fun hd => hlive' (hasked.done_iff.mpr hd)
    obtain ⟨hget, hok, hleft⟩ := h.live i t ht hrunning
    have hget' := (hlive i t ht hrunning).trans hget
    obtain ⟨c, rfl⟩ := hasked
    have hsame : DownloadState.SameSaved ⟨t, w.record t.stats, w.files⟩
        ⟨{ t with cancelRequested := c }, w'.record t.stats, w'.files⟩ :=
      ⟨congrArg _ (hrecord _), congrArg _ (hrecord _), congrArg _ (hrecord _),
        hfiles _ _ hget'⟩
    exact ⟨hget', hok.congr hsame rfl (congrArg _ (hrecord _)), hleft.congr hok hsame rfl⟩
  · rw [hrecord]
    exact (h.entry r s (hkeys r s hs)).congr (hfiles r s hs).read

/-! ### A turn of a download -/

/-- Different entries have different files. -/
theorem Named.name_ne (hn : w.Named params recovered) {r r' : ChunkRange} {s s' : StatsId}
    (hs : w.chunksStats.get? r = some s) (hs' : w.chunksStats.get? r' = some s') (hne : r ≠ r') :
    (w.record s).chunkFileName ≠ (w.record s').chunkFileName :=
  fun hname => hne (hn.oneFile r r' s s' hs hs' hname)

theorem Named.exists_range (hn : w.Named params recovered) {r : ChunkRange} {s : StatsId}
    (hs : w.chunksStats.get? r = some s) :
    ∃ r', (w.record s).chunkFileName = formatChunkFileName r' params.fileName := by
  rcases hn.named r s hs with hname | ⟨-, endByte, hname⟩
  · exact ⟨_, hname⟩
  · exact ⟨_, hname⟩

/-- **A turn of a download** keeps the invariant; it changes neither another record nor another
file. -/
theorem Sound.turn (hr : w.Registered) (hn : w.Named params recovered) (h : w.Sound source)
    {i : TaskId} {t : Task} {e : TaskEvent} {d : DownloadState} {cb : Option StopCallback}
    (ht : w.tasks[i]? = some t)
    (hallowed : DownloadState.Allowed (unsteadyService source t.range)
      ⟨t, w.record t.stats, w.files⟩ e)
    (hleaves : DownloadState.LeavesFront ⟨t, w.record t.stats, w.files⟩ e)
    (hstep : DownloadState.step ⟨t, w.record t.stats, w.files⟩ e = some (d, cb))
    (hev : w.Evolves w') (hturn : w.DownloadTurn w' i d) :
    w'.Sound source ∧
      (∀ s, s ≠ t.stats → w'.record s = w.record s) ∧
      (∀ name, name ≠ (w.record t.stats).chunkFileName → SameFile w.files w'.files name) := by
  have hlive := DownloadState.not_done_of_step hstep
  obtain ⟨hget, hok, hleft⟩ := h.live i t ht hlive
  have hentry := h.entry _ _ hget
  obtain ⟨hok', hothers⟩ := hok.step hallowed hstep
  have hleft' := hleft.step hok hleaves hstep
  have hlater := DownloadState.step_later hstep
  have hself : w'.record t.stats = d.stats := by
    rw [hturn.record, if_pos ⟨hlater.task.stats.symm, hlater.task.stats ▸ (hr.stats _ _ hget).1⟩]
  have hother : ∀ s, s ≠ t.stats → w'.record s = w.record s := fun s hs => by
    rw [hturn.record, if_neg fun hand => hs (hand.1.trans hlater.task.stats)]
  have hfiles : ∀ name, name ≠ (w.record t.stats).chunkFileName →
      SameFile w.files w'.files name := fun name hne => by
    rw [hturn.files]
    exact hothers name hne
  refine ⟨⟨fun j t' ht' => ?_, fun j t' ht' hlive' => ?_, fun r s hs => ?_⟩, hother, hfiles⟩
  · obtain ⟨t₀, ht₀, hl⟩ := hev.task_of ht'
    exact hl.job.trans (h.job j t₀ ht₀)
  · by_cases hj : j = i
    · subst hj
      obtain ⟨c, rfl⟩ := hturn.self t' ht'
      rw [hev.chunksStats, show ({ d.task with cancelRequested := c } : Task).range = t.range from
        hlater.task.range]
      have hstats : ({ d.task with cancelRequested := c } : Task).stats = t.stats :=
        hlater.task.stats
      rw [hstats, hself, hturn.files]
      have hsame : ∀ t', d.SameSaved ⟨t', d.stats, d.files⟩ := fun _ =>
        ⟨rfl, rfl, rfl, .refl _ _⟩
      exact ⟨hget, hok'.congr (hsame _) rfl rfl, hleft'.congr hok' (hsame _) rfl⟩
    · -- another download: neither its record nor its file is this one's
      obtain ⟨t₀, ht₀, c, rfl⟩ := hturn.other j t' hj ht'
      have hlive₀ : ¬ t₀.Done := hlive'
      obtain ⟨hget₀, hok₀, hleft₀⟩ := h.live j t₀ ht₀ hlive₀
      have hrange : t₀.range ≠ t.range := fun he => hj (hr.live_inj ht ht₀ hlive hlive₀ he)
      have hstats : t₀.stats ≠ t.stats := fun he => hrange <| by
        rw [← (hr.stats _ _ hget₀).2, ← (hr.stats _ _ hget).2, he]
      have hsame : DownloadState.SameSaved ⟨t₀, w.record t₀.stats, w.files⟩
          ⟨{ t₀ with cancelRequested := c }, w'.record t₀.stats, w'.files⟩ :=
        ⟨congrArg _ (hother _ hstats), congrArg _ (hother _ hstats),
          congrArg _ (hother _ hstats), hfiles _ (hn.name_ne hget₀ hget hrange)⟩
      exact ⟨hev.chunksStats ▸ hget₀, hok₀.congr hsame rfl (congrArg _ (hother _ hstats)),
        hleft₀.congr hok₀ hsame rfl⟩
  · rw [hev.chunksStats] at hs
    by_cases hst : s = t.stats
    · -- its own record vouches for the bytes on the disk, however far the download is
      subst hst
      obtain rfl : t.range = r := by rw [← (hr.stats _ _ hget).2, ← (hr.stats _ _ hs).2]
      rw [hself, hturn.files]
      exact .of_download hentry.inFile (hlater.stats.fileSize.trans hentry.fileSize) hok' hleft'
    · have hne : r ≠ t.range := fun he => hst <| by
        subst he
        exact Option.some.inj (hs.symm.trans hget)
      rw [hother s hst]
      exact (h.entry r s hs).congr (hfiles _ (hn.name_ne hs hget hne)).read

/-- A suspended call is not disturbed by a turn of a download. -/
theorem FrameSound.turn {f : Frame} {i : TaskId} {t : Task} (hn : w.Named params recovered)
    (h : w.Sound source) (hev : w.Evolves w') (ht : w.tasks[i]? = some t) (hlive : ¬ t.Done)
    (hrecord : ∀ s, s ≠ t.stats → w'.record s = w.record s)
    (hfiles : ∀ name, name ≠ (w.record t.stats).chunkFileName → SameFile w.files w'.files name)
    (hf : w.FrameSound source params f) : w'.FrameSound source params f := by
  obtain ⟨hget, hok, -⟩ := h.live i t ht hlive
  cases f with
  | deleting name =>
      intro r s hs
      rw [hev.chunksStats] at hs
      rw [(hev.record s).chunkFileName]
      exact hf r s hs
  | merging stage cleanup =>
      obtain ⟨hcleanup, plan, hdest, hinv, hkeys⟩ := hf
      -- the downloading range is not completed, so it is not one the merge reads
      have hother : ∀ r s, w.chunksStats.get? r = some s → (w.record s).status = .completed →
          s ≠ t.stats ∧ r ≠ t.range := by
        intro r s hs hstatus
        have hne : s ≠ t.stats := fun he =>
          DownloadState.not_completed (hok.running hlive) (he ▸ hstatus)
        refine ⟨hne, fun he => hne ?_⟩
        subst he
        exact Option.some.inj (hs.symm.trans hget)
      refine ⟨hcleanup, plan, hdest, hinv.congr ?_ fun key hkey => ?_, fun key hkey => ?_⟩
      · obtain ⟨r', hname⟩ := hn.exists_range hget
        exact hfiles _ (hdest ▸ hname ▸ (formatChunkFileName_ne r' _).symm)
      · obtain ⟨r, s, hs, hstatus, rfl⟩ := hkeys key hkey
        exact hfiles _ (hn.name_ne hs hget (hother r s hs hstatus).2)
      · obtain ⟨r, s, hs, hstatus, rfl⟩ := hkeys key hkey
        refine ⟨r, s, hev.chunksStats ▸ hs, ?_⟩
        rw [hrecord s (hother r s hs hstatus).1]
        exact ⟨hstatus, rfl⟩
  | cancelInit _ _ _ | cancelJoin _ _ _ | lockWait _ _ | waiting _ _ _ => trivial
  | _ => exact hf.elim

/-! ### Each method -/

/-- A method that keeps the invariant, with the call it leaves or what it replies. -/
structure KeepsSound (source : Bytes) (params : ChunkManagerParams) (w : World)
    (result : World × Progress) : Prop where
  sound : result.1.Sound source
  stats : result.1.stats = w.stats
  keys : ∀ r s, result.1.chunksStats.get? r = some s → w.chunksStats.get? r = some s
  calls : result.1.calls = w.calls
  frame : ∀ f, result.2 = .suspended f → result.1.FrameSound source params f ∧ f.isMerge = false
  merged : ∀ rs, result.2 = .returned rs → ∀ reply, ⟨.mergeChunks, reply⟩ ∉ rs

theorem KeepsSound.suspended {f : Frame} (h : w'.Sound source) (hstats : w'.stats = w.stats)
    (hkeys : ∀ r s, w'.chunksStats.get? r = some s → w.chunksStats.get? r = some s)
    (hcalls : w'.calls = w.calls) (hf : w'.FrameSound source params f)
    (hmerge : f.isMerge = false) : w.KeepsSound source params (w', .suspended f) where
  sound := h
  stats := hstats
  keys := hkeys
  calls := hcalls
  frame := fun f' hf' => Progress.suspended.inj hf' ▸ ⟨hf, hmerge⟩
  merged := by simp

theorem KeepsSound.returned {rs : List Returned} (h : w'.Sound source)
    (hstats : w'.stats = w.stats)
    (hkeys : ∀ r s, w'.chunksStats.get? r = some s → w.chunksStats.get? r = some s)
    (hcalls : w'.calls = w.calls) (hmerged : ∀ reply, ⟨.mergeChunks, reply⟩ ∉ rs) :
    w.KeepsSound source params (w', .returned rs) where
  sound := h
  stats := hstats
  keys := hkeys
  calls := hcalls
  frame := by simp
  merged := fun rs' hrs => Progress.returned.inj hrs ▸ hmerged

theorem KeepsSound.of_same {result : World × Progress}
    (h : w₁.KeepsSound source params result) (hstats : w₁.stats = w.stats)
    (hkeys : w₁.chunksStats = w.chunksStats) (hcalls : w₁.calls = w.calls) :
    w.KeepsSound source params result :=
  ⟨h.sound, h.stats.trans hstats, fun r s hs => hkeys ▸ h.keys r s hs, h.calls.trans hcalls,
    h.frame, h.merged⟩

/-- The task table is no part of it. -/
theorem Sound.of_tasks (h : w.Sound source) (chunksTasks : Dict ChunkRange TaskId)
    (waitLocked : Bool) : Sound source { w with chunksTasks, waitLocked } :=
  ⟨h.job, h.live, h.entry⟩

theorem Sound.cancelTask (h : w.Sound source) (i : TaskId) : (w.cancelTask i).Sound source :=
  h.congr (w.cancelTask_asks i).stats (w.cancelTask_asks i).task (fun _ _ hs => hs)
    (fun _ _ _ _ => rfl) fun _ _ _ => .refl _ _

theorem popAndDelete_sound (hn : w.Named params recovered) (h : w.Sound source) {r : ChunkRange}
    (hidle : w.RangeIdle r) : w.KeepsSound source params (w.popAndDelete r) := by
  unfold popAndDelete
  split
  · exact .returned h rfl (fun _ _ hs => hs) rfl (by simp)
  · rename_i s hs
    have hkeys : ∀ r' s', (w.chunksStats.erase r).get? r' = some s' →
        r' ≠ r ∧ w.chunksStats.get? r' = some s' := fun _ _ hs' => Dict.get?_erase_eq_some.mp hs'
    refine .suspended ?_ rfl (fun r' s' hs' => (hkeys r' s' hs').2) rfl (fun r' s' hs' => ?_) rfl
    · refine h.congr rfl (fun i t ht => ⟨t, ht, .refl t⟩) (fun r' s' hs' => (hkeys r' s' hs').2)
        (fun i t ht hlive => ?_) fun _ _ _ => .refl _ _
      rw [Dict.get?_erase, if_neg (hidle i t ht hlive)]
    · obtain ⟨hne, hget⟩ := hkeys r' s' hs'
      exact hn.name_ne hget hs hne

theorem cancelReturns_sound (hn : w.Named params recovered) (h : w.Sound source) {r : ChunkRange}
    {thenDelete : Bool} (hidle : thenDelete = true → w.RangeIdle r) (b : Bool) :
    w.KeepsSound source params (w.cancelReturns r thenDelete b) := by
  unfold cancelReturns
  split
  · rename_i hdelete
    exact popAndDelete_sound hn h (hidle hdelete)
  · exact .returned h rfl (fun _ _ hs => hs) rfl (by simp)

theorem cancelRaises_sound (h : w.Sound source) (r : ChunkRange) (thenDelete : Bool) :
    w.KeepsSound source params (w.cancelRaises r thenDelete) :=
  .returned h rfl (fun _ _ hs => hs) rfl (by cases thenDelete <;> simp)

theorem cancelJoined_sound (hr : w.Registered) (hn : w.Named params recovered)
    (h : w.Sound source) {r : ChunkRange} (hd : w.EntryDone r) (thenDelete : Bool) :
    w.KeepsSound source params (w.cancelJoined r thenDelete) := by
  unfold cancelJoined
  split
  · have hn' : Named params recovered { w with chunksTasks := w.chunksTasks.erase r } :=
      ⟨hn.oneFile, hn.stats, hn.named⟩
    refine (cancelReturns_sound hn' (h.of_tasks _ _) (fun _ => ?_) true).of_same rfl rfl rfl
    exact fun i t ht hlive => hr.range_ne hd ht hlive
  · exact cancelRaises_sound h r thenDelete

theorem cancelSignalled_sound (hr : w.Registered) (hn : w.Named params recovered)
    (h : w.Sound source) (r : ChunkRange) {i : TaskId} (hd : w.TaskDone i → w.EntryDone r)
    (thenDelete : Bool) : w.KeepsSound source params (w.cancelSignalled r i thenDelete) := by
  have hev := w.cancelTask_evolves i
  unfold cancelSignalled
  dsimp only
  split
  · rename_i hdone
    refine (cancelJoined_sound (hr.evolves hev) (hn.forgets hev.forgets) (h.cancelTask i) ?_
      thenDelete).of_same rfl rfl rfl
    intro j hj
    exact (w.taskDone_cancelTask i j).mpr (hd ((w.taskDone_cancelTask i i).mp hdone) j hj)
  · exact .suspended (h.cancelTask i) rfl (fun _ _ hs => hs) rfl trivial rfl

/-- A download that runs is one `cancel_chunk` stops. -/
theorem Sound.idle_of_status (h : w.Sound source) {r : ChunkRange}
    {stats : Stats} (hstats : w.statsOf r = some stats)
    (hstatus : stats.status ∉ [EDownloadStatus.downloading, .pending, .awaitingSuccession]) :
    w.RangeIdle r := by
  intro i t ht hlive hrange
  subst hrange
  obtain ⟨hget, hok, -⟩ := h.live i t ht hlive
  rw [statsOf, hget, Option.map_some, Option.some.injEq] at hstats
  subst hstats
  obtain hpending | hdownloading := hok.running hlive
  · exact hstatus (by simp [show (w.record t.stats).status = .pending from hpending])
  · exact hstatus (by simp [show (w.record t.stats).status = .downloading from hdownloading])

theorem cancelChunk_sound (hr : w.Registered) (hn : w.Named params recovered)
    (h : w.Sound source) (r : ChunkRange) (thenDelete : Bool) :
    w.KeepsSound source params (w.cancelChunk r thenDelete) := by
  unfold cancelChunk
  split
  · rename_i hnone
    exact cancelReturns_sound hn h (fun _ => hr.idle_of_none hnone) _
  · rename_i i hentry
    split
    · exact cancelRaises_sound h r thenDelete
    · rename_i stats hstats
      split
      · split
        · refine cancelSignalled_sound hr hn h r (fun hdone j hj => ?_) thenDelete
          obtain rfl : i = j := Option.some.inj (hentry.symm.trans hj)
          exact hdone
        · exact .suspended h rfl (fun _ _ hs => hs) rfl trivial rfl
      · rename_i hstatus
        exact cancelReturns_sound hn h (fun _ => h.idle_of_status hstats hstatus) _

theorem deleteChunkData_sound (hr : w.Registered) (hn : w.Named params recovered)
    (h : w.Sound source) (r : ChunkRange) :
    w.KeepsSound source params (w.deleteChunkData r) := by
  unfold deleteChunkData
  split
  · exact cancelChunk_sound hr hn h r true
  · rename_i hkey
    exact popAndDelete_sound hn h (hr.idle_of_none (Dict.get?_eq_none_iff.mpr hkey))

theorem waitEntered_sound (h : w.Sound source) (timed : Bool) (returnWhen : ReturnWhen) :
    w.KeepsSound source params (w.waitEntered timed returnWhen) := by
  unfold waitEntered
  split
  · exact .returned h rfl (fun _ _ hs => hs) rfl (by simp)
  · exact .suspended (h.of_tasks _ _) rfl (fun _ _ hs => hs) rfl trivial rfl

theorem waitForChunks_sound (h : w.Sound source) (timed : Bool) (returnWhen : ReturnWhen) :
    w.KeepsSound source params (w.waitForChunks timed returnWhen) := by
  unfold waitForChunks
  split
  · exact .suspended h rfl (fun _ _ hs => hs) rfl trivial rfl
  · exact waitEntered_sound h timed returnWhen

theorem waitCollects_sound (h : w.Sound source) (allTasks : List TaskId) :
    w.KeepsSound source params (w.waitCollects allTasks) := by
  unfold waitCollects
  dsimp only
  split <;> exact .returned (h.of_tasks _ _) rfl (fun _ _ hs => hs) rfl (by simp)

/-- The file is nobody's. -/
theorem deleted_sound (h : w.Sound source) {name : String}
    (hf : w.FrameSound source params (.deleting name)) (ok : Bool) :
    Sound source { w with files := if ok then w.files.unlink name else w.files } := by
  refine h.congr rfl (fun _ t ht => ⟨t, ht, .refl t⟩) (fun _ _ hs => hs) (fun _ _ _ _ => rfl)
    fun r s hs => ?_
  dsimp only
  split
  · exact ⟨by rw [FileSystem.lookup_unlink, if_neg (hf r s hs)], fun _ _ => rfl⟩
  · exact .refl _ _

/-- A suspended call that is no merge goes on. -/
theorem Sound.resume (hr : w.Registered) (hn : w.Named params recovered) (h : w.Sound source)
    {f : Frame} (hf : w.FrameSound source params f) (hmerge : f.isMerge = false)
    (hkeeps : ∀ r i thenDelete, f = .cancelInit r i thenDelete ∨ f = .cancelJoin r i thenDelete →
      w.TaskDone i → w.EntryDone r)
    {ok : Bool} {result : World × Progress} (hresume : w.resume params f ok = some result) :
    w.KeepsSound source params result := by
  unfold World.resume at hresume
  cases f with
  | cancelInit r i thenDelete =>
      dsimp only at hresume
      split at hresume
      · obtain rfl := Option.some.inj hresume
        exact cancelSignalled_sound hr hn h r (hkeeps r i thenDelete (Or.inl rfl)) thenDelete
      · cases hresume
  | cancelJoin r i thenDelete =>
      dsimp only at hresume
      split at hresume
      · rename_i hdone
        obtain rfl := Option.some.inj hresume
        exact cancelJoined_sound hr hn h (hkeeps r i thenDelete (Or.inr rfl) hdone) thenDelete
      · cases hresume
  | deleting name =>
      obtain rfl := Option.some.inj hresume
      exact .returned (deleted_sound h hf ok) rfl (fun _ _ hs => hs) rfl (by simp)
  | lockWait timed returnWhen =>
      dsimp only at hresume
      split at hresume
      · cases hresume
      · obtain rfl := Option.some.inj hresume
        exact waitEntered_sound h timed returnWhen
  | waiting allTasks timed returnWhen =>
      dsimp only at hresume
      split at hresume
      · obtain rfl := Option.some.inj hresume
        exact waitCollects_sound h allTasks
      · cases hresume
  | merging stage cleanup => cases hmerge
  | _ => exact hf.elim

/-! ### A chunk is started -/

theorem startChunk_sound (hsize : params.fileSize = some (source.length : Int))
    (hr : w.Registered) (h : w.Sound source) {r : ChunkRange} (hin : r.InFile source.length)
    (speed : Option Int) : (w.startChunk params r speed).Sound source := by
  unfold startChunk
  split
  · exact h
  split
  · exact h
  rename_i hkey
  have hrecord : ∀ s, s < w.stats.length →
      (w.registerChunkStats params r speed).record s = w.record s := fun s hs => by
    rw [record_registerChunkStats, if_neg (Nat.ne_of_lt hs)]
  have hnew : (w.registerChunkStats params r speed).record w.stats.length =
      { freshRecord params r with targetSpeedBps := speed } := by
    rw [record_registerChunkStats, if_pos rfl]
    rfl
  refine ⟨fun i t ht => ?_, fun i t ht hlive => ?_, fun r' s hs => ?_⟩
  · rcases List.mem_append.mp (List.mem_of_getElem? ht) with hold | hnew
    · obtain ⟨j, hj⟩ := List.mem_iff_getElem?.mp hold
      exact h.job j t hj
    · rw [List.mem_singleton.mp hnew]
  · show (w.chunksStats.set r w.stats.length).get? t.range = some t.stats ∧
      DownloadState.Ok _ ⟨t, (w.registerChunkStats params r speed).record t.stats, w.files⟩ ∧
        DownloadState.LeftOk _ ⟨t, (w.registerChunkStats params r speed).record t.stats, w.files⟩
    have ht' : (w.tasks ++ [_])[i]? = some t := ht
    rcases Nat.lt_or_ge i w.tasks.length with hlt | hge
    · rw [List.getElem?_append_left hlt] at ht'
      obtain ⟨hget, hok⟩ := h.live i t ht' hlive
      have hne : t.range ≠ r := fun he =>
        hkey (Dict.mem_keys_iff.mpr ⟨i, he ▸ hr.live i t ht' hlive⟩)
      rw [Dict.get?_set_of_ne _ _ hne, hrecord _ (hr.stats _ _ hget).1]
      exact ⟨hget, hok⟩
    · -- the new task has not begun
      rw [List.getElem?_append_right hge, List.getElem?_singleton] at ht'
      split at ht'
      · obtain rfl := Option.some.inj ht'
        rw [hnew]
        exact ⟨Dict.get?_set_self _ _ _, ⟨fun _ => Or.inl rfl, rfl⟩, trivial⟩
      · cases ht'
  · have hs' : (w.chunksStats.set r w.stats.length).get? r' = some s := hs
    show SoundRecord source w.files r' ((w.registerChunkStats params r speed).record s)
    rw [Dict.get?_set] at hs'
    split at hs'
    · rename_i hr'
      subst hr'
      obtain rfl := Option.some.inj hs'
      rw [hnew]
      refine .of_fresh hin ?_ rfl (by simp [freshRecord])
      show (getEffectiveRangeInfo r' params.fileSize).2 = _
      rw [hsize, getEffectiveRangeInfo_snd]
    · rw [hrecord s (hr.stats _ _ hs').1]
      exact h.entry r' s hs'

/-- The new chunk's file is not one that is being deleted. -/
theorem FrameSound.creates {f : Frame} {r : ChunkRange} {job : Job} (hr : w.Registered)
    (hc : w.Creates params w' r job) (hmerge : f.isMerge = false)
    (hname : f ≠ .deleting (formatChunkFileName r params.fileName))
    (hf : w.FrameSound source params f) : w'.FrameSound source params f := by
  cases f with
  | deleting name =>
      intro r' s hs
      rw [hc.chunksStats, Dict.get?_set] at hs
      split at hs
      · obtain rfl := Option.some.inj hs
        rw [hc.newRecord.chunkFileName]
        exact fun he => hname (congrArg Frame.deleting he.symm)
      · rw [(hc.record s (hr.stats r' s hs).1).chunkFileName]
        exact hf r' s hs
  | merging stage cleanup => cases hmerge
  | cancelInit _ _ _ | cancelJoin _ _ _ | lockWait _ _ | waiting _ _ _ => trivial
  | _ => exact hf.elim

/-- A method that registers nothing leaves the other calls as they are. -/
theorem FrameSound.keeps {f : Frame} (hstats : w'.stats = w.stats)
    (hkeys : ∀ r s, w'.chunksStats.get? r = some s → w.chunksStats.get? r = some s)
    (hmerge : f.isMerge = false) (hf : w.FrameSound source params f) :
    w'.FrameSound source params f := by
  cases f with
  | deleting name =>
      intro r s hs
      rw [record, hstats]
      exact hf r s (hkeys r s hs)
  | merging stage cleanup => cases hmerge
  | cancelInit _ _ _ | cancelJoin _ _ _ | lockWait _ _ | waiting _ _ _ => trivial
  | _ => exact hf.elim

/-! ### The merge -/

/-- What `merge_chunks` sets out to do makes the source. -/
theorem mergeChunks_sound (hsize : params.fileSize = some (source.length : Int))
    (hsource : 0 < source.length) (hr : w.Registered) (hn : w.Named params recovered)
    (h : w.Sound source) :
    (∃ cause, w.mergeChunks params false =
        (w, .returned [⟨.mergeChunks, .raised (.reconstruction cause)⟩])) ∨
      ∃ stage, w.mergeChunks params false = (w, .suspended (.merging stage false)) ∧
        w.FrameSound source params (.merging stage false) := by
  unfold mergeChunks
  split
  · rename_i cause _
    exact Or.inl ⟨cause, rfl⟩
  · rename_i configs hconfigs
    rw [hsize] at hconfigs
    -- every record of the list is that of an entry
    have hentry : ∀ stats ∈ w.chunksStats.values.map w.record, ∃ r s,
        w.chunksStats.get? r = some s ∧ stats = w.record s ∧ stats.range = r := by
      intro stats hstats
      obtain ⟨s, hs, rfl⟩ := List.mem_map.mp hstats
      obtain ⟨r, hget⟩ := Dict.mem_values_iff.mp hs
      exact ⟨r, s, hget, rfl, (hr.stats r s hget).2⟩
    have hchunk : ∀ stats ∈ w.chunksStats.values.map w.record, stats.status = .completed →
        stats.range.InFile source.length ∧
          (w.files.read stats.chunkFileName).getD [] = stats.range.bytesOf source := by
      intro stats hstats hstatus
      obtain ⟨r, s, hget, rfl, hrange⟩ := hentry stats hstats
      rw [hrange, (h.entry r s hget).completed hstatus]
      exact ⟨(h.entry r s hget).inFile, rfl⟩
    obtain ⟨hkeys, hbytes⟩ := mergeConfigs_bytes (fun key => (w.files.read key).getD []) hsource
      hchunk hconfigs
    have hcompleted : ∀ c ∈ configs, ∃ r s, w.chunksStats.get? r = some s ∧
        (w.record s).status = .completed ∧ c.key = (w.record s).chunkFileName ∧
          w.files.read c.key = some (r.bytesOf source) := by
      intro c hc
      obtain ⟨stats, hstats, hstatus, hname⟩ := hkeys c hc
      obtain ⟨r, s, hget, rfl, -⟩ := hentry stats hstats
      exact ⟨r, s, hget, hstatus, hname, hname ▸ (h.entry r s hget).completed hstatus⟩
    refine Or.inr ⟨_, rfl, rfl, ⟨params.fileName, configs.map (·.key),
      fun key => (w.files.read key).getD [], fun hmem => ?_⟩, rfl, ⟨?_, ?_, hbytes⟩, ?_⟩
    · obtain ⟨c, hc, hkey⟩ := List.mem_map.mp hmem
      obtain ⟨r, s, hget, -, hname, -⟩ := hcompleted c hc
      obtain ⟨r', hformat⟩ := hn.exists_range hget
      exact formatChunkFileName_ne r' params.fileName (hformat.symm.trans (hname.symm.trans hkey))
    · intro key hkey
      obtain ⟨c, hc, rfl⟩ := List.mem_map.mp hkey
      obtain ⟨r, s, -, -, -, hread⟩ := hcompleted c hc
      simp [hread]
    · exact fun c hc => List.mem_map_of_mem hc
    · intro key hkey
      obtain ⟨c, hc, rfl⟩ := List.mem_map.mp hkey
      obtain ⟨r, s, hget, hstatus, hname, -⟩ := hcompleted c hc
      exact ⟨r, s, hget, hstatus, hname⟩

/-- Writing the destination touches no chunk. -/
theorem Sound.files (hn : w.Named params recovered) (h : w.Sound source) {files : Files}
    (hsame : ∀ name, name ≠ params.fileName → SameFile w.files files name) :
    Sound source { w with files } := by
  refine h.congr rfl (fun _ t ht => ⟨t, ht, .refl t⟩) (fun _ _ hs => hs) (fun _ _ _ _ => rfl)
    fun r s hs => ?_
  obtain ⟨r', hname⟩ := hn.exists_range hs
  exact hsame _ (hname ▸ formatChunkFileName_ne r' params.fileName)

/-- A round of the merge, and its last. -/
theorem mergeRound_sound (hbuffer : 1 ≤ params.ioBufferSize) (hn : w.Named params recovered)
    (h : w.Sound source) {stage : MergeStage} {cleanup : Bool}
    (hf : w.FrameSound source params (.merging stage cleanup)) (ok : Bool) :
    ∃ files, Sound source { w with files } ∧
      ((∃ stage', w.mergeRound params stage cleanup ok =
          ({ w with files }, .suspended (.merging stage' false)) ∧
            FrameSound source params { w with files } (.merging stage' false)) ∨
        ∃ reply, w.mergeRound params stage cleanup ok =
          ({ w with files }, .returned [⟨.mergeChunks, reply⟩]) ∧
            MergeOk source params { w with files } reply) := by
  obtain ⟨rfl, plan, hdest, hinv, hkeys⟩ := hf
  unfold mergeRound
  split
  all_goals
    rename_i hround
    rw [← hdest] at hround
    obtain ⟨hsame, hnext, hlast⟩ := hinv.round hbuffer hround
    rw [hdest] at hsame
    refine ⟨_, h.files hn hsame, ?_⟩
  · exact Or.inl ⟨_, rfl, rfl, plan, hdest, (hnext _ rfl).1, hkeys⟩
  · exact Or.inr ⟨_, rfl, Or.inr ⟨_, rfl⟩⟩
  · exact Or.inr ⟨_, rfl, Or.inl ⟨rfl, hdest ▸ hlast rfl⟩⟩

/-! ### A life -/

/-- The invariant of a life. A merge is the only call while it is under way. -/
structure Living (source : Bytes) (params : ChunkManagerParams) (recovered : List Stats)
    (w : World) : Prop where
  registered : w.Registered
  named : w.Named params recovered
  sound : w.Sound source
  frames : ∀ f ∈ w.calls, w.FrameSound source params f
  alone : w.NoMerge ∨ ∃ f, w.calls = [f]

/-- The suspended calls are no part of it. -/
theorem Sound.of_calls (h : w.Sound source) (calls : List Frame) :
    Sound source { w with calls } := ⟨h.job, h.live, h.entry⟩

theorem FrameSound.of_calls {f : Frame} (h : w.FrameSound source params f)
    (calls : List Frame) : FrameSound source params { w with calls } f := by
  cases f <;> exact h

/-- What a step does that registers nothing and is no merge: the calls that stay are as they
were, and the new one is sound. -/
theorem KeepsSound.living {result : World × Progress} (calls : List Frame)
    (h : w.Living source params recovered) (hkeeps : w.KeepsSound source params result)
    (hmerge : w.NoMerge)
    (hr : Registered { result.1 with calls }) (hn : Named params recovered { result.1 with calls })
    (hcalls : ∀ f ∈ calls, f ∈ w.calls ∨ result.2 = .suspended f) :
    Living source params recovered { result.1 with calls } where
  registered := hr
  named := hn
  sound := hkeeps.sound.of_calls calls
  frames f hf := by
    refine FrameSound.of_calls ?_ calls
    rcases hcalls f hf with hold | hnew
    · exact (h.frames f hold).keeps hkeeps.stats hkeeps.keys (hmerge f hold)
    · exact (hkeeps.frame f hnew).1
  alone := Or.inl fun f hf => by
    rcases hcalls f hf with hold | hnew
    · exact hmerge f hold
    · exact (hkeeps.frame f hnew).2

/-- A method is called. -/
theorem KeepsSound.called {result : World × Progress} (h : w.Living source params recovered)
    (hkeeps : w.KeepsSound source params result) (hmerge : w.NoMerge)
    (hr : (SDownload.called result).1.Registered)
    (hn : (SDownload.called result).1.Named params recovered) :
    (SDownload.called result).1.Living source params recovered ∧
      ∀ reply, ⟨.mergeChunks, reply⟩ ∉ (SDownload.called result).2 := by
  obtain ⟨w', progress⟩ := result
  have hcalls : w'.calls = w.calls := hkeeps.calls
  cases progress with
  | suspended f =>
      refine ⟨hkeeps.living _ h hmerge hr hn fun g hg => ?_, by simp [SDownload.called]⟩
      rcases List.mem_append.mp hg with hold | hnew
      · exact Or.inl (hcalls ▸ hold)
      · exact Or.inr (congrArg Progress.suspended (List.mem_singleton.mp hnew).symm)
  | returned rs =>
      refine ⟨?_, hkeeps.merged rs rfl⟩
      exact hkeeps.living w'.calls h hmerge hr hn fun g hg => Or.inl (hcalls ▸ hg)

/-- A suspended call went on. -/
theorem KeepsSound.resumed {result : World × Progress} {i : Nat}
    (h : w.Living source params recovered) (hkeeps : w.KeepsSound source params result)
    (hmerge : w.NoMerge) (hr : (SDownload.resumed i result).1.Registered)
    (hn : (SDownload.resumed i result).1.Named params recovered) :
    (SDownload.resumed i result).1.Living source params recovered ∧
      ∀ reply, ⟨.mergeChunks, reply⟩ ∉ (SDownload.resumed i result).2 := by
  obtain ⟨w', progress⟩ := result
  have hcalls : w'.calls = w.calls := hkeeps.calls
  cases progress with
  | suspended f =>
      refine ⟨hkeeps.living _ h hmerge hr hn fun g hg => ?_, by simp [SDownload.resumed]⟩
      rcases List.mem_or_eq_of_mem_set hg with hold | rfl
      · exact Or.inl (hcalls ▸ hold)
      · exact Or.inr rfl
  | returned rs =>
      refine ⟨?_, hkeeps.merged rs rfl⟩
      exact hkeeps.living _ h hmerge hr hn fun g hg =>
        Or.inl (hcalls ▸ List.mem_of_mem_eraseIdx hg)

/-- What a call that cancels a chunk relies on when it goes on. -/
theorem entryDone_of_keepsTasks {i : Nat} {ok : Bool} {f : Frame} {r : ChunkRange} {j : TaskId}
    {thenDelete : Bool} (htasks : KeepsTasks w (.resume i ok)) (hf : w.calls[i]? = some f)
    (hcancel : f = .cancelInit r j thenDelete ∨ f = .cancelJoin r j thenDelete) :
    w.TaskDone j → w.EntryDone r := by
  unfold KeepsTasks at htasks
  dsimp only at htasks
  rw [hf] at htasks
  rcases hcancel with rfl | rfl <;> exact htasks

/-- Where another call than a merge is suspended, no merge is. -/
theorem Living.noMerge (h : w.Living source params recovered) {f : Frame} (hf : f ∈ w.calls)
    (hmerge : f.isMerge = false) : w.NoMerge := by
  rcases h.alone with hnone | ⟨g, hg⟩
  · exact hnone
  · intro f' hf'
    rw [hg] at hf' hf
    rw [List.mem_singleton.mp hf', ← List.mem_singleton.mp hf]
    exact hmerge

/-- A merge that is suspended is the only call. -/
theorem Living.calls_of_merging (h : w.Living source params recovered) {stage : MergeStage}
    {cleanup : Bool} (hf : .merging stage cleanup ∈ w.calls) :
    w.calls = [.merging stage cleanup] := by
  rcases h.alone with hnone | ⟨g, hg⟩
  · exact absurd (hnone _ hf) (by simp [Frame.isMerge])
  · rw [hg] at hf ⊢
    rw [List.mem_singleton.mp hf]

/-- A chunk is started. -/
theorem Living.startChunk (hsize : params.fileSize = some (source.length : Int))
    (h : w.Living source params recovered) {r : ChunkRange} (speed : Option Int)
    (hin : r.InFile source.length) (hmerge : w.NoMerge)
    (hdeleting : Frame.deleting (formatChunkFileName r params.fileName) ∉ w.calls)
    (hr : (w.startChunk params r speed).Registered)
    (hn : (w.startChunk params r speed).Named params recovered) :
    (w.startChunk params r speed).Living source params recovered := by
  have hsound := startChunk_sound hsize h.registered h.sound hin speed
  obtain ⟨hsame, -⟩ | ⟨-, -, hcreates⟩ := startChunk_cases params w r speed
  · rw [hsame]
    exact h
  · refine ⟨hr, hn, hsound, fun f hf => ?_, Or.inl fun f hf => ?_⟩
    · rw [hcreates.calls] at hf
      refine (h.frames f hf).creates h.registered hcreates (hmerge f hf) fun he => ?_
      exact hdeleting (he ▸ hf)
    · exact hmerge f (hcreates.calls ▸ hf)

/-- A merge is called, and nothing else is suspended. -/
theorem Living.mergeChunks (hsize : params.fileSize = some (source.length : Int))
    (hsource : 0 < source.length) (h : w.Living source params recovered) (hcalls : w.calls = [])
    (hr : (called (w.mergeChunks params false)).1.Registered)
    (hn : (called (w.mergeChunks params false)).1.Named params recovered) :
    (called (w.mergeChunks params false)).1.Living source params recovered ∧
      ∀ reply, ⟨.mergeChunks, reply⟩ ∈ (called (w.mergeChunks params false)).2 →
        (called (w.mergeChunks params false)).1.MergeOk source params reply := by
  rcases mergeChunks_sound hsize hsource h.registered h.named h.sound with
    ⟨cause, hreply⟩ | ⟨stage, hstage, hframe⟩
  · rw [hreply] at hr hn ⊢
    refine ⟨⟨hr, hn, h.sound, h.frames, h.alone⟩, fun reply hmem => ?_⟩
    obtain rfl := (Returned.mk.inj (List.mem_singleton.mp hmem)).2
    exact Or.inr ⟨cause, rfl⟩
  · rw [hstage] at hr hn ⊢
    have hlist : w.calls ++ [Frame.merging stage false] = [.merging stage false] := by
      rw [hcalls, List.nil_append]
    refine ⟨⟨hr, hn, h.sound.of_calls _, fun f hf => ?_, Or.inr ⟨_, hlist⟩⟩, by
      simp [SDownload.called]⟩
    have hf' : f ∈ w.calls ++ [Frame.merging stage false] := hf
    rw [hlist] at hf'
    obtain rfl := List.mem_singleton.mp hf'
    exact hframe.of_calls _

/-- **A round of a merge**, which is the only call that is suspended. -/
theorem Living.mergeRound (hbuffer : 1 ≤ params.ioBufferSize)
    (h : w.Living source params recovered) {stage : MergeStage} {cleanup : Bool}
    (hlist : w.calls = [.merging stage cleanup]) (ok : Bool)
    (hr : (resumed 0 (w.mergeRound params stage cleanup ok)).1.Registered)
    (hn : (resumed 0 (w.mergeRound params stage cleanup ok)).1.Named params recovered) :
    (resumed 0 (w.mergeRound params stage cleanup ok)).1.Living source params recovered ∧
      ∀ reply, ⟨.mergeChunks, reply⟩ ∈ (resumed 0 (w.mergeRound params stage cleanup ok)).2 →
        (resumed 0 (w.mergeRound params stage cleanup ok)).1.MergeOk source params reply := by
  have hframe := h.frames (.merging stage cleanup) (by rw [hlist]; exact List.mem_singleton_self _)
  obtain ⟨files, hsound, ⟨stage', hround, hnext⟩ | ⟨reply, hround, hreply⟩⟩ :=
    mergeRound_sound hbuffer h.named h.sound hframe ok
  · rw [hround] at hr hn ⊢
    have hset : w.calls.set 0 (.merging stage' false) = [.merging stage' false] := by
      rw [hlist, List.set_cons_zero]
    refine ⟨⟨hr, hn, hsound.of_calls _, fun g hg => ?_, Or.inr ⟨_, hset⟩⟩, by
      simp [SDownload.resumed]⟩
    have hg' : g ∈ w.calls.set 0 (.merging stage' false) := hg
    rw [hset] at hg'
    obtain rfl := List.mem_singleton.mp hg'
    exact hnext.of_calls _
  · rw [hround] at hr hn ⊢
    have hnil : w.calls.eraseIdx 0 = [] := by rw [hlist, List.eraseIdx_cons_zero]
    have hnone : ∀ g, g ∉ w.calls.eraseIdx 0 := fun g hg => by
      rw [hnil] at hg
      cases hg
    refine ⟨⟨hr, hn, hsound.of_calls _, fun g hg => absurd hg (hnone g),
      Or.inl fun g hg => absurd hg (hnone g)⟩, fun reply' hmem => ?_⟩
    obtain rfl := (Returned.mk.inj (List.mem_singleton.mp hmem)).2
    exact hreply

/-- **A suspended call goes on.** -/
theorem Living.resume (hbuffer : 1 ≤ params.ioBufferSize) (h : w.Living source params recovered)
    {i : Nat} {ok : Bool} {f : Frame} {result : World × Progress}
    (htasks : KeepsTasks w (.resume i ok)) (hf : w.calls[i]? = some f)
    (hresume : w.resume params f ok = some result) (hr : (resumed i result).1.Registered)
    (hn : (resumed i result).1.Named params recovered) :
    (resumed i result).1.Living source params recovered ∧
      ∀ reply, ⟨.mergeChunks, reply⟩ ∈ (resumed i result).2 →
        (resumed i result).1.MergeOk source params reply := by
  have hmem := List.mem_of_getElem? hf
  cases hmerge : f.isMerge with
  | false =>
      have hkeeps := h.sound.resume h.registered h.named (h.frames f hmem) hmerge
        (fun r j thenDelete hcancel => entryDone_of_keepsTasks htasks hf hcancel) hresume
      obtain ⟨hliving, hnone⟩ := hkeeps.resumed h (h.noMerge hmem hmerge) hr hn
      exact ⟨hliving, fun reply hreply => absurd hreply (hnone reply)⟩
  | true =>
      cases f with
      | merging stage cleanup =>
          have hlist := h.calls_of_merging hmem
          have hlt := (List.getElem?_eq_some_iff.mp hf).1
          rw [hlist] at hlt
          obtain rfl : i = 0 := Nat.lt_one_iff.mp hlt
          obtain rfl := Option.some.inj hresume
          exact h.mergeRound hbuffer hlist ok hr hn
      | _ => cases hmerge

/-- **A task has a turn.** -/
theorem Living.turn (h : w.Living source params recovered) {i : TaskId} {e : TaskEvent}
    (hused : Considerate source params w (.task i e)) (hturn : w.taskStep i e = some w')
    (hr : w'.Registered) (hn : w'.Named params recovered) :
    w'.Living source params recovered := by
  have hev := taskStep_evolves hturn
  cases ht : w.tasks[i]? with
  | none => simp [taskStep, ht] at hturn
  | some t =>
      obtain ⟨d, cb, hd, hput⟩ := downloadTurn ht (h.sound.job i t ht) hturn
      obtain ⟨hallowed, hleaves⟩ := hused t ht
      obtain ⟨hsound, hrecord, hfiles⟩ := h.sound.turn h.registered h.named ht hallowed hleaves
        hd hev hput
      refine ⟨hr, hn, hsound, fun f hf => ?_, ?_⟩
      · rw [hev.calls] at hf
        exact (h.frames f hf).turn h.named h.sound hev ht (DownloadState.not_done_of_step hd)
          hrecord hfiles
      · unfold NoMerge
        rw [hev.calls]
        exact h.alone

/-- **A step of a life** keeps the invariant, and what `merge_chunks` replies is true. -/
theorem Living.step (hsize : params.fileSize = some (source.length : Int))
    (hsource : 0 < source.length) (hbuffer : 1 ≤ params.ioBufferSize)
    (h : w.Living source params recovered) {e : Event} {out : List Returned}
    (hlived : Lived source params w e) (hstep : SDownload.step params w e = some (w', out)) :
    w'.Living source params recovered ∧
      ∀ reply, ⟨.mergeChunks, reply⟩ ∈ out → w'.MergeOk source params reply := by
  obtain ⟨htasks, hnames, hused⟩ := hlived
  have hr := (h.registered.step htasks hstep).1
  have hn := h.named.step hnames hstep
  cases e with
  | startChunk r speed =>
      obtain ⟨hin, hmerge, hdeleting⟩ := hused
      obtain ⟨rfl, rfl⟩ := Prod.mk.inj (Option.some.inj hstep)
      exact ⟨h.startChunk hsize speed hin hmerge hdeleting hr hn, by simp⟩
  | cancelChunk r =>
      obtain ⟨rfl, rfl⟩ := Prod.mk.inj (Option.some.inj hstep)
      obtain ⟨hliving, hnone⟩ := (cancelChunk_sound h.registered h.named h.sound r false).called h
        hused hr hn
      exact ⟨hliving, fun reply hreply => absurd hreply (hnone reply)⟩
  | deleteChunkData r =>
      obtain ⟨rfl, rfl⟩ := Prod.mk.inj (Option.some.inj hstep)
      obtain ⟨hliving, hnone⟩ := (deleteChunkData_sound h.registered h.named h.sound r).called h
        hused hr hn
      exact ⟨hliving, fun reply hreply => absurd hreply (hnone reply)⟩
  | wait timed returnWhen =>
      obtain ⟨rfl, rfl⟩ := Prod.mk.inj (Option.some.inj hstep)
      obtain ⟨hliving, hnone⟩ := (waitForChunks_sound h.sound timed returnWhen).called h hused hr hn
      exact ⟨hliving, fun reply hreply => absurd hreply (hnone reply)⟩
  | mergeChunks cleanup =>
      obtain ⟨rfl, hcalls⟩ := hused
      obtain ⟨rfl, rfl⟩ := Prod.mk.inj (Option.some.inj hstep)
      exact h.mergeChunks hsize hsource hcalls hr hn
  | resume i ok =>
      obtain ⟨f, result, hf, hresume, heq⟩ := step_resume hstep
      rw [show w' = (resumed i result).1 from (congrArg Prod.fst heq).symm] at hr hn ⊢
      rw [show out = (resumed i result).2 from (congrArg Prod.snd heq).symm]
      exact h.resume hbuffer htasks hf hresume hr hn
  | task i e =>
      obtain ⟨hturn, rfl⟩ := step_task hstep
      exact ⟨h.turn hused hturn hr hn, by simp⟩
  | _ => exact hused.elim

end World

/-! ### From one life to the next -/

/-- A front of a range's bytes is all of a shorter range. -/
theorem ChunkRange.InFile.front {r : ChunkRange} {source delivered : Bytes}
    (h : r.InFile source.length) (hfront : delivered <+: r.bytesOf source)
    (hpos : 0 < delivered.length) :
    ChunkRange.InFile source.length ⟨r.start, some (r.start + delivered.length - 1)⟩ ∧
      ChunkRange.bytesOf ⟨r.start, some (r.start + delivered.length - 1)⟩ source = delivered := by
  have hlen := h.length_bytesOf
  have hle := hfront.length_le
  have hstop := h.stop_le
  constructor
  · refine ⟨h.start_nonneg, h.start_lt, fun e he => ?_, fun e he => ?_⟩
    · obtain rfl := Option.some.inj he
      show r.start ≤ r.start + delivered.length - 1
      omega
    · obtain rfl := Option.some.inj he
      show r.start + delivered.length - 1 < (source.length : Int)
      omega
  · have hcount : (r.start + delivered.length - 1 + 1 - r.start).toNat = delivered.length := by
      omega
    have hwhole : delivered.length ≤ (r.stop source.length - r.start).toNat := by omega
    calc ChunkRange.bytesOf ⟨r.start, some (r.start + delivered.length - 1)⟩ source
        = (source.drop r.start.toNat).take delivered.length := by
          rw [ChunkRange.bytesOf, ChunkRange.stop_some, hcount]
      _ = (r.bytesOf source).take delivered.length := by
          rw [ChunkRange.bytesOf, List.take_take, Nat.min_eq_left hwhole]
      _ = delivered := (List.prefix_iff_eq_take.mp hfront).symm

/-- A record that a manager can be given: it is sound, and its file is named after a range with
the same start. -/
structure Recoverable (source : Bytes) (params : ChunkManagerParams) (files : Files)
    (stat : Stats) : Prop where
  sound : SoundRecord source files stat.range stat
  named : ∃ endByte, stat.chunkFileName =
    formatChunkFileName ⟨stat.range.start, endByte⟩ params.fileName

namespace World

variable {source : Bytes} {params : ChunkManagerParams} {files disk : Files}
  {recovered : List Stats} {w : World}

/-- **A life begins** with the invariant. -/
theorem living_init (hnames : (recovered.map (·.chunkFileName)).Nodup)
    (hrecoverable : ∀ stat ∈ recovered, Recoverable source params files stat) :
    (World.init files recovered).Living source params recovered where
  registered := registered_init files recovered
  named := named_init files hnames fun stat hstat => (hrecoverable stat hstat).named
  sound := by
    refine ⟨nofun, nofun, fun r s hs => ?_⟩
    obtain ⟨hlt, rfl⟩ := (registered_init files recovered).stats r s hs
    refine (hrecoverable _ ?_).sound
    exact List.mem_iff_getElem.mpr ⟨s, hlt, (List.getD_eq_getElem _ _ hlt).symm⟩
  frames := fun _ hf => absurd hf List.not_mem_nil
  alone := Or.inl fun _ hf => absurd hf List.not_mem_nil

/-- **A life ends**: what is persisted of its chunks can be given to the next one, where their files
are as they were. -/
theorem Living.recoverable (h : w.Living source params recovered) {minChunkSize : Int}
    {stats : Stats} (hstats : stats ∈ w.chunksStats.values.map w.record)
    (hkept : Persists w.files minChunkSize stats)
    (hread : disk.read stats.chunkFileName = w.files.read stats.chunkFileName) :
    Recoverable source params disk (RecoveryRun.recoveredOf stats) := by
  obtain ⟨s, hs, rfl⟩ := List.mem_map.mp hstats
  obtain ⟨r, hget⟩ := Dict.mem_values_iff.mp hs
  have hentry := h.sound.entry r s hget
  obtain ⟨-, hrange⟩ := h.named.stats r s hget
  obtain ⟨hsize, hpos, -⟩ := hkept
  obtain ⟨delivered, hbytes, hfront, hfile⟩ := hentry.delivered hsize hpos
  obtain ⟨hin, hcontent⟩ := hentry.inFile.front hfront (by omega)
  have hto : (RecoveryRun.recoveredOf (w.record s)).range =
      ⟨r.start, some (r.start + delivered.length - 1)⟩ := by
    rw [RecoveryRun.recoveredOf, hrange, hbytes]
  constructor
  · rw [hto]
    refine ⟨hin, ?_, fun t => Or.inr ⟨delivered, delivered, hbytes, ?_, ?_, List.prefix_rfl⟩,
      fun _ => ?_⟩
    · show some (w.record s).bytesDownloaded = _
      rw [hbytes, ChunkRange.stop_some]
      congr 1
      show (delivered.length : Int) = r.start + delivered.length - 1 + 1 - r.start
      omega
    · rw [hcontent]
    · exact hread.trans hfile
    · rw [hcontent]
      exact hread.trans hfile
  · rcases h.named.named r s hget with hname | ⟨-, endByte, hname⟩
    · exact ⟨_, hname⟩
    · exact ⟨endByte, hname⟩

/-- A chunk is persisted only where its file is on the disk as it was written. -/
theorem Flushed.of_persists {saved : Files} (h : w.Flushed saved) {minChunkSize : Int}
    {stats : Stats} (hstats : stats ∈ w.chunksStats.values.map w.record)
    (hkept : Persists saved minChunkSize stats) :
    saved.read stats.chunkFileName = w.files.read stats.chunkFileName ∧
      Persists w.files minChunkSize stats := by
  obtain ⟨hsize, hrest⟩ := hkept
  have hread : saved.read stats.chunkFileName = w.files.read stats.chunkFileName :=
    (h stats hstats).resolve_right fun hshort => absurd hsize hshort.ne
  refine ⟨hread, ?_, hrest⟩
  rw [sizeOnDisk, ← hread]
  exact hsize

/-- A chunk that was persisted is still there after `save_info`. -/
theorem Living.read_saved (h : w.Living source params recovered) {saved : Files} {fileId : String}
    (hasId : fileId ≠ "") {totalFileSize minChunkSize : Int} {deleteUselessChunks : Bool}
    {now : DateTime} {deletes : String → Bool} {stats : Stats}
    (hstats : stats ∈ w.chunksStats.values.map w.record)
    (hkept : Persists saved minChunkSize stats) :
    (saveInfo jsonCodec saved fileId totalFileSize (w.chunksStats.values.map w.record)
        minChunkSize deleteUselessChunks now deletes).read stats.chunkFileName =
      saved.read stats.chunkFileName := by
  have hnokey : stats.chunkFileName ≠ recoveryKey fileId := by
    obtain ⟨s, hs, rfl⟩ := List.mem_map.mp hstats
    obtain ⟨r, hget⟩ := Dict.mem_values_iff.mp hs
    obtain ⟨r', hname⟩ := h.named.exists_range hget
    rw [hname]
    exact noKey_formatChunkFileName r' params.fileName fileId
  rw [read_saveInfo _ _ hasId _ _ _ _ _ _
    (not_mem_chunksToDelete h.named.records_nodup hstats hkept), if_neg hnokey]

/-- **What is left of a life** can be given to the manager of the next one. -/
theorem Living.reloaded (h : w.Living source params recovered) {recovered' : List Stats}
    (hreloaded : Reloaded w disk recovered') :
    (recovered'.map (·.chunkFileName)).Nodup ∧
      ∀ stat ∈ recovered', Recoverable source params disk stat := by
  cases hreloaded with
  | anew => exact ⟨List.nodup_nil, fun _ hmem => absurd hmem List.not_mem_nil⟩
  | @loaded saved fileId totalFileSize minChunkSize _ now _ info flushed hasId metadata chunks
      load =>
      have hloaded : info.chunksFinished =
          (dtoChunks saved minChunkSize (w.chunksStats.values.map w.record)).filterMap
            (validStats disk) := by
        cases hread : disk.read (recoveryKey fileId) with
        | none =>
            rw [loadInfo_of_missing hread] at load
            cases load
        | some content =>
            obtain rfl := read_saveInfo_key hasId (metadata.symm.trans hread)
            have hjson := loads_dumps ⟨fileId, totalFileSize,
              dtoChunks saved minChunkSize (w.chunksStats.values.map w.record), now⟩
            split at hjson
            · rw [loadInfo_of_read hread hjson] at load
              obtain rfl := Option.some.inj load
              rfl
            · rw [loadInfo_of_garbled hread hjson] at load
              cases load
      rw [hloaded]
      have hsublist := names_validStats_sublist disk
        (dtoChunks saved minChunkSize (w.chunksStats.values.map w.record))
      rw [dtoChunks_eq] at hsublist chunks ⊢
      constructor
      · refine hsublist.nodup ?_
        rw [List.map_map]
        exact (List.filter_sublist.map _).nodup h.named.records_nodup
      · intro stat hstat
        obtain ⟨c, hc, hvalid⟩ := List.mem_filterMap.mp hstat
        have hsame := chunks c hc
        obtain ⟨stats, hfilter, rfl⟩ := List.mem_map.mp hc
        obtain ⟨hstats, hkeeps⟩ := List.mem_filter.mp hfilter
        have hkept := of_decide_eq_true hkeeps
        unfold validStats at hvalid
        split at hvalid
        · rename_i hlong
          obtain rfl := Option.some.inj hvalid
          obtain ⟨hread, hkept'⟩ := flushed.of_persists hstats hkept
          refine h.recoverable hstats hkept' ?_
          rcases hsame with hsame | hshort
          · exact (hsame.trans (h.read_saved hasId hstats hkept)).trans hread
          · exact absurd hlong (Int.not_le.mpr hshort)
        · cases hvalid

end World

end SDownload
