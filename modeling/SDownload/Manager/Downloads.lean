import SDownload.Manager.Evolution
import SDownload.Storage.Assemble

/-!
# SDownload.Manager.Downloads

What a download does to its file.

A `Service` says what the server may send and whether operations may fail.
`DownloadState.Ok` says, for each `await` a download can be at, how the file it has
open and its byte counter agree with what the server has sent so far, and what it
leaves when it ends. A turn keeps it and touches no other file
(`DownloadState.Ok.step`).
-/

namespace SDownload

/-- What a request may be answered with: the bytes sent up to some moment, those of a response
that came to its end, and whether the server or the storage may fail. -/
structure Service where
  sent : Bytes → Prop
  whole : Bytes → Prop
  fails : Prop
  sent_nil : sent []

namespace DownloadState

/-- The turns that a service allows. -/
def Allowed (service : Service) (d : DownloadState) (e : TaskEvent) : Prop :=
  match d.task.phase, e with
  | .receiving _ delivered, .piece data => service.sent (delivered ++ data)
  | .receiving _ delivered, .eof => service.whole delivered
  | _, .fails _ => service.fails
  | _, _ => True

/-- The download's file is the open one and holds `bytes`. -/
structure Holds (d : DownloadState) (file : Handle) (bytes : Bytes) : Prop where
  lookup : d.files.lookup d.stats.chunkFileName = some file.ino
  content : d.files.content file.ino = bytes

/-- The download's file holds bytes with the property, as many as were counted. -/
def Saved (d : DownloadState) (p : Bytes → Prop) : Prop :=
  ∃ bytes, d.files.read d.stats.chunkFileName = some bytes ∧
    d.stats.bytesDownloaded = bytes.length ∧ p bytes

/-- The counter is the expected size, where one is known. -/
def SizeOk (d : DownloadState) : Prop := ∀ n ∈ d.stats.fileSize, d.stats.bytesDownloaded = n

/-- A download at each of its `await`s, and at its end. -/
def PhaseOk (service : Service) (d : DownloadState) : Phase → Prop
  | .created | .opening => d.stats.bytesDownloaded = 0
  | .receiving file delivered =>
      d.Holds file delivered ∧ file.pos = delivered.length ∧
        d.stats.bytesDownloaded = delivered.length ∧ service.sent delivered
  | .writing file delivered chunk =>
      ∃ before, delivered = before ++ chunk ∧ d.Holds file before ∧ file.pos = before.length ∧
        d.stats.bytesDownloaded = delivered.length ∧ service.sent delivered
  | .closing file delivered left =>
      d.files.lookup d.stats.chunkFileName = some file.ino ∧
        d.stats.bytesDownloaded = delivered.length ∧ service.sent delivered ∧
        match left with
        | .returned => d.files.content file.ino = delivered ∧ service.whole delivered
        | .cancelled => service.fails ∨ d.files.content file.ino = delivered
        | .failed _ => service.fails
  | .done .returned => d.stats.status = .completed ∧ d.SizeOk ∧ d.Saved service.whole
  | .done .cancelled =>
      d.stats.status ≠ .completed ∧
        (0 < d.stats.bytesDownloaded → service.fails ∨ d.Saved service.sent)
  | .done (.failed _) =>
      d.stats.status ≠ .completed ∧ (service.fails ∨ ¬ d.SizeOk ∧ d.Saved service.whole)
  | _ => False

/-- The invariant of a download. -/
structure Ok (service : Service) (d : DownloadState) : Prop where
  running : ¬ d.task.Done → d.stats.status = .pending ∨ d.stats.status = .downloading
  phase : d.PhaseOk service d.task.phase

variable {service : Service} {d d' : DownloadState}

theorem not_completed {status : EDownloadStatus} (h : status = .pending ∨ status = .downloading) :
    status ≠ .completed := by
  rcases h with rfl | rfl <;> decide

theorem Holds.read {file : Handle} {bytes : Bytes} (h : d.Holds file bytes) :
    d.files.read d.stats.chunkFileName = some bytes := by
  rw [FileSystem.read_of_lookup h.lookup, h.content]

/-- The two states have the same file and counter. -/
structure SameSaved (d d' : DownloadState) : Prop where
  chunkFileName : d'.stats.chunkFileName = d.stats.chunkFileName
  fileSize : d'.stats.fileSize = d.stats.fileSize
  bytesDownloaded : d'.stats.bytesDownloaded = d.stats.bytesDownloaded
  file : SameFile d.files d'.files d.stats.chunkFileName

theorem SameSaved.holds {file : Handle} {bytes : Bytes} (h : d.SameSaved d')
    (hd : d.Holds file bytes) : d'.Holds file bytes := by
  refine ⟨?_, ?_⟩
  · rw [h.chunkFileName, h.file.lookup]
    exact hd.lookup
  · rw [h.file.content _ hd.lookup]
    exact hd.content

theorem SameSaved.saved {p : Bytes → Prop} (h : d.SameSaved d') (hd : d.Saved p) :
    d'.Saved p := by
  obtain ⟨bytes, hread, hbytes, hp⟩ := hd
  refine ⟨bytes, ?_, h.bytesDownloaded.trans hbytes, hp⟩
  rw [h.chunkFileName, h.file.read]
  exact hread

theorem SameSaved.sizeOk (h : d.SameSaved d') : d'.SizeOk ↔ d.SizeOk := by
  unfold SizeOk
  rw [h.fileSize, h.bytesDownloaded]

/-- What a download is at depends on its file, its counter and its status only. -/
theorem Ok.congr (h : d.Ok service) (hsame : d.SameSaved d') (hphase : d'.task.phase = d.task.phase)
    (hstatus : d'.stats.status = d.stats.status) : d'.Ok service := by
  have hdone : d'.task.Done ↔ d.task.Done := by rw [Task.done_iff, Task.done_iff, hphase]
  refine ⟨fun hlive => hstatus ▸ h.running (hdone.not.mp hlive), ?_⟩
  have hd := h.phase
  rw [hphase]
  cases hp : d.task.phase with
  | created | opening =>
      rw [hp] at hd
      exact hsame.bytesDownloaded.trans hd
  | receiving file delivered =>
      rw [hp] at hd
      obtain ⟨hholds, hpos, hbytes, hsent⟩ := hd
      exact ⟨hsame.holds hholds, hpos, hsame.bytesDownloaded.trans hbytes, hsent⟩
  | writing file delivered chunk =>
      rw [hp] at hd
      obtain ⟨before, hdelivered, hholds, hpos, hbytes, hsent⟩ := hd
      exact ⟨before, hdelivered, hsame.holds hholds, hpos, hsame.bytesDownloaded.trans hbytes,
        hsent⟩
  | closing file delivered left =>
      rw [hp] at hd
      obtain ⟨hlookup, hbytes, hsent, hleft⟩ := hd
      have hcontent := hsame.file.content _ hlookup
      refine ⟨?_, hsame.bytesDownloaded.trans hbytes, hsent, ?_⟩
      · rw [hsame.chunkFileName, hsame.file.lookup]
        exact hlookup
      · cases left with
        | returned => exact ⟨hcontent.trans hleft.1, hleft.2⟩
        | cancelled => exact hleft.imp_right hcontent.trans
        | failed e => exact hleft
  | done r =>
      rw [hp] at hd
      cases r with
      | returned => exact ⟨hstatus.trans hd.1, hsame.sizeOk.mpr hd.2.1, hsame.saved hd.2.2⟩
      | cancelled =>
          refine ⟨hstatus ▸ hd.1, ?_⟩
          rw [hsame.bytesDownloaded]
          exact fun hpos => (hd.2 hpos).imp_right hsame.saved
      | failed e =>
          refine ⟨hstatus ▸ hd.1, ?_⟩
          rw [hsame.sizeOk]
          exact hd.2.imp_right fun hsaved => ⟨hsaved.1, hsame.saved hsaved.2⟩
  | _ =>
      rw [hp] at hd
      exact hd.elim

/-! ### The end of a download -/

theorem finish_returned (hsaved : d.Saved service.whole) : (d.finish .returned).Ok service := by
  have hok : d.SizeOk → DownloadState.Ok service
      { d.enter (.done .returned) with stats := d.stats.setStatus .completed } := fun hsize =>
    ⟨fun hlive => absurd (Task.done_iff.mpr ⟨_, rfl⟩) hlive, rfl, hsize, hsaved⟩
  unfold finish
  dsimp only
  split
  · rename_i expected hexpected
    split
    · rename_i hne
      refine ⟨fun hlive => absurd (Task.done_iff.mpr ⟨_, rfl⟩) hlive, by simp
        [ChunkDownloadStats.setError], Or.inr ⟨fun hsize => hne (hsize expected hexpected), hsaved⟩⟩
    · rename_i heq
      refine hok fun n hn => ?_
      obtain rfl : expected = n := Option.some.inj (hexpected.symm.trans hn)
      exact not_not.mp heq
  · rename_i hnone
    exact hok fun n hn => absurd (hnone.symm.trans hn) (by simp)

theorem finish_cancelled (hstatus : d.stats.status ≠ .completed)
    (hsaved : 0 < d.stats.bytesDownloaded → service.fails ∨ d.Saved service.sent) :
    (d.finish .cancelled).Ok service := by
  refine ⟨fun hlive => absurd (Task.done_iff.mpr ⟨_, rfl⟩) hlive, ?_, ?_⟩
  · unfold finish
    dsimp only
    split
    · split
      · simp [ChunkDownloadStats.setStatus]
      · exact hstatus
    · simp [ChunkDownloadStats.setStatus]
  · have hsame : d.SameSaved (d.finish .cancelled) := by
      have hstats := d.finish_stats .cancelled
      refine ⟨hstats.chunkFileName, hstats.fileSize, ?_, ?_⟩
      · unfold finish
        dsimp only
        split
        · split <;> rfl
        · rfl
      · rw [finish_files]
        exact .refl _ _
    rw [hsame.bytesDownloaded]
    exact fun hpos => (hsaved hpos).imp_right hsame.saved

theorem finish_failed {e : TaskError} (hfails : service.fails) :
    (d.finish (.failed e)).Ok service :=
  ⟨fun hlive => absurd (Task.done_iff.mpr ⟨_, rfl⟩) hlive,
    by simp [finish, enter, ChunkDownloadStats.setError], Or.inl hfails⟩

/-! ### A turn -/

/-- No file but the download's own has changed. -/
def OthersSame (d d' : DownloadState) : Prop :=
  ∀ name, name ≠ d.stats.chunkFileName → SameFile d.files d'.files name

theorem openFile_others (d : DownloadState) : d.OthersSame d.openFile.2 :=
  fun _ hne => sameFile_openWrite hne

theorem leave_others {file : Handle} (d : DownloadState) (effect : Option Bytes)
    (hlookup : d.files.lookup d.stats.chunkFileName = some file.ino) :
    d.OthersSame (d.leave file effect) := by
  intro name hne
  cases effect with
  | none => exact .refl _ _
  | some bytes => exact sameFile_overwrite bytes hlookup hne

/-- Writing a piece at the end of the file. -/
theorem Holds.write {file : Handle} {before : Bytes} (h : d.Holds file before)
    (hpos : file.pos = before.length) (chunk : Bytes) :
    (d.write file chunk).Holds file (before ++ chunk) ∧ d.OthersSame (d.write file chunk) := by
  refine ⟨⟨h.lookup, ?_⟩, fun _ hne => sameFile_overwrite _ h.lookup hne⟩
  show (d.files.overwrite file.ino _).content file.ino = _
  rw [FileSystem.content_overwrite_self _ (FileSystem.lookup_lt h.lookup), h.content, hpos,
    writeBytes_end]

theorem addQtBytesDownloaded_fields (s : Stats) (n : Int) :
    (s.addQtBytesDownloaded n).1.bytesDownloaded = s.bytesDownloaded + n ∧
      (s.addQtBytesDownloaded n).1.status = s.status ∧
        (s.addQtBytesDownloaded n).1.limitQtBytes = s.limitQtBytes := by
  unfold ChunkDownloadStats.addQtBytesDownloaded
  dsimp only
  split
  · split <;> exact ⟨rfl, rfl, rfl⟩
  · exact ⟨rfl, rfl, rfl⟩

/-- A piece has come, and is counted before it is written. -/
theorem received {file : Handle} {delivered data : Bytes} {stats : Stats}
    (hrecord : SameRecord d.stats stats)
    (hstatus : stats.status = .pending ∨ stats.status = .downloading)
    (hcount : stats.bytesDownloaded = d.stats.bytesDownloaded + data.length)
    (hholds : d.Holds file delivered) (hpos : file.pos = delivered.length)
    (hbytes : d.stats.bytesDownloaded = delivered.length)
    (hsent : service.sent (delivered ++ data)) :
    Ok service { d.enter (.writing file (delivered ++ data) data) with stats } := by
  refine ⟨fun _ => hstatus, delivered, rfl, ⟨?_, hholds.content⟩, hpos, ?_, hsent⟩
  · show d.files.lookup stats.chunkFileName = _
    rw [hrecord.chunkFileName]
    exact hholds.lookup
  · show stats.bytesDownloaded = _
    rw [hcount, hbytes, List.length_append, Int.natCast_add]

/-- A turn that no cancellation waits for keeps the invariant. -/
theorem Ok.run {e : TaskEvent} {cb : Option StopCallback} (h : d.Ok service)
    (hallowed : d.Allowed service e) (hrun : d.run e = some (d', cb)) :
    d'.Ok service ∧ d.OthersSame d' := by
  obtain ⟨hrunning, hok⟩ := h
  unfold DownloadState.Allowed at hallowed
  unfold DownloadState.run at hrun
  split at hrun <;> first | cases hrun; done | rename_i hphase
  all_goals
    rw [hphase] at hok
    have hstatus := hrunning (by rw [Task.done_iff, hphase]; simp)
    obtain ⟨rfl, -⟩ := Prod.mk.inj (Option.some.inj hrun)
  -- in the order of `DownloadState.run`
  · exact ⟨⟨fun _ => Or.inr rfl, hok⟩, fun _ _ => .refl _ _⟩
  · -- the file is open and empty
    refine ⟨⟨fun _ => hstatus, ⟨?_, ?_⟩, rfl, hok, service.sent_nil⟩, d.openFile_others⟩
    · exact FileSystem.lookup_openWrite_self
    · exact FileSystem.content_openWrite_self
  · rename_i effect
    simp only [hphase] at hallowed
    refine ⟨finish_failed hallowed, fun name hne => ?_⟩
    rw [finish_files]
    split
    · exact d.openFile_others name hne
    · exact .refl _ _
  · -- a piece is counted before it is written
    rename_i file delivered data
    simp only [hphase] at hallowed
    obtain ⟨hholds, hpos, hbytes, -⟩ := hok
    obtain ⟨hcount, hsame, -⟩ := addQtBytesDownloaded_fields d.stats data.length
    have hnew := hstatus
    rw [← hsame] at hnew
    exact ⟨received (SameRecord.addQtBytesDownloaded _ _) hnew hcount hholds hpos hbytes hallowed,
      fun _ _ => .refl _ _⟩
  · simp only [hphase] at hallowed
    obtain ⟨hholds, -, hbytes, hsent⟩ := hok
    exact ⟨⟨fun _ => hstatus, hholds.lookup, hbytes, hsent, hholds.content, hallowed⟩,
      fun _ _ => .refl _ _⟩
  · simp only [hphase] at hallowed
    obtain ⟨hholds, -, hbytes, hsent⟩ := hok
    exact ⟨⟨fun _ => hstatus, hholds.lookup, hbytes, hsent, hallowed⟩, fun _ _ => .refl _ _⟩
  · rename_i file delivered chunk
    obtain ⟨before, rfl, hholds, hpos, hbytes, hsent⟩ := hok
    obtain ⟨hwritten, hothers⟩ := hholds.write hpos chunk
    refine ⟨⟨fun _ => hstatus, ⟨hwritten.lookup, hwritten.content⟩, ?_, hbytes, hsent⟩, hothers⟩
    show file.pos + chunk.length = _
    rw [hpos, List.length_append]
  · -- a failed write may leave anything in its own file
    rename_i file delivered chunk effect
    simp only [hphase] at hallowed
    obtain ⟨before, -, hholds, -, hbytes, hsent⟩ := hok
    refine ⟨⟨fun _ => ?_, ?_, ?_, hsent, hallowed⟩, d.leave_others effect hholds.lookup⟩
    · cases effect <;> exact hstatus
    · cases effect <;> exact hholds.lookup
    · cases effect <;> exact hbytes
  · -- the file is closed, and the task ends the way it left the body
    rename_i file delivered left
    obtain ⟨hlookup, hbytes, hsent, hleft⟩ := hok
    have hothers : d.OthersSame (d.finish left) := fun name _ => by
      rw [finish_files]
      exact .refl _ _
    have hsaved : ∀ {p : Bytes → Prop}, d.files.content file.ino = delivered → p delivered →
        d.Saved p := fun hcontent hp =>
      ⟨delivered, (Holds.mk hlookup hcontent).read, hbytes, hp⟩
    cases left with
    | returned => exact ⟨finish_returned (hsaved hleft.1 hleft.2), hothers⟩
    | cancelled =>
        exact ⟨finish_cancelled (not_completed hstatus) fun _ => hleft.imp_right fun hcontent =>
          hsaved hcontent hsent, hothers⟩
    | failed e => exact ⟨finish_failed hleft, hothers⟩
  · rename_i file delivered left effect
    simp only [hphase] at hallowed
    refine ⟨finish_failed hallowed, fun name hne => ?_⟩
    rw [finish_files]
    exact d.leave_others effect hok.1 name hne

/-- So does the turn in which a cancellation arrives. -/
theorem Ok.cancel {effect : Option Bytes} (h : d.Ok service) (hcancel : d.cancel effect = some d') :
    d'.Ok service ∧ d.OthersSame d' := by
  obtain ⟨hrunning, hok⟩ := h
  unfold DownloadState.cancel at hcancel
  dsimp only at hcancel
  split at hcancel <;> first | cases hcancel; done | rename_i hphase
  all_goals
    rw [hphase] at hok
    have hstatus := hrunning (by rw [Task.done_iff, hphase]; simp)
    obtain rfl := Option.some.inj hcancel
  · refine ⟨⟨fun _ => hstatus, not_completed hstatus, fun hpos => ?_⟩, fun _ _ => .refl _ _⟩
    exact absurd hpos (not_lt.mpr (le_of_eq hok))
  · refine ⟨finish_cancelled ?_ fun hpos => ?_, fun name hne => ?_⟩
    · split <;> exact not_completed hstatus
    · refine absurd hpos (not_lt.mpr (le_of_eq ?_))
      split <;> exact hok
    · rw [finish_files]
      split
      · exact openFile_others _ name hne
      · exact .refl _ _
  · obtain ⟨hholds, -, hbytes, hsent⟩ := hok
    exact ⟨⟨fun _ => hstatus, hholds.lookup, hbytes, hsent, Or.inr hholds.content⟩,
      fun _ _ => .refl _ _⟩
  · -- the shielded write is done before the file is closed
    rename_i file delivered chunk
    obtain ⟨before, rfl, hholds, hpos, hbytes, hsent⟩ := hok
    obtain ⟨hwritten, hothers⟩ := hholds.write hpos chunk
    exact ⟨⟨fun _ => hstatus, hwritten.lookup, hbytes, hsent, Or.inr hwritten.content⟩, hothers⟩
  · obtain ⟨hlookup, hbytes, hsent, hleft⟩ := hok
    refine ⟨⟨fun _ => hstatus, hlookup, hbytes, hsent, ?_⟩, fun _ _ => .refl _ _⟩
    rename_i left
    cases left with
    | returned => exact Or.inr hleft.1
    | cancelled => exact hleft
    | failed e => exact Or.inl hleft

/-- **A turn of a download** keeps the invariant, and touches no other file. -/
theorem Ok.step {e : TaskEvent} {cb : Option StopCallback} (h : d.Ok service)
    (hallowed : d.Allowed service e) (hstep : d.step e = some (d', cb)) :
    d'.Ok service ∧ d.OthersSame d' := by
  unfold DownloadState.step at hstep
  split at hstep
  · obtain ⟨d'', hcancel, heq⟩ := Option.map_eq_some_iff.mp hstep
    obtain ⟨rfl, -⟩ := Prod.mk.inj heq
    exact h.cancel hcancel
  · cases hstep
  · exact h.run hallowed hstep

/-- A download that is done has no turn. -/
theorem not_done_of_step {e : TaskEvent} {cb : Option StopCallback}
    (hstep : d.step e = some (d', cb)) : ¬ d.task.Done := by
  intro hdone
  obtain ⟨r, hr⟩ := Task.done_iff.mp hdone
  unfold DownloadState.step at hstep
  split at hstep
  · simp [DownloadState.cancel, hr] at hstep
  · cases hstep
  · simp [DownloadState.run, hr] at hstep

/-- A download is completed when its file holds a response as long as was expected. -/
theorem Ok.of_completed (h : d.Ok service) (hstatus : d.stats.status = .completed) :
    d.SizeOk ∧ d.Saved service.whole := by
  have hdone : d.task.Done := by
    by_contra hlive
    exact not_completed (h.running hlive) hstatus
  obtain ⟨r, hr⟩ := Task.done_iff.mp hdone
  have hok := h.phase
  rw [hr] at hok
  cases r with
  | returned => exact hok.2
  | cancelled => exact absurd hstatus hok.1
  | failed e => exact absurd hstatus hok.1

end DownloadState

/-! ### In the world -/

/-- The same task, perhaps asked to stop. -/
def Task.Asked (t t' : Task) : Prop := ∃ c, t' = { t with cancelRequested := c }

theorem Task.Asked.refl (t : Task) : t.Asked t := ⟨t.cancelRequested, rfl⟩

theorem Task.Asked.done_iff {t t' : Task} (h : t.Asked t') : t'.Done ↔ t.Done := by
  obtain ⟨c, rfl⟩ := h
  exact Iff.rfl

namespace World

/-- Some tasks were asked to stop; neither the files nor a record has changed. -/
structure Asks (w w' : World) : Prop where
  files : w'.files = w.files
  stats : w'.stats = w.stats
  task : ∀ (i : TaskId) (t' : Task), w'.tasks[i]? = some t' → ∃ t, w.tasks[i]? = some t ∧ t.Asked t'

theorem Asks.refl (w : World) : w.Asks w := ⟨rfl, rfl, fun _ t ht => ⟨t, ht, .refl t⟩⟩

theorem requestCancel_asked (t : Task) : t.Asked (requestCancel t) := by
  unfold requestCancel
  split
  · exact .refl t
  · exact ⟨true, rfl⟩

theorem cancelTask_asks (w : World) (i : TaskId) : w.Asks (w.cancelTask i) where
  files := rfl
  stats := rfl
  task := by
    intro j t' ht'
    rw [getElem?_cancelTask] at ht'
    obtain ⟨t, ht, rfl⟩ := Option.map_eq_some_iff.mp ht'
    refine ⟨t, ht, ?_⟩
    split
    · exact requestCancel_asked t
    · exact .refl t

theorem stopPredecessor_asks (w : World) (cb : StopCallback) : w.Asks (w.stopPredecessor cb) := by
  unfold stopPredecessor
  split
  · exact .refl w
  · split
    · exact cancelTask_asks _ _
    · exact .refl w

/-- The world after a turn that left task `i` as `d`, before anybody is asked to stop. -/
def putDownload (w : World) (i : TaskId) (d : DownloadState) : World :=
  { w with files := d.files, tasks := w.tasks.set i d.task }.setRecord d.task.stats d.stats

theorem record_putDownload (w : World) (i : TaskId) (d : DownloadState) (s : StatsId) :
    (w.putDownload i d).record s =
      if s = d.task.stats ∧ d.task.stats < w.stats.length then d.stats else w.record s :=
  record_setRecord _ _ _ _

/-- A turn of a download is a turn of the coroutine, put back into the world. -/
theorem taskStep_download {w w' : World} {i : TaskId} {t : Task} {e : TaskEvent}
    (ht : w.tasks[i]? = some t) (hjob : t.job = .download) (hstep : w.taskStep i e = some w') :
    ∃ d cb, DownloadState.step ⟨t, w.record t.stats, w.files⟩ e = some (d, cb) ∧
      w' = (cb.elim (w.putDownload i d) (w.putDownload i d).stopPredecessor) := by
  unfold taskStep at hstep
  simp only [ht, hjob] at hstep
  split at hstep
  · cases hstep
  · rename_i d cb hturn
    refine ⟨d, cb, hturn, ?_⟩
    have hstats := (DownloadState.step_later hturn).task.stats
    unfold putDownload
    rw [hstats]
    exact (Option.some.inj hstep).symm

/-- What a turn of a download leaves. -/
structure DownloadTurn (w w' : World) (i : TaskId) (d : DownloadState) : Prop where
  files : w'.files = d.files
  self : ∀ t, w'.tasks[i]? = some t → d.task.Asked t
  other : ∀ (j : TaskId) (t' : Task), j ≠ i → w'.tasks[j]? = some t' →
    ∃ t, w.tasks[j]? = some t ∧ t.Asked t'
  record : ∀ s, w'.record s =
    if s = d.task.stats ∧ d.task.stats < w.stats.length then d.stats else w.record s

theorem downloadTurn {w w' : World} {i : TaskId} {t : Task} {e : TaskEvent}
    (ht : w.tasks[i]? = some t) (hjob : t.job = .download) (hstep : w.taskStep i e = some w') :
    ∃ d cb, DownloadState.step ⟨t, w.record t.stats, w.files⟩ e = some (d, cb) ∧
      w.DownloadTurn w' i d := by
  obtain ⟨d, cb, hturn, rfl⟩ := taskStep_download ht hjob hstep
  refine ⟨d, cb, hturn, ?_⟩
  have hlt : i < w.tasks.length := (List.getElem?_eq_some_iff.mp ht).1
  have hput : (w.putDownload i d).tasks = w.tasks.set i d.task := rfl
  have hasks : (w.putDownload i d).Asks
      (cb.elim (w.putDownload i d) (w.putDownload i d).stopPredecessor) := by
    cases cb with
    | none => exact .refl _
    | some cb => exact stopPredecessor_asks _ cb
  constructor
  · exact hasks.files
  · intro t' ht'
    obtain ⟨t'', ht'', hasked⟩ := hasks.task i t' ht'
    rw [hput, List.getElem?_set_self hlt] at ht''
    exact Option.some.inj ht'' ▸ hasked
  · intro j t' hne ht'
    obtain ⟨t'', ht'', hasked⟩ := hasks.task j t' ht'
    rw [hput, List.getElem?_set_ne (Ne.symm hne)] at ht''
    exact ⟨t'', ht'', hasked⟩
  · intro s
    have hset := w.record_putDownload i d s
    unfold record at hset ⊢
    rw [hasks.stats]
    exact hset

end World

end SDownload
