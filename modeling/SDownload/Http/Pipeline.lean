import SDownload.Http.FileInfo
import SDownload.Manager.Inversion
import SDownload.Manager.Downloads
import SDownload.Manager.Waits
import SDownload.Strategies.Runs

/-!
# SDownload.Http.Pipeline

A whole download, from the first reply to the merge: `get_file_info`, the manager
and the strategy built from what it says, `on_start` with one slot, `start_chunk`
on what that issues, the wait, `merge_chunks`.

The stages do not agree on how an unknown size is written: `get_file_info` says
zero, the strategy takes zero for unknown and asks for one open range, and the
manager, for which only `None` is unknown, then expects that range to be empty.
So a body that is not empty ends in an `IntegrityError` and nothing is left to
merge (`undeclared_never_downloads`).
-/

namespace SDownload

/-- What a download is made with: the library's dates, the reply to the first request, and the
settings. -/
structure Pipeline (δ : Type) where
  parsedateToDatetime : String → Option δ
  now : δ
  url : ParseResult
  head : ResponseHead
  maxConn : Int
  useChunkedDownload : Bool
  cache : Option (List ChunkRange)
  ioBufferSize : Nat
  files : Files

namespace Pipeline

variable {δ : Type} (p : Pipeline δ)

/-- What `get_file_info` makes of the reply. -/
def info : Except FileInfoError (ResourceInfo δ) :=
  getFileInfo p.parsedateToDatetime p.now p.url p.head

/-- The manager's parameters, the size as returned. -/
def managerParams (info : ResourceInfo δ) : ChunkManagerParams where
  fileName := info.fileName
  fileSize := some info.fileSize
  ioBufferSize := p.ioBufferSize

/-- `SequentialChunkStrategy.on_start` with one slot, the size as returned. -/
def issued (info : ResourceInfo δ) : List StartChunkAction :=
  ((SequentialChunkStrategy.init p.maxConn p.useChunkedDownload p.cache).onStart
    ⟨info.fileSize⟩ (Dict.empty : Dict ChunkRange Stats) 1).1

/-- `start_chunk` on every issued range. -/
def started (info : ResourceInfo δ) : World :=
  (p.issued info).foldl
    (fun w action => w.startChunk (p.managerParams info) action.range action.targetSpeedBps)
    (World.init p.files [])

/-- The turns of a download whose body comes in these pieces, when nothing fails. -/
def Delivers (pieces : List Bytes) : Phase → TaskEvent → Prop
  | .receiving _ delivered, .piece data =>
      ∃ k < pieces.length, pieces[k]? = some data ∧ delivered = (pieces.take k).flatten
  | .receiving _ delivered, .eof => delivered = pieces.flatten
  | _, .fails _ => False
  | _, _ => True

instance (pieces : List Bytes) (phase : Phase) (e : TaskEvent) :
    Decidable (Delivers pieces phase e) := by
  delta Delivers
  induction phase using Phase.casesOn <;> induction e using TaskEvent.casesOn <;> infer_instance

/-- The steps from there on: the body comes in these pieces, and once the wait is over and every
task has ended the chunks are merged. -/
def Pipes (pieces : List Bytes) (w : World) : Event → Prop
  | .wait timed returnWhen => timed = false ∧ returnWhen = .allCompleted ∧ w.calls = []
  | .mergeChunks _ => w.calls = [] ∧ ∀ t ∈ w.tasks, t.Done
  | .resume _ ok => ok = true
  | .task i e => ∀ t ∈ w.tasks[i]?, Delivers pieces t.phase e
  | _ => False

instance (pieces : List Bytes) (w : World) (e : Event) : Decidable (Pipes pieces w e) := by
  delta Pipes
  induction e using Event.casesOn <;> infer_instance

/-- The download comes to its end with `merge_chunks` replying so. -/
def Ends (pieces : List Bytes) (w : World) (reply : Reply) : Prop :=
  ∃ info outs, p.info = .ok info ∧
    Produces (step (p.managerParams info)) (Pipes pieces) (p.started info) w outs ∧
      ⟨.mergeChunks, reply⟩ ∈ outs

/-- The download ends with the body in a file. -/
def Downloads (pieces : List Bytes) : Prop :=
  ∃ w fileName, p.Ends pieces w (.merged fileName) ∧
    w.files.read fileName = some pieces.flatten

variable {p}

/-! ### What is started -/

/-- For a size of zero, one open range that is expected to be empty. -/
theorem started_of_zero {info : ResourceInfo δ} (hsize : info.fileSize = 0) :
    p.started info =
      (World.init p.files []).startChunk (p.managerParams info) ⟨0, none⟩ none := by
  have hplan : (SequentialChunkStrategy.init p.maxConn p.useChunkedDownload
      p.cache).calcInitialRanges info.fileSize = [⟨0, none⟩] :=
    SequentialChunkStrategy.calcInitialRanges_open _ _ (Or.inr hsize.le)
  have hrun := @SequentialChunkStrategy.run_fresh_eq StopCallback p.maxConn
    p.useChunkedDownload p.cache ⟨info.fileSize⟩ 1 []
  rw [hplan] at hrun
  have hissued : p.issued info = [{ range := ⟨0, none⟩ }] := by
    simpa [DownloadStrategyProtocol.run, DownloadStrategyProtocol.updates,
      SequentialChunkStrategy.strategy, startActions, issued] using hrun
  rw [started, hissued]
  rfl

end Pipeline

/-! ### The invariant -/

/-- A server that sends this body, whatever it is asked for. -/
def bodyService (body : Bytes) : Service where
  sent bytes := bytes <+: body
  whole bytes := bytes = body
  fails := False
  sent_nil := List.nil_prefix

theorem Pipeline.Delivers.allowed {pieces : List Bytes} {d : DownloadState} {e : TaskEvent}
    (h : Delivers pieces d.task.phase e) : d.Allowed (bodyService pieces.flatten) e := by
  unfold DownloadState.Allowed
  unfold Delivers at h
  split
  · rename_i file delivered data hphase
    rw [hphase] at h
    obtain ⟨k, -, hk, rfl⟩ := h
    have htake : pieces.take (k + 1) = pieces.take k ++ [data] := by
      rw [List.take_add_one, hk]
      rfl
    refine ⟨(pieces.drop (k + 1)).flatten, ?_⟩
    rw [show (pieces.take k).flatten ++ data = (pieces.take (k + 1)).flatten by
      rw [htake, List.flatten_concat], ← List.flatten_append, List.take_append_drop]
  · rename_i file delivered hphase
    rw [hphase] at h
    exact h
  · exact (show ¬ Delivers pieces d.task.phase (.fails _) by
      cases d.task.phase <;> exact not_false) h
  · trivial

namespace World

variable {body : Bytes} {params : ChunkManagerParams} {w w' : World}

/-- One download that is expected to be empty, and calls that wait for it. -/
structure Piping (body : Bytes) (w : World) : Prop where
  numTasks : w.tasks.length = 1
  numStats : w.stats.length = 1
  download : ∀ t ∈ w.tasks[0]?, t.job = .download ∧ t.stats = 0 ∧
    DownloadState.Ok (bodyService body) ⟨t, w.record 0, w.files⟩
  fileSize : (w.record 0).fileSize = some 0
  table : ∀ s ∈ w.chunksStats.values, s = 0
  calls : ∀ f ∈ w.calls, f.ofWait = true

/-- A download that is expected to be empty does not complete over a body that is not. -/
theorem Piping.not_completed (h : w.Piping body) (hbody : body ≠ []) :
    (w.record 0).status ≠ .completed := by
  intro hstatus
  have hlt : 0 < w.tasks.length := by rw [h.numTasks]; exact Nat.one_pos
  obtain ⟨-, -, hok⟩ := h.download _ (List.getElem?_eq_getElem hlt)
  obtain ⟨hsize, bytes, -, hbytes, hwhole⟩ := hok.of_completed hstatus
  have hempty : (w.record 0).bytesDownloaded = 0 := hsize 0 h.fileSize
  have hlen : bytes.length = 0 := Int.natCast_inj.mp (hbytes.symm.trans hempty)
  exact hbody (hwhole ▸ List.eq_nil_of_length_eq_zero hlen)

/-- So there is nothing to merge. -/
theorem Piping.mergeChunks (h : w.Piping body) (hbody : body ≠ []) (cleanup : Bool) :
    w.mergeChunks params cleanup =
      (w, .returned [⟨.mergeChunks, .raised (.reconstruction .noCompletedChunks)⟩]) := by
  have hnone : (w.chunksStats.values.map w.record).filter (fun s => s.status = .completed) =
      [] := by
    rw [List.filter_eq_nil_iff]
    intro s hs
    obtain ⟨i, hi, rfl⟩ := List.mem_map.mp hs
    rw [h.table i hi, decide_eq_true_eq]
    exact h.not_completed hbody
  unfold World.mergeChunks mergeConfigs
  rw [hnone]
  rfl

/-- A wait looks at the task. -/
theorem Piping.collects (h : w.Piping body) (hcollects : w.Collects w')
    (hcalls : ∀ f ∈ w'.calls, f.ofWait = true) : w'.Piping body := by
  have hrecord : ∀ s, w'.record s = w.record s := fun s => by
    rw [record, record, hcollects.stats]
  refine ⟨?_, ?_, ?_, ?_, ?_, hcalls⟩
  · rw [hcollects.tasks, h.numTasks]
  · rw [hcollects.stats, h.numStats]
  · rw [hcollects.tasks, hrecord, hcollects.files]
    exact h.download
  · rw [hrecord]
    exact h.fileSize
  · rw [hcollects.chunksStats]
    exact h.table

/-- **A turn of the download** keeps the invariant. -/
theorem Piping.turn {pieces : List Bytes} {i : TaskId} {e : TaskEvent}
    (h : w.Piping pieces.flatten) (hok : ∀ t ∈ w.tasks[i]?, Pipeline.Delivers pieces t.phase e)
    (hstep : w.taskStep i e = some w') : w'.Piping pieces.flatten := by
  have hev := taskStep_evolves hstep
  cases hi : w.tasks[i]? with
  | none =>
      unfold taskStep at hstep
      rw [hi] at hstep
      cases hstep
  | some t =>
  obtain rfl : i = 0 := by
    have hlt := (List.getElem?_eq_some_iff.mp hi).1
    rw [h.numTasks] at hlt
    exact Nat.lt_one_iff.mp hlt
  obtain ⟨hjob, hstats, hdownload⟩ := h.download t hi
  obtain ⟨d, cb, hturn, hleft⟩ := downloadTurn hi hjob hstep
  rw [hstats] at hturn
  obtain ⟨hdownload', -⟩ := hdownload.step (hok t hi).allowed hturn
  have hlater := DownloadState.step_later hturn
  have hstats' : d.task.stats = 0 := hlater.task.stats.trans hstats
  have hrecord : w'.record 0 = d.stats := by
    rw [hleft.record, if_pos ⟨hstats'.symm, by rw [hstats', h.numStats]; exact Nat.one_pos⟩]
  refine ⟨by rw [hev.numTasks, h.numTasks], by rw [hev.numStats, h.numStats], fun t' ht' => ?_,
    ?_, ?_, ?_⟩
  · obtain ⟨c, rfl⟩ := hleft.self t' ht'
    refine ⟨hlater.task.job.trans hjob, hstats', ?_⟩
    rw [hrecord, hleft.files]
    exact hdownload'.congr ⟨rfl, rfl, rfl, .refl _ _⟩ rfl rfl
  · rw [(hev.record 0).fileSize]
    exact h.fileSize
  · rw [hev.chunksStats]
    exact h.table
  · rw [hev.calls]
    exact h.calls

/-- **A step of the pipeline** keeps the invariant; when it is the merge, there was nothing to
merge. -/
theorem Piping.step {pieces : List Bytes} {e : Event} {out : List Returned}
    (hbody : pieces.flatten ≠ []) (h : w.Piping pieces.flatten) (hok : Pipeline.Pipes pieces w e)
    (hstep : step params w e = some (w', out)) :
    w'.Piping pieces.flatten ∧ ∀ reply, (⟨.mergeChunks, reply⟩ : Returned) ∈ out →
      reply = .raised (.reconstruction .noCompletedChunks) := by
  cases e with
  | wait timed returnWhen =>
      obtain ⟨rfl, rfl⟩ := Prod.mk.inj (Option.some.inj hstep)
      have hturn := waitForChunks_turn w timed returnWhen
      obtain ⟨hcollects, hcalls⟩ := (hturn.ok.step h.calls 0).1
      exact ⟨h.collects hcollects hcalls, fun reply hmem => nomatch (hturn.replies 0).1 _ hmem⟩
  | mergeChunks cleanup =>
      have hcalled : SDownload.called (w.mergeChunks params cleanup) = (w', out) :=
        Option.some.inj hstep
      rw [h.mergeChunks hbody] at hcalled
      obtain ⟨rfl, rfl⟩ := Prod.mk.inj hcalled
      exact ⟨h, fun reply hmem => by simpa using hmem⟩
  | resume i ok =>
      obtain ⟨f, result, hf, hresume, heq⟩ := step_resume hstep
      have hturn := resume_turn (h.calls f (List.mem_of_getElem? hf)) hresume
      obtain ⟨hcollects, hcalls⟩ := (hturn.ok.step h.calls i).2
      have hreplies := (hturn.replies i).2
      rw [heq] at hcollects hcalls hreplies
      exact ⟨h.collects hcollects hcalls, fun reply hmem => nomatch hreplies _ hmem⟩
  | task i e =>
      obtain ⟨hturn, rfl⟩ := step_task hstep
      exact ⟨h.turn hok hturn, fun _ => nofun⟩
  | _ => exact hok.elim

/-- The pipeline and what its calls have returned so far. -/
structure NothingMerged (body : Bytes) (w : World) (outs : List Returned) : Prop where
  piping : w.Piping body
  replies : ∀ reply, (⟨.mergeChunks, reply⟩ : Returned) ∈ outs →
    reply = .raised (.reconstruction .noCompletedChunks)

theorem NothingMerged.step {pieces : List Bytes} {e : Event} {outs out : List Returned}
    (h : w.NothingMerged pieces.flatten outs) (hbody : pieces.flatten ≠ [])
    (hok : Pipeline.Pipes pieces w e) (hstep : step params w e = some (w', out)) :
    w'.NothingMerged pieces.flatten (outs ++ out) := by
  obtain ⟨hw, hout⟩ := h.piping.step hbody hok hstep
  refine ⟨hw, fun reply hmem => ?_⟩
  rcases List.mem_append.mp hmem with hmem | hmem
  · exact h.replies reply hmem
  · exact hout reply hmem

/-- What `start_chunk` on the open range of a file of no bytes leaves. -/
theorem piping_started (files : Files) (hsize : params.fileSize = some 0) :
    ((World.init files []).startChunk params ⟨0, none⟩ none).Piping body := by
  refine ⟨rfl, rfl, fun t ht => ?_, ?_, fun s hs => ?_, nofun⟩
  · obtain rfl := Option.some.inj ht
    exact ⟨rfl, rfl, fun _ => Or.inl rfl, rfl⟩
  · show (getEffectiveRangeInfo ⟨0, none⟩ params.fileSize).2 = some 0
    rw [hsize]
    rfl
  · exact List.mem_singleton.mp hs

end World

namespace Pipeline

variable {δ : Type} {p : Pipeline δ}

/-- **What is served without a size is not merged**: in every run nothing is completed, and the
merge finds no completed chunk. -/
theorem nothingMerged_of_undeclared (h : p.head.Undeclared) {pieces : List Bytes}
    (hbody : pieces.flatten ≠ []) {info : ResourceInfo δ} (hinfo : p.info = .ok info) {w : World}
    {outs : List Returned}
    (hrun : Produces (step (p.managerParams info)) (Pipes pieces) (p.started info) w outs) :
    w.NothingMerged pieces.flatten outs := by
  have hsize := (getFileInfo_of_undeclared h hinfo).1
  have hstart : (p.started info).NothingMerged pieces.flatten [] := by
    rw [started_of_zero hsize]
    exact ⟨World.piping_started p.files (congrArg some hsize), nofun⟩
  exact hrun.invariant hstart fun hinv hok hstep => hinv.step hbody hok hstep

end Pipeline

/-! ### There is such a run, for every split -/

namespace World

variable {params : ChunkManagerParams} {w : World} {phase : Phase}

/-- The one download stands there, and `wait` waits for it. -/
structure Awaited (w : World) (phase : Phase) : Prop where
  task : ∃ t, w.tasks = [t] ∧ t.job = .download ∧ t.stats = 0 ∧ t.cancelRequested = false ∧
    t.phase = phase
  numStats : w.stats.length = 1
  limited : (w.record 0).limited = false
  calls : w.calls = [.waiting [0] false .allCompleted]

/-- A turn that the coroutine has at that phase is a step of the run. -/
theorem Awaited.turn {start : World} {pieces : List Bytes} {outs : List Returned} (e : TaskEvent)
    (next : Phase → Prop) (h : w.Awaited phase) (hdelivers : Pipeline.Delivers pieces phase e)
    (hturn : ∀ d : DownloadState, d.task.phase = phase → d.stats.limited = false →
      ∃ d', d.run e = some (d', none) ∧ next d'.task.phase ∧ d'.stats.limited = false ∧
        d'.task.cancelRequested = d.task.cancelRequested)
    (hrun : Produces (SDownload.step params) (Pipeline.Pipes pieces) start w outs) :
    ∃ w' phase', Produces (SDownload.step params) (Pipeline.Pipes pieces) start w' outs ∧
      next phase' ∧ w'.Awaited phase' := by
  obtain ⟨t, htasks, hjob, hstats, hcancel, hphase⟩ := h.task
  have ht : w.tasks[0]? = some t := by rw [htasks]; rfl
  obtain ⟨d, hd, hnext, hlimited, hrequest⟩ := hturn ⟨t, w.record t.stats, w.files⟩ hphase
    (hstats ▸ h.limited)
  have hstep : DownloadState.step ⟨t, w.record t.stats, w.files⟩ e = some (d, none) := by
    unfold DownloadState.step
    dsimp only
    rw [hcancel]
    exact hd
  have hlater := DownloadState.step_later hstep
  have hmoves : SDownload.step params w (.task 0 e) = some (w.putDownload 0 d, []) := by
    have htaskStep : w.taskStep 0 e = some (w.putDownload 0 d) := by
      unfold taskStep putDownload
      simp only [ht, hjob, hstep, hlater.task.stats]
      rfl
    show (w.taskStep 0 e).map _ = _
    rw [htaskStep]
    rfl
  have hok : Pipeline.Pipes pieces w (.task 0 e) := by
    intro t' ht'
    obtain rfl : t' = t := Option.some.inj (ht'.symm.trans ht)
    rw [hphase]
    exact hdelivers
  refine ⟨w.putDownload 0 d, d.task.phase, List.append_nil outs ▸ hrun.step hok hmoves, hnext,
    ⟨d.task, ?_, hlater.task.job.trans hjob, hlater.task.stats.trans hstats,
      hrequest.trans hcancel, rfl⟩, ?_, ?_, h.calls⟩
  · show w.tasks.set 0 d.task = _
    rw [htasks]
    rfl
  · show (w.stats.set _ _).length = 1
    rw [List.length_set]
    exact h.numStats
  · have hzero : d.task.stats = 0 := hlater.task.stats.trans hstats
    have hlt : d.task.stats < w.stats.length := by rw [hzero, h.numStats]; exact Nat.one_pos
    rw [record_putDownload, if_pos ⟨hzero.symm, hlt⟩]
    exact hlimited

/-- The pieces that are left come one after the other. -/
theorem Awaited.pieces {start : World} {pieces : List Bytes} {outs : List Returned}
    (rest before : List Bytes) (hsplit : pieces = before ++ rest) {file : Handle}
    (h : w.Awaited (.receiving file before.flatten))
    (hrun : Produces (SDownload.step params) (Pipeline.Pipes pieces) start w outs) :
    ∃ w' file', Produces (SDownload.step params) (Pipeline.Pipes pieces) start w' outs ∧
      w'.Awaited (.receiving file' pieces.flatten) := by
  induction rest generalizing before w file with
  | nil =>
      rw [List.append_nil] at hsplit
      subst hsplit
      exact ⟨w, file, hrun, h⟩
  | cons data rest ih =>
      have hpieces : pieces = (before ++ [data]) ++ rest := by
        rw [hsplit, List.append_assoc, List.singleton_append]
      have hnow : Pipeline.Delivers pieces (.receiving file before.flatten) (.piece data) :=
        ⟨before.length, by simp [hsplit], by simp [hsplit], by simp [hsplit]⟩
      obtain ⟨w₁, phase₁, hrun₁, rfl, h₁⟩ := h.turn (.piece data)
        (· = .writing file (before.flatten ++ data) data)
        hnow
        (fun d hphase hlimited => by
          simp [DownloadState.run, hphase, ChunkDownloadStats.addQtBytesDownloaded, hlimited,
            DownloadState.enter])
        hrun
      obtain ⟨w₂, phase₂, hrun₂, ⟨file₂, rfl⟩, h₂⟩ := h₁.turn .written
        (fun phase => ∃ file', phase = .receiving file' (before.flatten ++ data)) trivial
        (fun d hphase hlimited => by
          simp [DownloadState.run, hphase, DownloadState.write, DownloadState.enter, hlimited])
        hrun₁
      rw [← List.flatten_concat] at h₂
      exact ih (before ++ [data]) hpieces h₂ hrun₂

/-- A download that is waited for receives the whole body and ends. -/
theorem Awaited.ends {start : World} {outs : List Returned} (pieces : List Bytes)
    (h : w.Awaited .created)
    (hrun : Produces (SDownload.step params) (Pipeline.Pipes pieces) start w outs) :
    ∃ w' r, Produces (SDownload.step params) (Pipeline.Pipes pieces) start w' outs ∧
      w'.Awaited (.done r) := by
  obtain ⟨w₁, phase₁, hrun₁, rfl, h₁⟩ := h.turn .begins (· = .opening) trivial
    (fun d hphase hlimited => by
      simp [DownloadState.run, hphase, hlimited, ChunkDownloadStats.setStatus]) hrun
  obtain ⟨w₂, phase₂, hrun₂, ⟨file, rfl⟩, h₂⟩ := h₁.turn .opened
    (fun phase => ∃ file, phase = .receiving file []) trivial
    (fun d hphase hlimited => by
      simp [DownloadState.run, hphase, hlimited, DownloadState.enter, DownloadState.openFile])
    hrun₁
  obtain ⟨w₃, file', hrun₃, h₃⟩ := Awaited.pieces pieces [] rfl h₂ hrun₂
  obtain ⟨w₄, phase₄, hrun₄, rfl, h₄⟩ := h₃.turn .eof
    (· = .closing file' pieces.flatten .returned)
    (show pieces.flatten = pieces.flatten from rfl)
    (fun d hphase hlimited => by
      simp [DownloadState.run, hphase, hlimited, DownloadState.enter])
    hrun₃
  obtain ⟨w₅, phase₅, hrun₅, ⟨r, rfl⟩, h₅⟩ :=
    h₄.turn .closed (fun phase => ∃ r, phase = .done r) trivial
    (fun d hphase hlimited => by
      refine ⟨d.finish .returned, by simp [DownloadState.run, hphase], ?_⟩
      unfold DownloadState.finish
      dsimp only
      split
      · split <;>
          exact ⟨⟨_, rfl⟩, hlimited, rfl⟩
      · exact ⟨⟨_, rfl⟩, hlimited, rfl⟩)
    hrun₄
  exact ⟨w₅, r, hrun₅, h₅⟩

/-- The wait comes back. -/
theorem Awaited.collected (params : ChunkManagerParams) {r : TaskEnd} (h : w.Awaited (.done r)) :
    ∃ w' out, SDownload.step params w (.resume 0 true) = some (w', out) ∧ w'.calls = [] ∧
      w'.tasks = w.tasks := by
  obtain ⟨t, htasks, -, -, -, hphase⟩ := h.task
  have hover : w.WaitOver [0] false .allCompleted := by
    refine Or.inr fun i hi => taskDone_iff.mpr ⟨t, ?_, Task.done_iff.mpr ⟨r, hphase⟩⟩
    rw [List.mem_singleton.mp hi, htasks]
    rfl
  obtain ⟨w₁, replies, hcollects, hcalls, htasks₁⟩ : ∃ w₁ replies,
      w.waitCollects [0] = (w₁, .returned replies) ∧ w₁.calls = w.calls ∧ w₁.tasks = w.tasks := by
    unfold waitCollects
    dsimp only
    split <;> exact ⟨_, _, rfl, rfl, rfl⟩
  have hresume : w.resume params (.waiting [0] false .allCompleted) true =
      some (w₁, .returned replies) := hcollects ▸ if_pos hover
  refine ⟨{ w₁ with calls := w₁.calls.eraseIdx 0 }, replies, ?_, ?_, htasks₁⟩
  · unfold SDownload.step
    simp only [h.calls, List.getElem?_cons_zero, hresume, Option.map_some]
    rfl
  · rw [hcalls, h.calls]
    rfl

end World

namespace Pipeline

variable {δ : Type} {p : Pipeline δ}

/-- However the body is split, the download comes to its merge. -/
theorem ends_of_undeclared (h : p.head.Undeclared) {pieces : List Bytes}
    (hbody : pieces.flatten ≠ []) {info : ResourceInfo δ} (hinfo : p.info = .ok info) :
    ∃ w, p.Ends pieces w (.raised (.reconstruction .noCompletedChunks)) := by
  have hsize := (getFileInfo_of_undeclared h hinfo).1
  obtain ⟨w₁, hwait, h₁⟩ : ∃ w₁, step (p.managerParams info) (p.started info)
      (.wait false .allCompleted) = some (w₁, []) ∧ w₁.Awaited .created := by
    rw [started_of_zero hsize]
    exact ⟨_, rfl, ⟨_, rfl, rfl, rfl, rfl, rfl⟩, rfl, rfl, rfl⟩
  have hcalls : (p.started info).calls = [] := by
    rw [started_of_zero hsize]
    rfl
  have hrun₁ : Produces (step (p.managerParams info)) (Pipes pieces) (p.started info) w₁ [] :=
    .step .start (show Pipes pieces _ (.wait false .allCompleted) from ⟨rfl, rfl, hcalls⟩) hwait
  obtain ⟨w₂, r, hrun₂, h₂⟩ := h₁.ends pieces hrun₁
  obtain ⟨w₃, out, hcollects, hcalls₃, htasks₃⟩ := h₂.collected (p.managerParams info)
  have hrun₃ := hrun₂.step (show Pipes pieces w₂ (.resume 0 true) from rfl) hcollects
  have hdone : ∀ t ∈ w₃.tasks, t.Done := by
    obtain ⟨t, htasks, -, -, -, hphase⟩ := h₂.task
    intro t' ht'
    rw [htasks₃, htasks, List.mem_singleton] at ht'
    exact Task.done_iff.mpr ⟨r, ht' ▸ hphase⟩
  have hmerge : step (p.managerParams info) w₃ (.mergeChunks false) =
      some (w₃, [⟨.mergeChunks, .raised (.reconstruction .noCompletedChunks)⟩]) := by
    show some (called (w₃.mergeChunks _ false)) = _
    rw [(nothingMerged_of_undeclared h hbody hinfo hrun₃).piping.mergeChunks hbody]
    rfl
  have hok : Pipes pieces w₃ (.mergeChunks false) := ⟨hcalls₃, hdone⟩
  exact ⟨w₃, info, _, hinfo, hrun₃.step hok hmerge,
    List.mem_append_right _ (List.mem_singleton.mpr rfl)⟩

/-- The body of a reply without a size is in no run of the download put into a file. -/
theorem not_downloads_of_undeclared (h : p.head.Undeclared) {pieces : List Bytes}
    (hbody : pieces.flatten ≠ []) : ¬ p.Downloads pieces := by
  rintro ⟨w, fileName, ⟨info, outs, hinfo, hrun, hmem⟩, -⟩
  have hreply := (nothingMerged_of_undeclared h hbody hinfo hrun).replies _ hmem
  cases hreply

/-- **Undeclared sizes.** Whatever the settings, a body that is not empty and is served without a
size is never downloaded, however it is split; the download comes to its merge, and the merge has
nothing to merge. -/
theorem undeclared_never_downloads (p : Pipeline δ) (h : p.head.Undeclared) (pieces : List Bytes)
    (hbody : pieces.flatten ≠ []) :
    ¬ p.Downloads pieces ∧ ∀ info, p.info = .ok info →
      ∃ w, p.Ends pieces w (.raised (.reconstruction .noCompletedChunks)) :=
  ⟨not_downloads_of_undeclared h hbody, fun _ hinfo => ends_of_undeclared h hbody hinfo⟩

/-- A download of three bytes, of which the reply says what `contentLength` is. -/
def threeBytes (contentLength : Option String) : Pipeline Unit where
  parsedateToDatetime := fun _ => none
  now := ()
  url := ⟨"host", "/a.bin", ""⟩
  head := { statusCode := 200, contentLength }
  maxConn := 4
  useChunkedDownload := true
  cache := none
  ioBufferSize := 4
  files := FileSystem.empty

theorem undeclared_never_downloads_three :
    ¬ (threeBytes none).Downloads [[1, 2], [3]] ∧
      ∃ w, (threeBytes none).Ends [[1, 2], [3]] w (.raised (.reconstruction .noCompletedChunks)) :=
  have h := undeclared_never_downloads (threeBytes none) ⟨by decide, rfl, rfl⟩ [[1, 2], [3]]
    (by decide)
  ⟨h.1, h.2 _ rfl⟩

/-- Three bytes in two pieces, served with no size. -/
theorem undeclared_not_downloaded :
    (threeBytes none).head.Undeclared ∧ ¬ (threeBytes none).Downloads [[1, 2], [3]] :=
  ⟨⟨by decide, rfl, rfl⟩, not_downloads_of_undeclared ⟨by decide, rfl, rfl⟩ (by decide)⟩

/-- The run that downloads the three bytes when their number is declared. -/
def declaredRun : List Event :=
  [.wait false .allCompleted, .task 0 .begins, .task 0 .opened, .task 0 (.piece [1, 2]),
    .task 0 .written, .task 0 (.piece [3]), .task 0 .written, .task 0 .eof, .task 0 .closed,
    .resume 0 true, .mergeChunks false] ++ List.replicate 7 (.resume 0 true)

-- With a `Content-Length` the same download ends with the body.
example : (threeBytes (some "3")).Downloads [[1, 2], [3]] := by
  refine ⟨_, "a.bin", ⟨⟨"a.bin", 3, none, false, ()⟩, _, rfl,
    produces_runTo _ _ _ declaredRun, ?_⟩, ?_⟩ <;> decide

end Pipeline

end SDownload
