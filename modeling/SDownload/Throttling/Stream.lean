import SDownload.Lib.Run
import SDownload.Manager.Downloads
import SDownload.Recovery.RoundTrip
import SDownload.Throttling.FixedWindow

/-!
# SDownload.Throttling.Stream

A running `download_chunk_supervised` with the three generators it is made of: the
downloader's, the throttler's `wrap` around it, and the `async for` of `save_binary_data`
that drives both.

`DownloadState` has one wait for the next piece. Here it is one of two, the network's and
the throttler's sleep, and the closing of the file is taken apart into its `await`s; what
happens to the task, the counter and the file is what `DownloadState.step` does.

A piece is counted in `wrap` before it is yielded, and written after. Between the two there
is no `await` but that of the write itself, which is shielded: a cancellation finds the
bytes counted that are in the file, or will be (`Accounted`).
-/

namespace SDownload

/-- The `await` a running download is suspended at, with the local variables of `wrap`. Of a
download that has ended it says whether its file was opened. -/
inductive StreamAwait (σ : Type)
  | opening
  | network (locals : σ)
  | writing (locals : σ) (size : Nat)
  | sleeping (wake : ℚ → σ)
  | flushing
  | syncing
  | closing
  | done (opened : Bool)

/-- The file of the download is open. -/
def StreamAwait.Opened : {σ : Type} → StreamAwait σ → Prop
  | _, .opening | _, .done _ => False
  | _, _ => True

/-- A running download, and the pieces the network has yet to deliver. -/
structure Stream (σ : Type) where
  download : DownloadState
  coming : List Bytes
  await : StreamAwait σ

/-- What lets it go on. `stops` says of a piece whether the callback of the limit observer, if it is
called, cancels the task it is called from. -/
inductive StreamEvent
  | opened (clock : ℚ) (target : Option ℚ)
  | piece (stops : Bool)
  | eof
  | written (reading : Reading)
  | slept (clock : ℚ)
  | flushed
  | synced
  | closed
  | cancel
  | cancelled (effect : Option Bytes)
  deriving DecidableEq

/-- `task.cancel()`. -/
def DownloadState.request (d : DownloadState) (asked : Bool) : DownloadState :=
  { d with task := { d.task with cancelRequested := d.task.cancelRequested || asked } }

namespace Stream

variable {σ : Type}

/-- The arrival of the `CancelledError`: the `finally` of `save_binary_data` is entered, or left. -/
def cancelled (s : Stream σ) (effect : Option Bytes) : Option (Stream σ) :=
  match s.await with
  | .opening =>
      (s.download.step (.cancelled effect)).map fun (d, _) =>
        { s with download := d, await := .done effect.isSome }
  | .network _ | .writing _ _ | .sleeping _ =>
      (s.download.step (.cancelled none)).map fun (d, _) =>
        { s with download := d, await := .flushing }
  | .flushing | .syncing =>
      (s.download.step (.cancelled none)).map fun (d, _) =>
        { s with download := d, await := .closing }
  | .closing =>
      (s.download.step (.cancelled none)).bind fun (d, _) =>
        (d.step .closed).map fun (d, _) => { s with download := d, await := .done true }
  | .done _ => none

/-- A piece has been written, and `wrap` is resumed after its `yield`. -/
def resumed (throttler : Throttler σ) (s : Stream σ) (l : σ) (size : Nat) (reading : Reading) :
    Option (Stream σ) :=
  match throttler.resume l size reading with
  | .next l => some { s with await := .network l }
  | .sleep _ _ wake => some { s with await := .sleeping wake }
  | .zeroDivision =>
      (s.download.step (.fails none)).map fun (d, _) =>
        { s with download := d, await := .flushing }

/-- A turn that no cancellation waits for, and the piece that `wrap` yields in it. -/
def run (throttler : Throttler σ) (s : Stream σ) (e : StreamEvent) :
    Option (Stream σ × List Bytes) :=
  match s.await, e with
  | .opening, .opened clock target =>
      (s.download.step .opened).map fun (d, _) =>
        ({ s with download := d, await := .network (throttler.start clock target) }, [])
  | .network l, .piece stops =>
      match s.coming with
      | [] => none
      | data :: coming =>
          (s.download.step (.piece data)).map fun (d, callback) =>
            ({ download := d.request (callback.isSome && stops)
               coming
               await := .writing l data.length }, [data])
  | .network _, .eof =>
      if s.coming = [] then
        (s.download.step .eof).map fun (d, _) => ({ s with download := d, await := .flushing }, [])
      else none
  | .writing l size, .written reading =>
      (s.download.step .written).bind fun (d, _) =>
        (resumed throttler { s with download := d } l size reading).map fun s => (s, [])
  | .sleeping wake, .slept clock => some ({ s with await := .network (wake clock) }, [])
  | .flushing, .flushed => some ({ s with await := .syncing }, [])
  | .syncing, .synced => some ({ s with await := .closing }, [])
  | .closing, .closed =>
      (s.download.step .closed).map fun (d, _) =>
        ({ s with download := d, await := .done true }, [])
  | .done _, .cancel => none
  | _, .cancel => some ({ s with download := s.download.request true }, [])
  | _, _ => none

/-- A turn of a running download. -/
def step (throttler : Throttler σ) (s : Stream σ) (e : StreamEvent) :
    Option (Stream σ × List Bytes) :=
  match s.download.task.cancelRequested, e with
  | true, .cancelled effect => (s.cancelled effect).map fun s => (s, [])
  | true, _ => none
  | false, e => s.run throttler e

end Stream

/-! ### What has been counted is in the file, or on its way -/

/-- What an event adds to the bytes yielded. -/
def TaskEvent.taken : TaskEvent → Bytes
  | .piece data => data
  | _ => []

namespace DownloadState

variable {d d' : DownloadState} {bytes : Bytes} {e : TaskEvent} {cb : Option StopCallback}

/-- What the file of an opened download holds, when `bytes` have been yielded. -/
def InFile (bytes : Bytes) (d : DownloadState) : Phase → Prop
  | .receiving file delivered =>
      delivered = bytes ∧ d.Holds file bytes ∧ file.pos = bytes.length
  | .writing file delivered chunk =>
      ∃ written, delivered = bytes ∧ bytes = written ++ chunk ∧ d.Holds file written ∧
        file.pos = written.length
  | .closing file delivered _ => delivered = bytes ∧ d.Holds file bytes
  | .done _ => d.files.read d.stats.chunkFileName = some bytes
  | _ => False

/-- And as many have been counted. -/
structure Accounted (bytes : Bytes) (d : DownloadState) : Prop where
  counted : d.stats.bytesDownloaded = bytes.length
  inFile : d.InFile bytes d.task.phase

/-- A download that ends has its file as it is. -/
theorem Holds.finish {file : Handle} (h : d.Holds file bytes)
    (hcounted : d.stats.bytesDownloaded = bytes.length) (left : TaskEnd) :
    (d.finish left).Accounted bytes := by
  obtain ⟨r, hr⟩ := d.finish_task left
  refine ⟨(finish_bytesDownloaded d left).trans hcounted, ?_⟩
  rw [hr]
  show (d.finish left).files.read (d.finish left).stats.chunkFileName = some bytes
  rw [finish_files, (d.finish_stats left).chunkFileName, h.read]

/-- A turn that no cancellation waits for. No operation fails; the throttler may raise. -/
theorem Accounted.run (h : d.Accounted bytes)
    (hfails : ∀ effect, e = .fails effect → ∃ file delivered,
      d.task.phase = .receiving file delivered)
    (hrun : d.run e = some (d', cb)) : d'.Accounted (bytes ++ e.taken) := by
  obtain ⟨hcounted, hin⟩ := h
  unfold DownloadState.run at hrun
  split at hrun <;> first | cases hrun; done | rename_i hphase
  all_goals
    rw [hphase] at hin
    obtain ⟨rfl, -⟩ := Prod.mk.inj (Option.some.inj hrun)
  · exact hin.elim
  · exact hin.elim
  · exact hin.elim
  · -- a piece: counted, and not written yet
    rename_i file delivered data
    obtain ⟨rfl, hholds, hpos⟩ := hin
    obtain ⟨hcount, -⟩ := addQtBytesDownloaded_fields d.stats data.length
    refine ⟨?_, delivered, rfl, rfl, ⟨?_, hholds.content⟩, hpos⟩
    · show (d.stats.addQtBytesDownloaded data.length).1.bytesDownloaded = _
      rw [hcount, hcounted, TaskEvent.taken, List.length_append, Int.natCast_add]
    · show d.files.lookup (d.stats.addQtBytesDownloaded data.length).1.chunkFileName = _
      rw [(SameRecord.addQtBytesDownloaded d.stats _).chunkFileName]
      exact hholds.lookup
  · obtain ⟨rfl, hholds, -⟩ := hin
    simp only [TaskEvent.taken, List.append_nil]
    exact ⟨hcounted, rfl, ⟨hholds.lookup, hholds.content⟩⟩
  · obtain ⟨rfl, hholds, -⟩ := hin
    simp only [TaskEvent.taken, List.append_nil]
    exact ⟨hcounted, rfl, ⟨hholds.lookup, hholds.content⟩⟩
  · -- what was counted is written
    rename_i file delivered chunk
    obtain ⟨written, rfl, rfl, hholds, hpos⟩ := hin
    have hwritten := (hholds.write hpos chunk).1
    simp only [TaskEvent.taken, List.append_nil]
    refine ⟨hcounted, rfl, ⟨hwritten.lookup, hwritten.content⟩, ?_⟩
    show file.pos + chunk.length = _
    rw [hpos, List.length_append]
  · obtain ⟨file, delivered, hreceiving⟩ := hfails _ rfl
    rw [hphase] at hreceiving
    cases hreceiving
  · obtain ⟨rfl, hholds⟩ := hin
    simp only [TaskEvent.taken, List.append_nil]
    exact hholds.finish hcounted _
  · obtain ⟨file, delivered, hreceiving⟩ := hfails _ rfl
    rw [hphase] at hreceiving
    cases hreceiving

/-- The turn in which a cancellation arrives. -/
theorem Accounted.cancel {effect : Option Bytes} (h : d.Accounted bytes)
    (hcancel : d.cancel effect = some d') : d'.Accounted bytes := by
  obtain ⟨hcounted, hin⟩ := h
  unfold DownloadState.cancel at hcancel
  dsimp only at hcancel
  split at hcancel <;> first | cases hcancel; done | rename_i hphase
  all_goals
    rw [hphase] at hin
    obtain rfl := Option.some.inj hcancel
  · exact hin.elim
  · exact hin.elim
  · obtain ⟨rfl, hholds, -⟩ := hin
    exact ⟨hcounted, rfl, ⟨hholds.lookup, hholds.content⟩⟩
  · -- the shielded write is done before the file is closed
    rename_i file delivered chunk
    obtain ⟨written, rfl, rfl, hholds, hpos⟩ := hin
    have hwritten := (hholds.write hpos chunk).1
    exact ⟨hcounted, rfl, ⟨hwritten.lookup, hwritten.content⟩⟩
  · obtain ⟨rfl, hholds⟩ := hin
    exact ⟨hcounted, rfl, ⟨hholds.lookup, hholds.content⟩⟩

/-- **A turn of an opened download** keeps the account. -/
theorem Accounted.step (h : d.Accounted bytes)
    (hfails : ∀ effect, e = .fails effect → ∃ file delivered,
      d.task.phase = .receiving file delivered)
    (hstep : d.step e = some (d', cb)) : d'.Accounted (bytes ++ e.taken) := by
  unfold DownloadState.step at hstep
  split at hstep
  · obtain ⟨d'', hcancel, heq⟩ := Option.map_eq_some_iff.mp hstep
    obtain ⟨rfl, -⟩ := Prod.mk.inj heq
    simp only [TaskEvent.taken, List.append_nil]
    exact h.cancel hcancel
  · cases hstep
  · exact h.run hfails hstep

/-- It does not depend on whether the task has been asked to stop. -/
theorem Accounted.request (h : d.Accounted bytes) (asked : Bool) :
    (d.request asked).Accounted bytes := by
  refine ⟨h.counted, ?_⟩
  have hin := h.inFile
  show (d.request asked).InFile bytes d.task.phase
  cases hphase : d.task.phase with
  | receiving file delivered =>
      rw [hphase] at hin
      obtain ⟨hdelivered, hholds, hpos⟩ := hin
      exact ⟨hdelivered, ⟨hholds.lookup, hholds.content⟩, hpos⟩
  | writing file delivered chunk =>
      rw [hphase] at hin
      obtain ⟨written, hdelivered, hbytes, hholds, hpos⟩ := hin
      exact ⟨written, hdelivered, hbytes, ⟨hholds.lookup, hholds.content⟩, hpos⟩
  | closing file delivered left =>
      rw [hphase] at hin
      exact ⟨hin.1, hin.2.lookup, hin.2.content⟩
  | _ =>
      rw [hphase] at hin
      exact hin

end DownloadState

namespace DownloadState

variable {d d' : DownloadState} {cb : Option StopCallback}

theorem step_of_asked (h : d.task.cancelRequested = true) (effect : Option Bytes) :
    d.step (.cancelled effect) = (d.cancel effect).map fun d => (d, none) := by
  unfold DownloadState.step
  rw [h]

theorem step_of_live (h : d.task.cancelRequested = false) (e : TaskEvent) : d.step e = d.run e := by
  unfold DownloadState.step
  rw [h]

/-- What goes on has not been asked to stop. -/
theorem live_of_step {e : TaskEvent} (he : ∀ effect, e ≠ .cancelled effect)
    (hstep : d.step e = some (d', cb)) : d.task.cancelRequested = false := by
  unfold DownloadState.step at hstep
  split at hstep
  · exact absurd rfl (he _)
  · cases hstep
  · assumption

/-- The end of the `await` that opens the file. -/
theorem accounted_opened (hphase : d.task.phase = .opening) (hzero : d.stats.bytesDownloaded = 0)
    (hstep : d.step .opened = some (d', cb)) : d'.Accounted [] := by
  rw [step_of_live (live_of_step (by nofun) hstep)] at hstep
  simp only [DownloadState.run, hphase] at hstep
  obtain ⟨rfl, -⟩ := Prod.mk.inj (Option.some.inj hstep)
  exact ⟨hzero, rfl, ⟨FileSystem.lookup_openWrite_self, FileSystem.content_openWrite_self⟩, rfl⟩

/-- A cancellation while the file is being opened. -/
theorem opening_cancelled {effect : Option Bytes} (hphase : d.task.phase = .opening)
    (hzero : d.stats.bytesDownloaded = 0)
    (hstep : d.step (.cancelled effect) = some (d', cb)) :
    (∃ r, d'.task.phase = .done r) ∧ d'.stats.bytesDownloaded = 0 ∧
      if effect.isSome then d'.files.read d'.stats.chunkFileName = some []
      else d'.files = d.files := by
  cases hasked : d.task.cancelRequested with
  | false =>
      rw [step_of_live hasked] at hstep
      simp [DownloadState.run, hphase] at hstep
  | true =>
      rw [step_of_asked hasked] at hstep
      simp only [DownloadState.cancel, hphase, Option.map_some] at hstep
      obtain ⟨rfl, -⟩ := Prod.mk.inj (Option.some.inj hstep)
      refine ⟨?_, ?_, ?_⟩
      · obtain ⟨r, hr⟩ := finish_task _ .cancelled
        exact ⟨r, by rw [hr]⟩
      · rw [finish_bytesDownloaded]
        split <;> exact hzero
      · rw [finish_files, (finish_stats _ .cancelled).chunkFileName]
        split
        · exact FileSystem.read_openWrite_self
        · rfl

/-- The file has been closed. -/
theorem done_of_closed (hstep : d.step .closed = some (d', cb)) : ∃ r, d'.task.phase = .done r := by
  rw [step_of_live (live_of_step (by nofun) hstep)] at hstep
  cases hphase : d.task.phase with
  | closing file delivered left =>
      simp only [DownloadState.run, hphase] at hstep
      obtain ⟨rfl, -⟩ := Prod.mk.inj (Option.some.inj hstep)
      obtain ⟨r, hr⟩ := d.finish_task left
      exact ⟨r, by rw [hr]⟩
  | _ => simp [DownloadState.run, hphase] at hstep

/-- After a write the next piece is awaited. -/
theorem receiving_of_written (hstep : d.step .written = some (d', cb)) :
    ∃ file delivered, d'.task.phase = .receiving file delivered := by
  rw [step_of_live (live_of_step (by nofun) hstep)] at hstep
  cases hphase : d.task.phase with
  | writing file delivered chunk =>
      simp only [DownloadState.run, hphase] at hstep
      obtain ⟨rfl, -⟩ := Prod.mk.inj (Option.some.inj hstep)
      exact ⟨_, _, rfl⟩
  | _ => simp [DownloadState.run, hphase] at hstep

end DownloadState

namespace Stream

variable {σ : Type} {throttler : Throttler σ} {s s' : Stream σ} {start : DownloadState}
  {pieces outs out : List Bytes}

/-- What is known at an `await`, of a download begun in the state `start`, when `outs` have been
yielded. -/
def StateOk (start : DownloadState) (outs : List Bytes) (d : DownloadState) : StreamAwait σ → Prop
  | .opening =>
      outs = [] ∧ d.task.phase = .opening ∧ d.stats.bytesDownloaded = 0 ∧ d.files = start.files
  | .done false => d.stats.bytesDownloaded = 0 ∧ d.files = start.files
  | .done true => (∃ r, d.task.phase = .done r) ∧ d.Accounted outs.flatten
  | _ => d.Accounted outs.flatten

/-- The invariant of a running download. -/
structure Ok (start : DownloadState) (pieces : List Bytes) (s : Stream σ) (outs : List Bytes) :
    Prop where
  pieces : outs ++ s.coming = pieces
  record : SameRecord start.stats s.download.stats
  state : StateOk start outs s.download s.await

theorem StateOk.accounted {d : DownloadState} {await : StreamAwait σ}
    (h : StateOk start outs d await) (hopened : await.Opened) : d.Accounted outs.flatten := by
  cases await with
  | opening | done opened => exact hopened.elim
  | _ => exact h

theorem stateOk_of_accounted {d : DownloadState} {await : StreamAwait σ}
    (h : d.Accounted outs.flatten) (hopened : await.Opened) : StateOk start outs d await := by
  cases await with
  | opening | done opened => exact hopened.elim
  | _ => exact h

/-- A turn of the download that leads from one of the `await`s with an open file to another. -/
theorem Ok.moves {e : TaskEvent} {d' : DownloadState} {cb : Option StopCallback}
    {coming : List Bytes} {await : StreamAwait σ} (h : Ok start pieces s outs)
    (hopened : s.await.Opened) (hstep : s.download.step e = some (d', cb))
    (hfails : ∀ effect, e = .fails effect →
      ∃ file delivered, s.download.task.phase = .receiving file delivered)
    (hout : e.taken = out.flatten) (hcoming : outs ++ out ++ coming = pieces)
    (hawait : await.Opened) : Ok start pieces ⟨d', coming, await⟩ (outs ++ out) := by
  refine ⟨hcoming, h.record.trans (DownloadState.step_later hstep).stats, ?_⟩
  refine stateOk_of_accounted ?_ hawait
  have haccounted := (h.state.accounted hopened).step hfails hstep
  rwa [hout, ← List.flatten_append] at haccounted

/-- The last turn of an opened download. -/
theorem Ok.ends {d' : DownloadState} {cb : Option StopCallback} (h : Ok start pieces s outs)
    (hopened : s.await.Opened) (hstep : s.download.step .closed = some (d', cb)) :
    Ok start pieces (⟨d', s.coming, .done true⟩ : Stream σ) outs := by
  refine ⟨h.pieces, h.record.trans (DownloadState.step_later hstep).stats,
    DownloadState.done_of_closed hstep, ?_⟩
  have haccounted := (h.state.accounted hopened).step (by nofun) hstep
  simp only [TaskEvent.taken, List.append_nil] at haccounted
  exact haccounted

/-- The arrival of a cancellation keeps the invariant. -/
theorem Ok.cancelled {effect : Option Bytes} (h : Ok start pieces s outs)
    (hstep : s.cancelled effect = some s') : Ok start pieces s' outs := by
  have hmoves : ∀ {d' : DownloadState} {cb : Option StopCallback} {await : StreamAwait σ},
      s.await.Opened → s.download.step (.cancelled none) = some (d', cb) → await.Opened →
      Ok start pieces ⟨d', s.coming, await⟩ outs := by
    intro d' cb await hopened hd hawait
    have hok := @Ok.moves σ s start pieces outs [] _ _ _ s.coming await h hopened hd nofun rfl
      (by rw [List.append_nil, h.pieces]) hawait
    rwa [List.append_nil] at hok
  unfold Stream.cancelled at hstep
  cases hawait : s.await with
  | opening =>
      rw [hawait] at hstep
      obtain ⟨⟨d', cb⟩, hd, rfl⟩ := Option.map_eq_some_iff.mp hstep
      have hstate := h.state
      rw [hawait] at hstate
      obtain ⟨rfl, hphase, hzero, hfiles⟩ := hstate
      obtain ⟨hdone, hnone, hleft⟩ := DownloadState.opening_cancelled hphase hzero hd
      refine ⟨h.pieces, h.record.trans (DownloadState.step_later hd).stats, ?_⟩
      cases effect with
      | none => exact ⟨hnone, hleft.trans hfiles⟩
      | some bytes =>
          obtain ⟨r, hr⟩ := hdone
          refine ⟨⟨r, hr⟩, hnone, ?_⟩
          rw [hr]
          exact hleft
  | network l | writing l size | sleeping wake | flushing | syncing =>
      rw [hawait] at hstep
      obtain ⟨⟨d', cb⟩, hd, rfl⟩ := Option.map_eq_some_iff.mp hstep
      exact hmoves (by rw [hawait]; trivial) hd trivial
  | closing =>
      rw [hawait] at hstep
      obtain ⟨⟨d', cb⟩, hd, hrest⟩ := Option.bind_eq_some_iff.mp hstep
      obtain ⟨⟨d'', cb'⟩, hd', rfl⟩ := Option.map_eq_some_iff.mp hrest
      have hok : Ok start pieces ⟨d', s.coming, .closing⟩ outs :=
        hmoves (by rw [hawait]; trivial) hd trivial
      exact hok.ends trivial hd'
  | done opened =>
      rw [hawait] at hstep
      cases hstep

/-- So does the throttler's turn after a piece. -/
theorem Ok.resumed {l : σ} {size : Nat} {reading : Reading} (h : Ok start pieces s outs)
    (hopened : s.await.Opened)
    (hphase : ∃ file delivered, s.download.task.phase = .receiving file delivered)
    (hstep : s.resumed throttler l size reading = some s') : Ok start pieces s' outs := by
  have haccounted := h.state.accounted hopened
  unfold Stream.resumed at hstep
  cases hresume : throttler.resume l size reading with
  | next l' =>
      rw [hresume] at hstep
      obtain rfl := Option.some.inj hstep
      exact ⟨h.pieces, h.record, haccounted⟩
  | sleep wait seconds wake =>
      rw [hresume] at hstep
      obtain rfl := Option.some.inj hstep
      exact ⟨h.pieces, h.record, haccounted⟩
  | zeroDivision =>
      rw [hresume] at hstep
      obtain ⟨⟨d', cb⟩, hd, rfl⟩ := Option.map_eq_some_iff.mp hstep
      have hok := @Ok.moves σ s start pieces outs [] _ _ _ s.coming .flushing h hopened hd
        (fun _ _ => hphase) rfl (by rw [List.append_nil, h.pieces]) trivial
      rwa [List.append_nil] at hok

/-- It does not depend on whether the task has been asked to stop. -/
theorem Ok.request (h : Ok start pieces s outs) (asked : Bool) :
    Ok start pieces { s with download := s.download.request asked } outs := by
  refine ⟨h.pieces, h.record, ?_⟩
  have hstate := h.state
  show StateOk start outs (s.download.request asked) s.await
  cases hawait : s.await with
  | opening =>
      rw [hawait] at hstate
      exact hstate
  | done opened =>
      rw [hawait] at hstate
      cases opened with
      | false => exact hstate
      | true => exact ⟨hstate.1, hstate.2.request asked⟩
  | _ =>
      rw [hawait] at hstate
      exact DownloadState.Accounted.request hstate asked

/-- A turn that no cancellation waits for keeps it. -/
theorem Ok.run {e : StreamEvent} (h : Ok start pieces s outs)
    (hstep : s.run throttler e = some (s', out)) : Ok start pieces s' (outs ++ out) := by
  have hstate := h.state
  have hnone : outs ++ [] ++ s.coming = pieces := by rw [List.append_nil, h.pieces]
  unfold Stream.run at hstep
  split at hstep
  · rename_i clock target hawait
    obtain ⟨⟨d', cb⟩, hd, heq⟩ := Option.map_eq_some_iff.mp hstep
    obtain ⟨rfl, rfl⟩ := Prod.mk.inj heq
    rw [hawait] at hstate
    obtain ⟨rfl, hphase, hzero, -⟩ := hstate
    exact ⟨h.pieces, h.record.trans (DownloadState.step_later hd).stats,
      DownloadState.accounted_opened hphase hzero hd⟩
  · rename_i l stops hawait
    split at hstep
    · cases hstep
    · -- counted, yielded, and on its way to the file
      rename_i data coming hcoming
      obtain ⟨⟨d', cb⟩, hd, heq⟩ := Option.map_eq_some_iff.mp hstep
      obtain ⟨rfl, rfl⟩ := Prod.mk.inj heq
      have hok : Ok start pieces (⟨d', coming, .writing l data.length⟩ : Stream σ)
          (outs ++ [data]) := by
        refine h.moves (by rw [hawait]; trivial) hd nofun ?_ ?_ trivial
        · simp [TaskEvent.taken]
        · rw [List.append_assoc, List.singleton_append, ← hcoming, h.pieces]
      exact hok.request _
  · rename_i l hawait
    split at hstep
    · obtain ⟨⟨d', cb⟩, hd, heq⟩ := Option.map_eq_some_iff.mp hstep
      obtain ⟨rfl, rfl⟩ := Prod.mk.inj heq
      exact h.moves (by rw [hawait]; trivial) hd nofun rfl hnone trivial
    · cases hstep
  · rename_i l size reading hawait
    obtain ⟨⟨d', cb⟩, hd, hrest⟩ := Option.bind_eq_some_iff.mp hstep
    obtain ⟨s'', hresumed, heq⟩ := Option.map_eq_some_iff.mp hrest
    obtain ⟨rfl, rfl⟩ := Prod.mk.inj heq
    have hok : Ok start pieces (⟨d', s.coming, .writing l size⟩ : Stream σ) (outs ++ []) :=
      h.moves (by rw [hawait]; trivial) hd nofun rfl hnone trivial
    rw [← hawait] at hok
    exact hok.resumed (by rw [hawait]; trivial) (DownloadState.receiving_of_written hd) hresumed
  · rename_i wake clock hawait
    obtain ⟨rfl, rfl⟩ := Prod.mk.inj (Option.some.inj hstep)
    rw [hawait] at hstate
    rw [List.append_nil]
    exact ⟨h.pieces, h.record, hstate⟩
  · rename_i hawait
    obtain ⟨rfl, rfl⟩ := Prod.mk.inj (Option.some.inj hstep)
    rw [hawait] at hstate
    rw [List.append_nil]
    exact ⟨h.pieces, h.record, hstate⟩
  · rename_i hawait
    obtain ⟨rfl, rfl⟩ := Prod.mk.inj (Option.some.inj hstep)
    rw [hawait] at hstate
    rw [List.append_nil]
    exact ⟨h.pieces, h.record, hstate⟩
  · rename_i hawait
    obtain ⟨⟨d', cb⟩, hd, heq⟩ := Option.map_eq_some_iff.mp hstep
    obtain ⟨rfl, rfl⟩ := Prod.mk.inj heq
    rw [List.append_nil]
    exact h.ends (by rw [hawait]; trivial) hd
  · cases hstep
  · obtain ⟨rfl, rfl⟩ := Prod.mk.inj (Option.some.inj hstep)
    rw [List.append_nil]
    exact h.request true
  · cases hstep

/-- **A turn of a running download** keeps the account. -/
theorem Ok.step {e : StreamEvent} (h : Ok start pieces s outs)
    (hstep : s.step throttler e = some (s', out)) : Ok start pieces s' (outs ++ out) := by
  unfold Stream.step at hstep
  split at hstep
  · obtain ⟨s'', hcancelled, heq⟩ := Option.map_eq_some_iff.mp hstep
    obtain ⟨rfl, rfl⟩ := Prod.mk.inj heq
    rw [List.append_nil]
    exact h.cancelled hcancelled
  · cases hstep
  · exact h.run hstep

end Stream

/-- A file of the size that was counted is kept by `save_info`, and found again by `load_info`. -/
theorem kept_of_read {stats : Stats} {files : Files} {bytes : Bytes}
    (hread : files.read stats.chunkFileName = some bytes)
    (hcounted : stats.bytesDownloaded = bytes.length) {minChunkSize : Int}
    (hpos : 0 < stats.bytesDownloaded) (hmin : minChunkSize ≤ stats.bytesDownloaded) :
    saveVerdict files minChunkSize stats = .keep (RecoveryRun.dtoOf stats) ∧
      validStats files (RecoveryRun.dtoOf stats) = some (RecoveryRun.recoveredOf stats) := by
  have hsize : sizeOnDisk files stats.chunkFileName = stats.bytesDownloaded := by
    rw [sizeOnDisk, hread, Option.getD_some, hcounted]
  have hkept : Persists files minChunkSize stats := ⟨hsize, hpos, Or.inr hmin⟩
  exact ⟨saveVerdict_of_persists hkept, validStats_dtoOf rfl hkept⟩

/-- **Byte accounting survives cancellation.** When a download whose file was opened has ended, at
whichever `await` it was cancelled, its file holds the first pieces, as many bytes as were counted:
`save_info` keeps the chunk, and it is recovered with all of them. Where the file was never opened,
nothing has been counted and no file has changed. -/
theorem accounting_survives_cancellation {σ : Type} (throttler : Throttler σ)
    (pieces : List Bytes) (d : DownloadState) (hphase : d.task.phase = .opening)
    (hzero : d.stats.bytesDownloaded = 0) {s : Stream σ} {outs : List Bytes}
    (hrun : Produces (Stream.step throttler) (fun _ _ => True) ⟨d, pieces, .opening⟩ s outs) :
    (s.await = .done true →
      (∃ k, s.download.files.read d.stats.chunkFileName = some (pieces.take k).flatten ∧
        s.download.stats.bytesDownloaded = (pieces.take k).flatten.length) ∧
      ∀ minChunkSize, 0 < s.download.stats.bytesDownloaded →
        minChunkSize ≤ s.download.stats.bytesDownloaded →
        saveVerdict s.download.files minChunkSize s.download.stats =
            .keep (RecoveryRun.dtoOf s.download.stats) ∧
          validStats s.download.files (RecoveryRun.dtoOf s.download.stats) =
            some (RecoveryRun.recoveredOf s.download.stats)) ∧
    (s.await = .done false →
      s.download.stats.bytesDownloaded = 0 ∧ s.download.files = d.files) := by
  have hok : Stream.Ok d pieces s outs := by
    refine @Produces.invariant _ _ _ _ _ _ _ _ (Stream.Ok d pieces) ?_ ?_ hrun
    · exact ⟨rfl, .refl _, rfl, hphase, hzero, rfl⟩
    · intro s s' e outs out hok _ hstep
      exact hok.step hstep
  have hstate := hok.state
  refine ⟨fun hdone => ?_, fun hdone => ?_⟩
  · rw [hdone] at hstate
    obtain ⟨⟨r, hr⟩, hcounted, hin⟩ := hstate
    rw [hr] at hin
    have hread : s.download.files.read s.download.stats.chunkFileName = some outs.flatten := hin
    refine ⟨⟨outs.length, ?_, ?_⟩, fun minChunkSize => kept_of_read hread hcounted⟩
    · rw [← hok.pieces, List.take_left, ← hok.record.chunkFileName, hread]
    · rw [← hok.pieces, List.take_left, hcounted]
  · rw [hdone] at hstate
    exact hstate

/-- A download whose limit observer stops it at the second byte, and which yields two at once. -/
def Stream.exampleDownload : DownloadState where
  task := { range := ⟨0, none⟩, stats := 0, job := .download, phase := .opening }
  stats :=
    { chunkFileName := "a", range := ⟨0, none⟩, fileSize := none, status := .downloading,
      limitQtBytes := 2, onLimit := some ⟨1, some 0⟩, limited := true }
  files := FileSystem.empty

/-- It is cancelled from inside, while it is asked to write them. -/
theorem accounting_survives_cancellation_limit :
    let throttler := ({} : FixedWindowThrottler).throttler
    let s := runTo (Stream.step throttler) (fun _ _ => True)
      ⟨Stream.exampleDownload, [[1, 2], [3]], .opening⟩
      [.opened 0 none, .piece true, .cancelled none, .flushed, .synced, .closed]
    s.download.task.phase = .done .cancelled ∧
      ∃ k, s.download.files.read "a" = some (([[1, 2], [3]] : List Bytes).take k).flatten ∧
        s.download.stats.bytesDownloaded =
          (([[1, 2], [3]] : List Bytes).take k).flatten.length := by
  intro throttler s
  refine ⟨by decide, ?_⟩
  exact ((accounting_survives_cancellation throttler [[1, 2], [3]] Stream.exampleDownload rfl rfl
    (produces_runTo _ _ _ _)).1 rfl).1

end SDownload
