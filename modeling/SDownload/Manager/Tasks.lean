import SDownload.Manager.World
import SDownload.Storage.Crop

/-!
# SDownload.Manager.Tasks

The two coroutines a manager's tasks run, one `await` at a time:
`download_chunk_supervised` with the `save_binary_data` it calls
(`chunk_utils/downloader.py`), and `run_chunk_succession`
(`chunk_utils/succession.py`).

A coroutine is a function of what it shares with the rest of the program: its
task, its records and the files (`DownloadState`, `SuccessionState`). It says in
its result whom it asks to stop, and `World.taskStep` puts the pieces back. A
storage call is one event and has its whole effect there; when it fails or is
cancelled, the event says what it left in the file.
-/

namespace SDownload

/-- What lets a suspended task go on. `effect` is what an operation that did not end well left
behind; `none` is nothing. -/
inductive TaskEvent
  /-- The first turn. -/
  | begins
  /-- The file is open. -/
  | opened
  /-- The server has sent a piece, and the throttler lets it through. -/
  | piece (data : Bytes)
  /-- The response has ended. -/
  | eof
  /-- `f.write` is done. -/
  | written
  /-- The file is closed. -/
  | closed
  /-- The predecessor's task is over. -/
  | predecessorEnded
  /-- `crop_file` is done. -/
  | cropped
  /-- `move_data` is done. -/
  | moved
  /-- The operation that is awaited raises. -/
  | fails (effect : Option Bytes)
  /-- A cancellation arrives. -/
  | cancelled (effect : Option Bytes)
  deriving Repr, DecidableEq

/-! ### `download_chunk_supervised` -/

/-- What `download_chunk_supervised` works on. -/
structure DownloadState where
  task : Task
  stats : Stats
  files : Files

namespace DownloadState

/-- Suspend at another `await`. -/
def enter (d : DownloadState) (phase : Phase) : DownloadState :=
  { d with task := { d.task with phase } }

/-- The end of the `try`: the size check and `COMPLETED`, or one of the handlers. -/
def finish (d : DownloadState) : TaskEnd → DownloadState
  | .returned =>
      match d.stats.fileSize with
      | some expected =>
          if d.stats.bytesDownloaded ≠ expected then
            let e := TaskError.integrity expected d.stats.bytesDownloaded
            { d.enter (.done (.failed e)) with stats := d.stats.setError e }
          else { d.enter (.done .returned) with stats := d.stats.setStatus .completed }
      | none => { d.enter (.done .returned) with stats := d.stats.setStatus .completed }
  | .cancelled =>
      { d.enter (.done .cancelled) with
        stats :=
          -- stopped by the callback of a successor: what was asked for is there
          if d.stats.limitQtBytes ≠ 0 ∧ d.stats.limitQtBytes ≤ d.stats.bytesDownloaded then
            if d.stats.status ≠ .deprecated then d.stats.setStatus .deprecated else d.stats
          else d.stats.setStatus .cancelled }
  | .failed e => { d.enter (.done (.failed e)) with stats := d.stats.setError e }

/-- What a failing operation left in the open file. -/
def leave (d : DownloadState) (file : Handle) : Option Bytes → DownloadState
  | none => d
  | some bytes => { d with files := d.files.overwrite file.ino bytes }

/-- `await asyncio.shield(f.write(chunk))`, done. The buffer of the handle is left out: what
was written counts as on the disk at once, and not only when the buffer is flushed or the file
closed. -/
def write (d : DownloadState) (file : Handle) (chunk : Bytes) : DownloadState :=
  { d with files := d.files.writeAt file.ino file.pos chunk }

/-- `aiofiles.open(..., "wb")`: the file is there, and empty. -/
def openFile (d : DownloadState) : Handle × DownloadState :=
  let (ino, files) := d.files.openWrite d.stats.chunkFileName
  (⟨ino, 0⟩, { d with files })

/-- A turn of the coroutine that no cancellation waits for. -/
def run (d : DownloadState) (e : TaskEvent) : Option (DownloadState × Option StopCallback) :=
  match d.task.phase, e with
  | .created, .begins =>
      some ({ d with
        task := { d.task with phase := .opening, initSignal := true }
        stats := d.stats.setStatus .downloading }, none)
  | .opening, .opened =>
      let (file, d) := d.openFile
      some (d.enter (.receiving file []), none)
  | .opening, .fails effect =>
      -- the file may have been created before the operation raised
      let d := if effect.isSome then d.openFile.2 else d
      some (d.finish (.failed .environment), none)
  | .receiving file delivered, .piece data =>
      -- the generator counts a piece before it hands it on to be written
      let (stats, callback) := d.stats.addQtBytesDownloaded data.length
      some ({ d.enter (.writing file (delivered ++ data) data) with stats }, callback)
  | .receiving file delivered, .eof => some (d.enter (.closing file delivered .returned), none)
  | .receiving file delivered, .fails _ =>
      some (d.enter (.closing file delivered (.failed .environment)), none)
  | .writing file delivered chunk, .written =>
      some ((d.write file chunk).enter
        (.receiving { file with pos := file.pos + chunk.length } delivered), none)
  | .writing file delivered _, .fails effect =>
      some ((d.leave file effect).enter (.closing file delivered (.failed .environment)), none)
  | .closing _ _ left, .closed => some (d.finish left, none)
  | .closing file _ _, .fails effect =>
      some ((d.leave file effect).finish (.failed .environment), none)
  | _, _ => none

/-- The turn in which a cancellation arrives. A piece handed to `asyncio.shield` is still
written. -/
def cancel (d : DownloadState) (effect : Option Bytes) : Option DownloadState :=
  let d := { d with task := { d.task with cancelRequested := false } }
  match d.task.phase with
  -- the coroutine never ran, and so does no handler of it
  | .created => some (d.enter (.done .cancelled))
  | .opening => some ((if effect.isSome then d.openFile.2 else d).finish .cancelled)
  | .receiving file delivered => some (d.enter (.closing file delivered .cancelled))
  | .writing file delivered chunk =>
      some ((d.write file chunk).enter (.closing file delivered .cancelled))
  | .closing file delivered _ => some (d.enter (.closing file delivered .cancelled))
  | _ => none

/-- A turn of a download. -/
def step (d : DownloadState) (e : TaskEvent) : Option (DownloadState × Option StopCallback) :=
  match d.task.cancelRequested, e with
  | true, .cancelled effect => (d.cancel effect).map fun d => (d, none)
  -- once a task is asked to stop, its next turn is the one in which it learns of it
  | true, _ => none
  | false, e => d.run e

end DownloadState

/-! ### `run_chunk_succession` -/

/-- What `run_chunk_succession` works on: its own record and the predecessor's. -/
structure SuccessionState where
  task : Task
  successor : Stats
  predecessor : Stats
  files : Files

namespace SuccessionState

/-- Suspend at another `await`. -/
def enter (u : SuccessionState) (phase : Phase) : SuccessionState :=
  { u with task := { u.task with phase } }

/-- An exception that leaves the `try`, its handler included. -/
def fail (u : SuccessionState) (e : TaskError) : SuccessionState :=
  { u.enter (.done (.failed e)) with
    successor := if u.successor.status ≠ .error then u.successor.setError e else u.successor }

/-- `start_crop`. -/
def startCrop (u : SuccessionState) : Int :=
  u.successor.range.start - u.predecessor.range.start

/-- `end_crop`. -/
def endCrop (u : SuccessionState) : Int :=
  match u.successor.range.endByte with
  | some e => e - u.predecessor.range.start
  | none => u.predecessor.bytesDownloaded - 1

/-- `stats_successor.set_error(err)` and `raise err`. -/
def failWith (u : SuccessionState) (e : TaskError) : SuccessionState :=
  { u with successor := u.successor.setError e }.fail e

/-- From the end of the predecessor to the first `await` of `crop_file`. -/
def succeed (u : SuccessionState) (predecessorEnd : TaskEnd) : SuccessionState :=
  let limit := u.predecessor.limitQtBytes
  match predecessorEnd with
  | .failed e => u.failWith (.predecessorFailed u.predecessor.range e)
  | _ =>
      -- a predecessor that was cancelled is as good as one that ended, if it got far enough
      if limit ≠ 0 ∧ u.predecessor.bytesDownloaded < limit then
        u.failWith (.insufficientData u.predecessor.range u.predecessor.bytesDownloaded limit)
      else if u.predecessor.bytesDownloaded ≤ 0 then
        u.failWith (.noData u.predecessor.range u.successor.range)
      else if cropRefuses u.startCrop u.endCrop then u.fail .cropParameters
      else u.enter (.cropping u.startCrop u.endCrop)

/-- `move_data` is over. -/
def complete (u : SuccessionState) (startCrop endCrop : Int) : SuccessionState :=
  { u.enter (.done .returned) with
    successor :=
      { u.successor with bytesDownloaded := endCrop - startCrop + 1 }.setStatus .completed
    predecessor := u.predecessor.setStatus .deprecated }

/-- The end of the cancellation handler. -/
def abandon (u : SuccessionState) : SuccessionState :=
  { u.enter (.done .cancelled) with predecessor := u.predecessor.removeLimitObserver }

/-- The first turn. -/
def begin (u : SuccessionState) (hasPredecessorTask : Bool) : SuccessionState :=
  let u := { u with task := { u.task with initSignal := true } }
  -- inside the `try`, so that its handler sets the status to `ERROR`
  if u.successor.status ≠ .awaitingSuccession then u.fail .notAwaitingSuccession
  else if hasPredecessorTask then u.enter .awaitingPredecessor
  else u.succeed .returned

/-- A turn that no cancellation waits for. `predecessorEnd` is the end of the predecessor's task,
if it has one. -/
def run (u : SuccessionState) (hasPredecessorTask : Bool) (predecessorEnd : Option TaskEnd)
    (e : TaskEvent) : Option SuccessionState :=
  match u.task.phase, e with
  | .created, .begins => some (u.begin hasPredecessorTask)
  | .awaitingPredecessor, .predecessorEnded => predecessorEnd.map u.succeed
  | .cropping startCrop endCrop, .cropped =>
      match cropFile u.files u.predecessor.chunkFileName startCrop endCrop with
      | .error e => some (u.fail e)
      | .ok files => some { u.enter (.moving startCrop endCrop) with files }
  | .cropping _ _, .fails effect =>
      some ({ u with files := leaveByName u.files u.predecessor.chunkFileName effect }.fail
        .environment)
  | .moving startCrop endCrop, .moved =>
      -- `move_data` asks whether the source exists, and somebody may have moved it
      match u.files.lookup u.predecessor.chunkFileName with
      | none => some (u.fail .storageNotFound)
      | some _ =>
          some ({ u with
            files := u.files.rename u.predecessor.chunkFileName u.successor.chunkFileName
            }.complete startCrop endCrop)
  | .moving _ _, .fails _ => some (u.fail .environment)
  | .cancellingPredecessor, .predecessorEnded =>
      match predecessorEnd with
      | none => none
      | some (.failed e) => some (u.enter (.done (.failed e)))
      | some _ => some u.abandon
  | _, _ => none
where
  /-- What an operation that did not end well left in the file of that name. -/
  leaveByName (files : Files) (key : String) : Option Bytes → Files
    | none => files
    | some bytes =>
        match files.lookup key with
        | none => files
        | some ino => files.overwrite ino bytes

/-- The `except asyncio.CancelledError`; the result says whether the predecessor's task is asked
to stop. -/
def handleCancel (u : SuccessionState) (predecessorRuns : Bool) : SuccessionState × Bool :=
  let u := { u with successor := u.successor.setStatus .cancelled }
  if predecessorRuns then (u.enter .cancellingPredecessor, true) else (u.abandon, false)

/-- The turn in which a cancellation arrives. -/
def cancel (u : SuccessionState) (predecessorRuns : Bool) (effect : Option Bytes) :
    Option (SuccessionState × Bool) :=
  let u := { u with task := { u.task with cancelRequested := false } }
  match u.task.phase with
  | .created => some (u.enter (.done .cancelled), false)
  | .awaitingPredecessor => some (u.handleCancel predecessorRuns)
  -- the file may be cropped or moved already; the handler does not look
  | .cropping _ _ =>
      some ({ u with
        files := run.leaveByName u.files u.predecessor.chunkFileName effect
        }.handleCancel predecessorRuns)
  | .moving _ _ =>
      some ({ u with
        files :=
          if effect.isSome then
            u.files.rename u.predecessor.chunkFileName u.successor.chunkFileName
          else u.files }.handleCancel predecessorRuns)
  | .cancellingPredecessor => some (u.abandon, false)
  | _ => none

/-- A turn of a succession. -/
def step (u : SuccessionState) (hasPredecessorTask : Bool) (predecessorEnd : Option TaskEnd)
    (e : TaskEvent) : Option (SuccessionState × Bool) :=
  match u.task.cancelRequested, e with
  | true, .cancelled effect => u.cancel (hasPredecessorTask && predecessorEnd.isNone) effect
  | true, _ => none
  | false, e => (u.run hasPredecessorTask predecessorEnd e).map fun u => (u, false)

end SuccessionState

/-! ### In the world -/

namespace World

/-- A turn of task `i`. -/
def taskStep (w : World) (i : TaskId) (e : TaskEvent) : Option World :=
  match w.tasks[i]? with
  | none => none
  | some t =>
      match t.job with
      | .download =>
          match DownloadState.step ⟨t, w.record t.stats, w.files⟩ e with
          | none => none
          | some (d, callback) =>
              let w := { w with files := d.files, tasks := w.tasks.set i d.task }
              let w := w.setRecord t.stats d.stats
              some (callback.elim w w.stopPredecessor)
      | .succession p predecessorTask =>
          match SuccessionState.step ⟨t, w.record t.stats, w.record p, w.files⟩
              predecessorTask.isSome (predecessorTask.bind w.taskResult) e with
          | none => none
          | some (u, stops) =>
              let w := { w with files := u.files, tasks := w.tasks.set i u.task }
              let w := (w.setRecord t.stats u.successor).setRecord p u.predecessor
              some (if stops then predecessorTask.elim w w.cancelTask else w)

end World

end SDownload
