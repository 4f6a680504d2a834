import SDownload.Models.Names
import SDownload.Storage.Merge

/-!
# SDownload.Manager.World

The state a `ChunkManager` lives in: its two tables, the stats records and tasks
they point to, the calls of its methods that are waiting at an `await`, and the
storage directory.

Records and tasks are never removed from their lists, only from the tables, so
that an index stays the identity of the Python object. A task is where its
coroutine stands: the `await` it is at, with what it needs from there on. The
response being downloaded keeps what the server has delivered so far
(`delivered`); no code reads it, it is what a statement about the server's
behaviour speaks about.

A task is cancelled in two moments, as in asyncio: `cancel()` sets
`cancelRequested`, and the `CancelledError` arrives when the task is next run.
The throttler's sleeps are part of the wait for the next piece.
-/

namespace SDownload

/-- The index of a stats record. -/
abbrev StatsId := Nat

/-- The index of a task. -/
abbrev TaskId := Nat

/-- What `create_succession_stop_callback` closes over: the record whose bytes it reads and the
task it stops. -/
structure StopCallback where
  stats : StatsId
  predecessorTask : Option TaskId
  deriving Repr, DecidableEq

/-- A stats record; what is called at its limit stops a predecessor. -/
abbrev Stats := ChunkDownloadStats StopCallback

/-- How a task ends. -/
inductive TaskEnd
  /-- The coroutine returned. -/
  | returned
  /-- A `CancelledError` left the coroutine. -/
  | cancelled
  /-- Another exception left it. -/
  | failed (e : TaskError)
  deriving Repr, DecidableEq

/-- The coroutine a task runs: `download_chunk_supervised`, or `run_chunk_succession` with its
`stats_predecessor` and `predecessor_task`. -/
inductive Job
  | download
  | succession (predecessor : StatsId) (predecessorTask : Option TaskId)
  deriving Repr, DecidableEq

/-- Where a task stands: the `await` it is suspended at, with what the code after it reads. -/
inductive Phase
  /-- Before its first turn. -/
  | created
  /-- The chunk's file is being opened. -/
  | opening
  /-- At the head of the `async for`, with what the server has delivered so far. -/
  | receiving (file : Handle) (delivered : Bytes)
  /-- A piece is being written. -/
  | writing (file : Handle) (delivered chunk : Bytes)
  /-- The `finally` of `save_binary_data` and the closing of its file, with the way the `async for`
  was left. -/
  | closing (file : Handle) (delivered : Bytes) (left : TaskEnd)
  /-- A succession waits for the end of its predecessor's task. -/
  | awaitingPredecessor
  /-- `crop_file` is under way. -/
  | cropping (startCrop endCrop : Int)
  /-- `move_data` is under way. -/
  | moving (startCrop endCrop : Int)
  /-- A succession that is cancelled waits for its predecessor, which it has asked to stop. -/
  | cancellingPredecessor
  /-- The task is over. -/
  | done (result : TaskEnd)
  deriving Repr, DecidableEq

/-- A task: what `asyncio.create_task` was given, and how far it has come. -/
structure Task where
  range : ChunkRange
  stats : StatsId
  job : Job
  phase : Phase := .created
  /-- `init_signal.is_set()`. -/
  initSignal : Bool := false
  /-- `cancel()` was called, and the `CancelledError` has not arrived yet. -/
  cancelRequested : Bool := false
  deriving Repr, DecidableEq

namespace Task

/-- `task.done()`, with the result. -/
def result (t : Task) : Option TaskEnd :=
  match t.phase with
  | .done result => some result
  | _ => none

/-- `task.done()`. -/
def Done (t : Task) : Prop := t.result.isSome = true

instance (t : Task) : Decidable t.Done := inferInstanceAs (Decidable (_ = true))

/-- The file the task has open for writing. -/
def file (t : Task) : Option Handle :=
  match t.phase with
  | .receiving file _ | .writing file _ _ | .closing file _ _ => some file
  | _ => none

end Task

/-- The `return_when` of `asyncio.wait`. -/
inductive ReturnWhen
  | firstCompleted
  | allCompleted
  deriving Repr, DecidableEq

/-- Why all tasks are gathered: `cancel_all_chunks` itself, or `cleanup`, which a `merge_chunks`
may have called. -/
inductive GatherGoal
  | cancelAll
  | cleanup (deleteFiles ofMerge : Bool)
  deriving Repr, DecidableEq

/-- A call of a method, at the `await` it is suspended at. -/
inductive Frame
  /-- `cancel_chunk` waits for the init signal of the task; `thenDelete` where `delete_chunk_data`
  called it. -/
  | cancelInit (chunkRange : ChunkRange) (task : TaskId) (thenDelete : Bool)
  /-- `cancel_chunk` waits for the end of the task. -/
  | cancelJoin (chunkRange : ChunkRange) (task : TaskId) (thenDelete : Bool)
  /-- `delete_chunk_data` deletes the file of the record it took out of the table. -/
  | deleting (chunkFileName : String)
  /-- `_wait_for_chunks` waits for its lock. -/
  | lockWait (timed : Bool) (returnWhen : ReturnWhen)
  /-- `_wait_for_chunks` is at `asyncio.wait`, for the tasks that were registered then. -/
  | waiting (allTasks : List TaskId) (timed : Bool) (returnWhen : ReturnWhen)
  /-- `cancel_all_chunks` is at its `gather`. -/
  | gathering (allTasks : List TaskId) (goal : GatherGoal)
  /-- `cleanup_temp_files` asks which of the files are there. -/
  | listing (files : List String) (ofMerge : Bool)
  /-- `cleanup_temp_files` is at its `gather`, with the deletions that are still to come and whether
  one of those before has failed. -/
  | removing (files : List String) (failed ofMerge : Bool)
  /-- `merge_chunks` is at one of the operations of `merge_ranges`. -/
  | merging (stage : MergeStage) (cleanup : Bool)
  deriving Repr, DecidableEq

/-- What a manager is built with, as far as it and its storage read it. -/
structure ChunkManagerParams where
  fileName : String
  fileSize : Option Int
  ioBufferSize : Nat := 1024 * 1024
  deriving Repr, DecidableEq

/-- A manager, its tasks and the calls of its methods that are suspended, over the storage
directory. -/
structure World where
  files : Files
  /-- All stats records there have been. -/
  stats : List Stats
  /-- All tasks there have been. -/
  tasks : List Task
  /-- `_chunks_stats`. -/
  chunksStats : Dict ChunkRange StatsId
  /-- `_chunks_tasks`. -/
  chunksTasks : Dict ChunkRange TaskId
  /-- Whether somebody holds the lock of `_wait_for_chunks`. -/
  waitLocked : Bool
  /-- `_cleaned_up`. -/
  cleanedUp : Bool
  calls : List Frame

/-- `__init__`, over a storage directory, with the `recovered_stats`. -/
def World.init (files : Files) (recoveredStats : List Stats) : World where
  files := files
  stats := recoveredStats
  tasks := []
  chunksStats := recoveredStats.zipIdx.foldl (fun table s => table.set s.1.range s.2) Dict.empty
  chunksTasks := Dict.empty
  waitLocked := false
  cleanedUp := false
  calls := []

/-! ### What a method returns -/

/-- The exceptions that leave the manager's methods. -/
inductive CallError
  /-- `resize_chunk`: the new range is not inside the current one. -/
  | notContained (newRange currentRange : ChunkRange)
  /-- `resize_chunk`: no chunk has the current range. -/
  | rangeNotFound (currentRange : ChunkRange)
  /-- `resize_chunk`: the current range has a task and no record. -/
  | stillInitializing (currentRange : ChunkRange)
  /-- `resize_chunk`: the chunk has ended otherwise than completed. -/
  | notResizable (currentRange : ChunkRange)
  /-- A look-up or a deletion in one of the two tables did not find its key. -/
  | keyError (chunkRange : ChunkRange)
  /-- `merge_chunks`: the file could not be put together. -/
  | reconstruction (cause : ReconstructionError)
  /-- `cleanup`: a listing or a deletion failed. -/
  | storage
  deriving Repr, DecidableEq

/-- What a call gives back: the value it returns, or the exception that leaves it. -/
inductive Reply
  | none
  | bool (b : Bool)
  /-- The records `_wait_for_chunks` returns. -/
  | batch (completed : List StatsId)
  /-- The name of the file that `merge_chunks` made. -/
  | merged (destKey : String)
  | raised (e : CallError)
  deriving Repr, DecidableEq

/-- The methods, as the callers know them. -/
inductive Operation
  | startChunk
  | resizeChunk
  | cancelChunk
  | deleteChunkData
  | wait
  | cancelAllChunks
  | cleanup
  | mergeChunks
  deriving Repr, DecidableEq

/-- A method returns. -/
structure Returned where
  operation : Operation
  reply : Reply
  deriving Repr, DecidableEq

namespace World

variable (w : World)

/-! ### Tasks and records -/

/-- The end of a task, once it has one. -/
def taskResult (t : TaskId) : Option TaskEnd := w.tasks[t]?.bind Task.result

/-- `task.done()`. -/
def TaskDone (t : TaskId) : Prop := (w.taskResult t).isSome = true

instance (t : TaskId) : Decidable (w.TaskDone t) := inferInstanceAs (Decidable (_ = true))

/-- The task a cancellation of `t` arrives at. A succession that awaits its predecessor inside its
own cancellation handler passes a cancellation on to it. -/
def cancelTarget (tasks : List Task) : Nat → TaskId → TaskId
  | 0, t => t
  | fuel + 1, t =>
      match tasks[t]? with
      | some ⟨_, _, .succession _ (some p), .cancellingPredecessor, _, _⟩ =>
          if (tasks[p]?.bind Task.result).isSome then t else cancelTarget tasks fuel p
      | _ => t

/-- Ask a task to stop, unless it has. -/
def requestCancel (t : Task) : Task :=
  if t.Done then t else { t with cancelRequested := true }

/-- `task.cancel()`. -/
def cancelTask (t : TaskId) : World :=
  { w with tasks := w.tasks.modify (cancelTarget w.tasks w.tasks.length t) requestCancel }

/-- The record of that index. -/
def record (s : StatsId) : Stats := w.stats.getD s default

/-- The record of that index, set. -/
def setRecord (s : StatsId) (stats : Stats) : World := { w with stats := w.stats.set s stats }

/-- The record a range has in `_chunks_stats`. -/
def statsOf (chunkRange : ChunkRange) : Option Stats :=
  (w.chunksStats.get? chunkRange).map w.record

/-- The function `create_succession_stop_callback` returns. -/
def stopPredecessor (cb : StopCallback) : World :=
  match cb.predecessorTask with
  | none => w
  | some task =>
      if ¬ w.TaskDone task ∧ (w.record cb.stats).fileSize ≠ some (w.record cb.stats).bytesDownloaded
      then w.cancelTask task
      else w

end World

end SDownload
