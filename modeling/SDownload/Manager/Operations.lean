import SDownload.Manager.Tasks

/-!
# SDownload.Manager.Operations

The methods of `ChunkManager` (`chunk_manager.py`), and the step function of the
whole program: a call is made, a suspended call goes on, or a task has a turn.

A method runs until it awaits something that is not there yet. What it is then
(`Progress`) is a frame to suspend or what it returns; the code after an `await`
is a function of its own, named after where the method stands. The monitor task
only reads, and is left out.
-/

namespace SDownload

/-- How far a method came: suspended at an `await`, or at its end. -/
inductive Progress
  /-- It is suspended at an `await`. -/
  | suspended (frame : Frame)
  /-- It is at its end, and so are the callers it returns to. -/
  | returned (replies : List Returned)
  deriving Repr, DecidableEq

namespace World

variable (params : ChunkManagerParams) (w : World)

/-! ### `start_chunk` and `resize_chunk` -/

/-- `_register_chunk_stats`, of a record that gets the next index. -/
def registerChunkStats (chunkRange : ChunkRange) (targetSpeedBps : Option Int) : World :=
  let stats : Stats :=
    { chunkFileName := formatChunkFileName chunkRange params.fileName
      range := chunkRange
      fileSize := (getEffectiveRangeInfo chunkRange params.fileSize).2
      targetSpeedBps }
  { w with
    stats := w.stats ++ [stats]
    chunksStats := w.chunksStats.set chunkRange w.stats.length }

/-- `asyncio.create_task` and the entry in `_chunks_tasks`. -/
def createTask (chunkRange : ChunkRange) (stats : StatsId) (job : Job) : World :=
  { w with
    tasks := w.tasks ++ [{ range := chunkRange, stats, job }]
    chunksTasks := w.chunksTasks.set chunkRange w.tasks.length }

/-- `start_chunk`. -/
def startChunk (chunkRange : ChunkRange) (targetSpeedBps : Option Int) : World :=
  if (w.statsOf chunkRange).any (·.status = .completed) then w
  else if chunkRange ∈ w.chunksTasks.keys then w
  else
    (w.registerChunkStats params chunkRange targetSpeedBps).createTask chunkRange w.stats.length
      .download

/-- `stats.add_limit_observer(limit, stop_cb)`. -/
def addLimitObserver (s : StatsId) (limit : Int) (callback : StopCallback) : World :=
  let (stats, called) := (w.record s).addLimitObserver limit callback
  let w := w.setRecord s stats
  called.elim w w.stopPredecessor

/-- `resize_chunk`. -/
def resizeChunk (currentRange newRange : ChunkRange) : Except CallError World :=
  if ¬ currentRange.contains newRange then .error (.notContained newRange currentRange)
  else
    match w.chunksStats.get? currentRange with
    | none =>
        if currentRange ∉ w.chunksTasks.keys then .error (.rangeNotFound currentRange)
        else .error (.stillInitializing currentRange)
    | some a =>
        if newRange = currentRange then .ok w
        else
          let statsA := w.record a
          if statsA.status ∉ [EDownloadStatus.pending, .downloading, .completed] then
            .error (.notResizable currentRange)
          else
            -- a record that is there under the new range is overwritten, and so is its task
            let b := w.stats.length
            let predecessorTask := w.chunksTasks.get? currentRange
            let w := w.registerChunkStats params newRange statsA.targetSpeedBps
            let w := w.setRecord b ((w.record b).setStatus .awaitingSuccession)
            let w :=
              match newRange.endByte with
              | none => w
              | some e =>
                  -- the predecessor may stop where the new range ends
                  let limit := e - currentRange.start + 1
                  if limit ≠ 0 ∧ statsA.status ∈ [EDownloadStatus.pending, .downloading] then
                    w.addLimitObserver a limit ⟨a, predecessorTask⟩
                  else w
            .ok (w.createTask newRange b (.succession a predecessorTask))

/-! ### `delete_chunk_data` and `cancel_chunk` -/

/-- `delete_chunk_data` from the `pop` on. -/
def popAndDelete (chunkRange : ChunkRange) : World × Progress :=
  match w.chunksStats.get? chunkRange with
  | none => (w, .returned [⟨.deleteChunkData, .none⟩])
  | some s =>
      ({ w with chunksStats := w.chunksStats.erase chunkRange },
        .suspended (.deleting (w.record s).chunkFileName))

/-- `cancel_chunk` returns, to its caller or to `delete_chunk_data`. -/
def cancelReturns (chunkRange : ChunkRange) (thenDelete cancelled : Bool) : World × Progress :=
  if thenDelete then w.popAndDelete chunkRange
  else (w, .returned [⟨.cancelChunk, .bool cancelled⟩])

/-- The `KeyError` of one of the tables leaves `cancel_chunk`, and `delete_chunk_data` if that
called it. -/
def cancelRaises (chunkRange : ChunkRange) (thenDelete : Bool) : World × Progress :=
  (w, .returned [⟨if thenDelete then .deleteChunkData else .cancelChunk,
    .raised (.keyError chunkRange)⟩])

/-- `cancel_chunk` from its `del` on. -/
def cancelJoined (chunkRange : ChunkRange) (thenDelete : Bool) : World × Progress :=
  if chunkRange ∈ w.chunksTasks.keys then
    cancelReturns { w with chunksTasks := w.chunksTasks.erase chunkRange } chunkRange thenDelete
      true
  else w.cancelRaises chunkRange thenDelete

/-- `cancel_chunk` once the init signal is set: the task is cancelled and awaited. -/
def cancelSignalled (chunkRange : ChunkRange) (task : TaskId) (thenDelete : Bool) :
    World × Progress :=
  let w := w.cancelTask task
  if w.TaskDone task then w.cancelJoined chunkRange thenDelete
  else (w, .suspended (.cancelJoin chunkRange task thenDelete))

/-- `init_signal.is_set()`. -/
def initSignal (task : TaskId) : Bool := w.tasks[task]?.any Task.initSignal

/-- `cancel_chunk`. -/
def cancelChunk (chunkRange : ChunkRange) (thenDelete : Bool) : World × Progress :=
  match w.chunksTasks.get? chunkRange with
  | none => w.cancelReturns chunkRange thenDelete false
  | some task =>
      match w.statsOf chunkRange with
      | none => w.cancelRaises chunkRange thenDelete
      | some stats =>
          if stats.status ∈ [EDownloadStatus.downloading, .pending, .awaitingSuccession] then
            if w.initSignal task then w.cancelSignalled chunkRange task thenDelete
            else (w, .suspended (.cancelInit chunkRange task thenDelete))
          else w.cancelReturns chunkRange thenDelete false

/-- `delete_chunk_data`. -/
def deleteChunkData (chunkRange : ChunkRange) : World × Progress :=
  if chunkRange ∈ w.chunksTasks.keys then w.cancelChunk chunkRange true
  else w.popAndDelete chunkRange

/-! ### `_wait_for_chunks` -/

/-- Inside the lock, up to `asyncio.wait`. -/
def waitEntered (timed : Bool) (returnWhen : ReturnWhen) : World × Progress :=
  if w.chunksTasks.keys = [] then (w, .returned [⟨.wait, .batch []⟩])
  else
    ({ w with waitLocked := true },
      .suspended (.waiting w.chunksTasks.values timed returnWhen))

/-- `_wait_for_chunks`. -/
def waitForChunks (timed : Bool) (returnWhen : ReturnWhen) : World × Progress :=
  if w.waitLocked then (w, .suspended (.lockWait timed returnWhen))
  else w.waitEntered timed returnWhen

/-- The condition under which `asyncio.wait` comes back. -/
def WaitOver (allTasks : List TaskId) (timed : Bool) (returnWhen : ReturnWhen) : Prop :=
  timed = true ∨
    match returnWhen with
    | .allCompleted => ∀ t ∈ allTasks, w.TaskDone t
    | .firstCompleted => ∃ t ∈ allTasks, w.TaskDone t

instance (allTasks : List TaskId) (timed : Bool) (returnWhen : ReturnWhen) :
    Decidable (w.WaitOver allTasks timed returnWhen) :=
  match returnWhen with
  | .allCompleted => inferInstanceAs (Decidable (_ ∨ ∀ t ∈ allTasks, w.TaskDone t))
  | .firstCompleted => inferInstanceAs (Decidable (_ ∨ ∃ t ∈ allTasks, w.TaskDone t))

/-- The record of a finished entry, `self._chunks_stats[chunk_range]`. -/
def finishedStats (entry : ChunkRange × TaskId) : Except CallError StatsId :=
  match w.chunksStats.get? entry.1 with
  | none => .error (.keyError entry.1)
  | some s => .ok s

/-- `_wait_for_chunks` after `asyncio.wait`. -/
def waitCollects (allTasks : List TaskId) : World × Progress :=
  let finished := w.chunksTasks.entries.filter fun e => e.2 ∈ allTasks ∧ w.TaskDone e.2
  let w := { w with waitLocked := false }
  match finished.mapM w.finishedStats with
  -- the lock is released, and the entries stay
  | .error e => (w, .returned [⟨.wait, .raised e⟩])
  | .ok completed =>
      ({ w with
        chunksTasks := completed.foldl (fun tasks s => tasks.erase (w.record s).range)
          w.chunksTasks },
        .returned [⟨.wait, .batch completed⟩])

/-! ### `cancel_all_chunks` and `cleanup` -/

/-- What a `cleanup` returns, to its caller or through `merge_chunks`. -/
def cleanupReply (reply : Reply) (ofMerge : Bool) : List Returned :=
  ⟨.cleanup, reply⟩ ::
    if ofMerge then
      [⟨.mergeChunks, match reply with | .raised e => .raised e | _ => .merged params.fileName⟩]
    else []

/-- The failure of a listing or a deletion leaves `cleanup`; `_chunks_stats` stays as it is. -/
def cleanupRaises (ofMerge : Bool) : World × Progress :=
  (w, .returned (cleanupReply params (.raised .storage) ofMerge))

/-- `self._chunks_stats.clear()`. -/
def cleanupDone (ofMerge : Bool) : World × Progress :=
  ({ w with chunksStats := Dict.empty }, .returned (cleanupReply params .none ofMerge))

/-- `cancel_all_chunks` after the `gather`, and what its caller goes on with. -/
def gathered (goal : GatherGoal) : World × Progress :=
  -- `clear()`, which takes what was registered during the gather with it
  let w := { w with chunksTasks := Dict.empty }
  match goal with
  | .cancelAll => (w, .returned [⟨.cancelAllChunks, .none⟩])
  | .cleanup true ofMerge =>
      (w, .suspended (.listing (w.chunksStats.values.map fun s => (w.record s).chunkFileName)
        ofMerge))
  | .cleanup false ofMerge => w.cleanupDone params ofMerge

/-- The body of the loop of `cancel_all_chunks`. -/
def cancelEntry (entry : ChunkRange × TaskId) : World :=
  let w := w.cancelTask entry.2
  match w.chunksStats.get? entry.1 with
  | none => w
  | some s =>
      if (w.record s).status ∈ [EDownloadStatus.pending, .awaitingSuccession] then
        w.setRecord s { w.record s with status := .cancelled }
      else w

/-- `cancel_all_chunks`. -/
def cancelAllChunks (goal : GatherGoal) : World × Progress :=
  let w := w.chunksTasks.entries.foldl cancelEntry w
  if w.chunksTasks.keys = [] then w.gathered params goal
  else (w, .suspended (.gathering w.chunksTasks.values goal))

/-- `cleanup`. -/
def cleanup (deleteFiles ofMerge : Bool) : World × Progress :=
  if w.cleanedUp then (w, .returned (cleanupReply params .none ofMerge))
  else cancelAllChunks params { w with cleanedUp := true } (.cleanup deleteFiles ofMerge)

/-- `cleanup_temp_files` from the listing on, with the deletions that are still to come and whether
one of them has failed. All deletions of the `gather` are made, in the order of the list; the first
failure is raised when they are over. -/
def removeListed (files : List String) (failed ofMerge : Bool) : World × Progress :=
  match files with
  | [] => if failed then w.cleanupRaises params ofMerge else w.cleanupDone params ofMerge
  | _ :: _ => (w, .suspended (.removing files failed ofMerge))

/-! ### `merge_chunks` -/

/-- `merge_chunks`. -/
def mergeChunks (cleanup : Bool) : World × Progress :=
  match mergeConfigs (w.chunksStats.values.map w.record) params.fileSize with
  | .error cause => (w, .returned [⟨.mergeChunks, .raised (.reconstruction cause)⟩])
  | .ok configs => (w, .suspended (.merging (.opening configs) cleanup))

/-- A round of the merge, and the end of `merge_chunks` after the last. -/
def mergeRound (stage : MergeStage) (cleanup ok : Bool) : World × Progress :=
  match mergeStep params.ioBufferSize params.fileName w.files ok stage with
  | (files, .inl stage) => ({ w with files }, .suspended (.merging stage cleanup))
  | (files, .inr (some e)) =>
      ({ w with files }, .returned [⟨.mergeChunks, .raised (.reconstruction (.merge e))⟩])
  | (files, .inr none) =>
      -- the chunks are in the final file now
      if cleanup then World.cleanup params { w with files } true true
      else ({ w with files }, .returned [⟨.mergeChunks, .merged params.fileName⟩])

/-! ### Going on after an `await` -/

/-- A suspended call goes on, if what it awaits is there; `ok` says whether a storage operation
succeeded. -/
def resume (frame : Frame) (ok : Bool) : Option (World × Progress) :=
  match frame with
  | .cancelInit chunkRange task thenDelete =>
      if w.initSignal task then some (w.cancelSignalled chunkRange task thenDelete) else none
  | .cancelJoin chunkRange task thenDelete =>
      if w.TaskDone task then some (w.cancelJoined chunkRange thenDelete) else none
  | .deleting chunkFileName =>
      -- `delete_chunk_data` logs a failure and returns all the same
      let files := if ok then w.files.unlink chunkFileName else w.files
      some ({ w with files }, .returned [⟨.deleteChunkData, .none⟩])
  | .lockWait timed returnWhen =>
      if w.waitLocked then none else some (w.waitEntered timed returnWhen)
  | .waiting allTasks timed returnWhen =>
      if w.WaitOver allTasks timed returnWhen then some (w.waitCollects allTasks) else none
  | .gathering allTasks goal =>
      if ∀ t ∈ allTasks, w.TaskDone t then some (w.gathered params goal) else none
  | .listing files ofMerge =>
      -- only what is there is deleted
      if ok then
        some (w.removeListed params (files.filter fun f => (w.files.lookup f).isSome) false ofMerge)
      else some (w.cleanupRaises params ofMerge)
  | .removing [] failed ofMerge => some (w.removeListed params [] failed ofMerge)
  | .removing (file :: files) failed ofMerge =>
      -- a file that two chunks have is gone when it is deleted for the second one
      if ok ∧ (w.files.lookup file).isSome then
        some (removeListed params { w with files := w.files.unlink file } files failed ofMerge)
      else some (w.removeListed params files true ofMerge)
  | .merging stage cleanup => some (w.mergeRound params stage cleanup ok)

end World

/-! ### The program -/

/-- What happens next: a method is called, a suspended call goes on, or a task has a turn. -/
inductive Event
  | startChunk (chunkRange : ChunkRange) (targetSpeedBps : Option Int)
  | resizeChunk (currentRange newRange : ChunkRange)
  | cancelChunk (chunkRange : ChunkRange)
  | deleteChunkData (chunkRange : ChunkRange)
  | wait (timed : Bool) (returnWhen : ReturnWhen)
  | cancelAllChunks
  | cleanup (deleteFiles : Bool)
  | mergeChunks (cleanup : Bool)
  /-- A suspended call goes on; `ok` says whether a storage operation it awaits succeeds. -/
  | resume (call : Nat) (ok : Bool)
  /-- A task has a turn. -/
  | task (task : TaskId) (event : TaskEvent)
  deriving Repr, DecidableEq

/-- A method that was just called: it returns, or joins the suspended calls. -/
def called : World × Progress → World × List Returned
  | (w, .suspended frame) => ({ w with calls := w.calls ++ [frame] }, [])
  | (w, .returned replies) => (w, replies)

/-- Call `i` went on: it is suspended again, or returns. -/
def resumed (i : Nat) : World × Progress → World × List Returned
  | (w, .suspended frame) => ({ w with calls := w.calls.set i frame }, [])
  | (w, .returned replies) => ({ w with calls := w.calls.eraseIdx i }, replies)

/-- One step of the program. -/
def step (params : ChunkManagerParams) (w : World) : Event → Option (World × List Returned)
  | .startChunk chunkRange speed =>
      some (w.startChunk params chunkRange speed, [⟨.startChunk, .none⟩])
  | .resizeChunk currentRange newRange =>
      match w.resizeChunk params currentRange newRange with
      | .error e => some (w, [⟨.resizeChunk, .raised e⟩])
      | .ok w => some (w, [⟨.resizeChunk, .none⟩])
  | .cancelChunk chunkRange => some (called (w.cancelChunk chunkRange false))
  | .deleteChunkData chunkRange => some (called (w.deleteChunkData chunkRange))
  | .wait timed returnWhen => some (called (w.waitForChunks timed returnWhen))
  | .cancelAllChunks => some (called (w.cancelAllChunks params .cancelAll))
  | .cleanup deleteFiles => some (called (w.cleanup params deleteFiles false))
  | .mergeChunks cleanup => some (called (w.mergeChunks params cleanup))
  | .resume i ok =>
      match w.calls[i]? with
      | none => none
      | some frame => (w.resume params frame ok).map (resumed i)
  | .task i e => (w.taskStep i e).map fun w => (w, [])

/-! ### What a step was -/

section

variable {params : ChunkManagerParams} {w w' : World} {out : List Returned}

theorem step_resizeChunk {currentRange newRange : ChunkRange}
    (h : step params w (.resizeChunk currentRange newRange) = some (w', out)) :
    (∃ e, w.resizeChunk params currentRange newRange = .error e ∧ w' = w ∧
        out = [⟨.resizeChunk, .raised e⟩]) ∨
      w.resizeChunk params currentRange newRange = .ok w' ∧ out = [⟨.resizeChunk, .none⟩] := by
  unfold step at h
  dsimp only at h
  split at h
  · rename_i e herror
    obtain ⟨rfl, rfl⟩ := Prod.mk.inj (Option.some.inj h)
    exact Or.inl ⟨e, herror, rfl, rfl⟩
  · rename_i w₁ hok
    obtain ⟨rfl, rfl⟩ := Prod.mk.inj (Option.some.inj h)
    exact Or.inr ⟨hok, rfl⟩

theorem step_resume {i : Nat} {ok : Bool} (h : step params w (.resume i ok) = some (w', out)) :
    ∃ f result, w.calls[i]? = some f ∧ w.resume params f ok = some result ∧
      resumed i result = (w', out) := by
  unfold step at h
  dsimp only at h
  split at h
  · cases h
  · rename_i f hf
    obtain ⟨result, hresume, heq⟩ := Option.map_eq_some_iff.mp h
    exact ⟨f, result, hf, hresume, heq⟩

theorem step_task {i : TaskId} {e : TaskEvent} (h : step params w (.task i e) = some (w', out)) :
    w.taskStep i e = some w' ∧ out = [] := by
  obtain ⟨w₁, hturn, heq⟩ := Option.map_eq_some_iff.mp h
  obtain ⟨rfl, rfl⟩ := Prod.mk.inj heq
  exact ⟨hturn, rfl⟩

end

end SDownload
