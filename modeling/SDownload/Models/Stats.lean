import SDownload.Lib.Dict
import SDownload.Models.Chunk

/-!
# SDownload.Models.Stats

The record a chunk's task and its manager share (`stats_models.py`): status, byte
counter, and the limit observer a pending succession places on it.

The counter's method is swapped when an observer is set (`_add_no_limit` and
`_add_with_limit`); `limited` says which of the two is bound. A callback is data
of an arbitrary type `κ`, and the operations that may call it return the call.
Times, speed and progress feed nothing modelled here and are left out.
-/

namespace SDownload

/-- `EDownloadStatus`. -/
inductive EDownloadStatus
  | pending
  | downloading
  | awaitingSuccession
  | deprecated
  | completed
  | cancelled
  | error
  deriving Repr, DecidableEq

/-- The exceptions that end a chunk's task, other than a cancellation. `environment` stands for
whatever the server, the throttler or the operating system raises. -/
inductive TaskError
  | integrity (expected got : Int)
  | predecessorFailed (predecessor : ChunkRange) (cause : TaskError)
  | insufficientData (predecessor : ChunkRange) (got limit : Int)
  | noData (predecessor successor : ChunkRange)
  | notAwaitingSuccession
  | cropParameters
  | cropExceedsFile (endByte currentSize : Int)
  | storageNotFound
  | environment
  deriving Repr, DecidableEq

/-- Their texts. -/
def TaskError.message : TaskError → String
  | integrity expected got => s!"Chunk size error: expected {expected} bytes, got {got} bytes"
  | predecessorFailed predecessor cause =>
      "Predecessor " ++ predecessor.str ++ " failed: " ++ cause.message
  | insufficientData predecessor got limit =>
      "Insufficient data from " ++ predecessor.str ++ s!": {got}/{limit} bytes"
  | noData predecessor successor =>
      "Predecessor " ++ predecessor.str ++ " provided no data for succession to " ++
        successor.str ++ ". Succession cannot result in a COMPLETED chunk without data."
  | notAwaitingSuccession => "Successor is not in AWAITING_SUCCESSION state"
  | cropParameters => "Parameters must be greater than 0 and start byte must be less than end byte"
  | cropExceedsFile endByte currentSize =>
      s!"Crop operation failed: end_byte {endByte} exceeds file size {currentSize}"
  | storageNotFound => "Storage resource not found"
  | environment => "Storage or communication failure"

/-- `ChunkDownloadStats`. -/
structure ChunkDownloadStats (κ : Type) where
  chunkFileName : String
  range : ChunkRange
  fileSize : Option Int
  bytesDownloaded : Int := 0
  status : EDownloadStatus := .pending
  targetSpeedBps : Option Int := none
  limitQtBytes : Int := 0
  onLimit : Option κ := none
  limited : Bool := false
  lastError : Option TaskError := none
  deriving Repr, DecidableEq

namespace ChunkDownloadStats

variable {κ : Type}

instance : Inhabited (ChunkDownloadStats κ) :=
  ⟨{ chunkFileName := "", range := default, fileSize := none }⟩

/-- `add_qt_bytes_downloaded`, through whichever method is bound, and the callback it calls. -/
def addQtBytesDownloaded (s : ChunkDownloadStats κ) (qtBytes : Int) :
    ChunkDownloadStats κ × Option κ :=
  let counted := { s with bytesDownloaded := s.bytesDownloaded + qtBytes }
  if s.limited then
    if s.limitQtBytes ≤ counted.bytesDownloaded then
      ({ counted with onLimit := none, limited := false }, s.onLimit)
    else (counted, none)
  else (counted, none)

/-- `add_limit_observer`: the callback is called at once when the limit is already reached. -/
def addLimitObserver (s : ChunkDownloadStats κ) (qtMaxUsefulBytes : Int) (callback : κ) :
    ChunkDownloadStats κ × Option κ :=
  if qtMaxUsefulBytes ≤ s.bytesDownloaded then (s, some callback)
  else
    ({ s with limitQtBytes := qtMaxUsefulBytes, onLimit := some callback, limited := true }, none)

/-- `remove_limit_observer`. -/
def removeLimitObserver (s : ChunkDownloadStats κ) : ChunkDownloadStats κ :=
  { s with onLimit := none, limitQtBytes := 0, limited := false }

/-- `set_status`; no caller passes `ERROR`, which `set_status` refuses. -/
def setStatus (s : ChunkDownloadStats κ) (status : EDownloadStatus) : ChunkDownloadStats κ :=
  { s with status }

/-- `set_error`. -/
def setError (s : ChunkDownloadStats κ) (e : TaskError) : ChunkDownloadStats κ :=
  { s with status := .error, lastError := some e }

end ChunkDownloadStats

/-- The `_chunks_stats` that `ChunkManager.__init__` builds from its `recovered_stats`. -/
def recoveredTable {κ : Type} (recoveredStats : List (ChunkDownloadStats κ)) :
    Dict ChunkRange (ChunkDownloadStats κ) :=
  recoveredStats.foldl (fun table stat => table.set stat.range stat) Dict.empty

end SDownload
