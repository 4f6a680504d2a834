import SDownload.Models.Stats
import SDownload.Ranges.Operations

/-!
# SDownload.Strategies.Strategies

The two built-in download strategies (`multi_chunk_strategy.py`,
`sequential_chunk_strategy.py`) behind the interface the controller sees
(`DownloadStrategyProtocol`): a call reads the download's size, the manager's
stats table and the free connection slots, and returns `Start` actions.

A strategy is an object with state, so a call also returns the object it leaves.
Of the stats table the strategies only ask whether it is empty. `on_end` is left
out; nothing here runs past the end of a download.
-/

namespace SDownload

/-- `DownloadStats`, as far as a strategy reads it. -/
structure DownloadStats where
  fileSize : Int
  deriving Repr, DecidableEq

/-- `limit_size_per_chunk`: 2 MB. -/
def limitSizePerChunk : Int := 2 * 1024 * 1024

/-- `[StrategyAction.Start(range=r) for r in ranges]`. -/
def startActions (ranges : List ChunkRange) : List StartChunkAction :=
  ranges.map fun r => { range := r }

/-- `DownloadStrategyProtocol`: the calls of a strategy whose object is a `σ`, over a stats table
whose observers are `κ`. -/
structure DownloadStrategyProtocol (κ σ : Type) where
  onStart : σ → DownloadStats → Dict ChunkRange (ChunkDownloadStats κ) → Int →
    List StartChunkAction × σ
  onUpdate : σ → DownloadStats → Dict ChunkRange (ChunkDownloadStats κ) → Int →
    List StartChunkAction × σ

variable {κ : Type}

/-! ### `MultiChunkDownloadStrategy` -/

/-- `MultiChunkDownloadStrategy`. -/
structure MultiChunkDownloadStrategy where
  maxConn : Int
  targetQtConn : Int
  useChunkedDownload : Bool
  cache : Option (List ChunkRange)
  initialized : Bool
  deriving Repr, DecidableEq

namespace MultiChunkDownloadStrategy

/-- `__init__`. -/
def init (maxConn : Int) (useChunkedDownload : Bool) (cache : Option (List ChunkRange)) :
    MultiChunkDownloadStrategy :=
  { maxConn, targetQtConn := maxConn, useChunkedDownload, cache, initialized := false }

/-- `_calc_initial_ranges`. No call of the class reaches it. -/
def calcInitialRanges (self : MultiChunkDownloadStrategy) (fileSize : Int) :
    List ChunkRange × MultiChunkDownloadStrategy :=
  if !self.useChunkedDownload || fileSize ≤ 0 then ([⟨0, none⟩], self)
  else
    let self :=
      if Int.fdiv fileSize self.maxConn < limitSizePerChunk then
        { self with targetQtConn := max 1 (Int.fdiv fileSize limitSizePerChunk) }
      else self
    (calculateRanges fileSize self.targetQtConn self.cache, self)

/-- `on_start`. -/
def onStart (self : MultiChunkDownloadStrategy) (dlStats : DownloadStats)
    (chunksStats : Dict ChunkRange (ChunkDownloadStats κ)) (availableSlots : Int) :
    List StartChunkAction × MultiChunkDownloadStrategy :=
  -- a table with recovered chunks counts as a download that was started
  if chunksStats.keys ≠ [] ∨ availableSlots ≤ 0 then ([], self)
  else
    -- the target is a number of parts for the planner, and not a bound on what it returns
    let actualConnTarget := min self.targetQtConn availableSlots
    if actualConnTarget = 0 then ([], self)
    else (startActions (calculateRanges dlStats.fileSize actualConnTarget self.cache), self)

/-- `on_update`. -/
def onUpdate (self : MultiChunkDownloadStrategy) (_ : DownloadStats)
    (_ : Dict ChunkRange (ChunkDownloadStats κ)) (_ : Int) :
    List StartChunkAction × MultiChunkDownloadStrategy :=
  ([], self)

/-- The class as the controller sees it. -/
def strategy : DownloadStrategyProtocol κ MultiChunkDownloadStrategy where
  onStart := onStart
  onUpdate := onUpdate

end MultiChunkDownloadStrategy

/-! ### `SequentialChunkStrategy` -/

/-- `SequentialChunkStrategy`. -/
structure SequentialChunkStrategy where
  maxConn : Int
  useChunkedDownload : Bool
  cache : Option (List ChunkRange)
  pendingRanges : List ChunkRange
  initialized : Bool
  deriving Repr, DecidableEq

namespace SequentialChunkStrategy

/-- `__init__`. -/
def init (maxConn : Int) (useChunkedDownload : Bool) (cache : Option (List ChunkRange)) :
    SequentialChunkStrategy :=
  { maxConn, useChunkedDownload, cache, pendingRanges := [], initialized := false }

/-- `_calc_initial_ranges`. -/
def calcInitialRanges (self : SequentialChunkStrategy) (fileSize : Int) : List ChunkRange :=
  if !self.useChunkedDownload || fileSize ≤ 0 then [⟨0, none⟩]
  else
    -- fewer connections, rather than pieces of less than 2 MB
    let targetQtConn :=
      if Int.fdiv fileSize self.maxConn < limitSizePerChunk then
        max 1 (Int.fdiv fileSize limitSizePerChunk)
      else self.maxConn
    calculateRanges fileSize targetQtConn self.cache

/-- The `for _ in range(slots_to_use)` loop: `pending.pop(0)`, one action each. -/
def popPending : Nat → List ChunkRange → List StartChunkAction × List ChunkRange
  | 0, pending => ([], pending)
  | _ + 1, [] => ([], [])
  | n + 1, rng :: pending =>
      let (actions, left) := popPending n pending
      ({ range := rng } :: actions, left)

/-- `_issue_pending`. -/
def issuePending (self : SequentialChunkStrategy) (availableSlots : Int) :
    List StartChunkAction × SequentialChunkStrategy :=
  if availableSlots ≤ 0 ∨ self.pendingRanges = [] then ([], self)
  else
    let slotsToUse := min availableSlots self.pendingRanges.length
    let (actions, left) := popPending slotsToUse.toNat self.pendingRanges
    (actions, { self with pendingRanges := left })

/-- `on_start`. -/
def onStart (self : SequentialChunkStrategy) (dlStats : DownloadStats)
    (chunksStats : Dict ChunkRange (ChunkDownloadStats κ)) (availableSlots : Int) :
    List StartChunkAction × SequentialChunkStrategy :=
  if chunksStats.keys ≠ [] then ([], self)
  else
    let self :=
      if self.initialized then self
      else
        { self with
          pendingRanges := self.calcInitialRanges dlStats.fileSize
          initialized := true }
    self.issuePending availableSlots

/-- `on_update`. -/
def onUpdate (self : SequentialChunkStrategy) (_ : DownloadStats)
    (_ : Dict ChunkRange (ChunkDownloadStats κ)) (availableSlots : Int) :
    List StartChunkAction × SequentialChunkStrategy :=
  self.issuePending availableSlots

/-- The class as the controller sees it. -/
def strategy : DownloadStrategyProtocol κ SequentialChunkStrategy where
  onStart := onStart
  onUpdate := onUpdate

end SequentialChunkStrategy

/-! ### Runs -/

/-- What an `on_update` call is given. -/
structure UpdateCall (κ : Type) where
  dlStats : DownloadStats
  chunksStats : Dict ChunkRange (ChunkDownloadStats κ)
  availableSlots : Int

namespace DownloadStrategyProtocol

variable {σ : Type}

/-- The actions of a row of `on_update` calls, in order. -/
def updates (strategy : DownloadStrategyProtocol κ σ) :
    σ → List (UpdateCall κ) → List StartChunkAction
  | _, [] => []
  | self, call :: rest =>
      let (actions, self) := strategy.onUpdate self call.dlStats call.chunksStats
        call.availableSlots
      actions ++ updates strategy self rest

/-- The actions of `on_start` and the `on_update` calls after it. -/
def run (strategy : DownloadStrategyProtocol κ σ) (self : σ) (dlStats : DownloadStats)
    (chunksStats : Dict ChunkRange (ChunkDownloadStats κ)) (availableSlots : Int)
    (calls : List (UpdateCall κ)) : List StartChunkAction :=
  let (actions, self) := strategy.onStart self dlStats chunksStats availableSlots
  actions ++ strategy.updates self calls

/-- What each of a row of `on_update` calls returns. -/
def updateCalls (strategy : DownloadStrategyProtocol κ σ) :
    σ → List (UpdateCall κ) → List (List StartChunkAction)
  | _, [] => []
  | self, call :: rest =>
      let (actions, self) := strategy.onUpdate self call.dlStats call.chunksStats
        call.availableSlots
      actions :: updateCalls strategy self rest

/-- What `on_start` returns, and each of the `on_update` calls after it. -/
def runCalls (strategy : DownloadStrategyProtocol κ σ) (self : σ) (dlStats : DownloadStats)
    (chunksStats : Dict ChunkRange (ChunkDownloadStats κ)) (availableSlots : Int)
    (calls : List (UpdateCall κ)) : List (List StartChunkAction) :=
  let (actions, self) := strategy.onStart self dlStats chunksStats availableSlots
  actions :: strategy.updateCalls self calls

end DownloadStrategyProtocol

end SDownload
