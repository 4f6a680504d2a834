import SDownload.Lib.Dict
import SDownload.Models.Chunk

/-!
# SDownload.Ranges.Operations

The two planners of `range_operations.py`: `calculate_ranges`, which cuts a file
into the ranges to download around what is already cached, and
`calculate_optimal_coverage`, which picks the chunks a finished file is merged
from.

Both are loops over a cursor. The `while` loop that cuts one gap occurs twice in
the source and differs only in the end it gives the last piece, so it is one
definition here (`splitGap`) with that end as a parameter. Loops carry a `Nat`
budget; `splitGap_eq` (`Ranges.Planner`) and `bfs_ne_none` (`Ranges.Coverage`)
say that the budgets handed to them are never what ends a loop.
-/

namespace SDownload

/-! ### `calculate_ranges` -/

/-- The `while temp_start <= gap_end` loop: pieces of `target` bytes, the last one closed by
`closing`. -/
def splitGap (target gapEnd : Int) (closing : Option Int) : Nat → Int → List ChunkRange
  | 0, _ => []
  | fuel + 1, tempStart =>
      if tempStart ≤ gapEnd then
        let remaining := gapEnd - tempStart + 1
        -- the last piece is what is left, and may be the shortest
        if remaining ≤ target then [⟨tempStart, closing⟩]
        else
          let tempEnd := tempStart + target - 1
          ⟨tempStart, some tempEnd⟩ :: splitGap target gapEnd closing fuel (tempEnd + 1)
      else []

/-- The gap from `gapStart` to `gapEnd`, if there is one; every round consumes a byte. -/
def fillGap (target gapStart gapEnd : Int) (closing : Option Int) : List ChunkRange :=
  splitGap target gapEnd closing (gapEnd + 1 - gapStart).toNat gapStart

/-- The loop over the sorted cache and the tail after it. The recursion argument is
`current_pos`; a cached range moves it to the first byte after itself, backwards too when
cached ranges overlap. -/
def planFrom (fileSize target : Int) : Int → List ChunkRange → List ChunkRange
  | currentPos, [] =>
      if currentPos < fileSize then fillGap target currentPos (fileSize - 1) none else []
  | currentPos, cacheRange :: rest =>
      (if currentPos < cacheRange.start then
          fillGap target currentPos (cacheRange.start - 1) (some (cacheRange.start - 1))
        else [])
        ++ cacheRange :: planFrom fileSize target (cacheRange.stop fileSize) rest

/-- `target_chunk_size`. -/
def targetChunkSize (fileSize numParts : Int) : Int :=
  max 1 (Int.fdiv fileSize (if numParts ≤ 0 then 1 else numParts))

/-- `sorted(cache or [], key=lambda x: x.start)`. -/
def sortedCache (cache : Option (List ChunkRange)) : List ChunkRange :=
  (cache.getD []).insertionSort (fun a b => a.start ≤ b.start)

/-- `calculate_ranges`. -/
def calculateRanges (fileSize numParts : Int) (cache : Option (List ChunkRange)) :
    List ChunkRange :=
  planFrom fileSize (targetChunkSize fileSize numParts) 0 (sortedCache cache)

/-! ### `calculate_optimal_coverage` -/

/-- The `ValueError`s of `calculate_optimal_coverage`. -/
inductive CoverageError
  | noChunks
  | gapAtTheBeginning (first : Int)
  | gapDetected
  deriving Repr, DecidableEq

/-- Their texts. -/
def CoverageError.message : CoverageError → String
  | noChunks => "No chunks provided for merge resolution."
  | gapAtTheBeginning first => s!"Gap at the beginning: first chunk starts at {first}"
  | gapDetected => "Gap detected: unable to cover the required file range."

/-- `get_reach(a) > get_reach(b)`, an open end being infinite. -/
def reachGt (a b : ChunkRange) : Bool :=
  match a.endByte, b.endByte with
  | _, none => false
  | none, some _ => true
  | some x, some y => y < x

/-- `position <= get_reach(chunk) + 1`. -/
def reaches (chunk : ChunkRange) (position : Int) : Bool :=
  match chunk.endByte with
  | none => true
  | some e => position ≤ e + 1

/-- One round of step 1: `best_chunk_at[chunk.start] = chunk` unless the chunk kept there
reaches as far. -/
def keepBest (bestChunkAt : Dict Int ChunkRange) (chunk : ChunkRange) : Dict Int ChunkRange :=
  match bestChunkAt.get? chunk.start with
  | none => bestChunkAt.set chunk.start chunk
  | some kept => if reachGt chunk kept then bestChunkAt.set chunk.start chunk else bestChunkAt

/-- Step 1: for each starting position the chunk that reaches the furthest. -/
def bestChunks (chunks : List ChunkRange) : Dict Int ChunkRange :=
  chunks.foldl keepBest Dict.empty

/-- `read_limit` of the fragment that reads `chunk` from `currentPos` up to `nextPos`. -/
def readLimit (chunk : ChunkRange) (currentPos nextPos : Int) : Option Int :=
  let bytesNeeded := nextPos - currentPos
  match chunk.endByte with
  | none => none
  | some e => if e + 1 ≤ currentPos + bytesNeeded then none else some bytesNeeded

/-- Where the search stands: what is queued, each position with the path that leads to it, and
what has been seen. -/
structure SearchState where
  queue : List (Int × List ChunkFragment)
  visited : List Int
  deriving Repr, DecidableEq

/-- The `for next_pos in reversed(reachable_cuts)` loop; `Sum.inl` is its early return. -/
def tryCuts (fileSize : Option Int) (chunk : ChunkRange) (currentPos : Int)
    (path : List ChunkFragment) :
    List Int → SearchState → List ChunkFragment ⊕ SearchState
  | [], st => .inr st
  | nextPos :: rest, st =>
      if nextPos ∈ st.visited then tryCuts fileSize chunk currentPos path rest st
      else
        let newPath := path ++ [⟨chunk, readLimit chunk currentPos nextPos⟩]
        -- the first path that gets to the end has the fewest fragments
        if fileSize = some nextPos then .inl newPath
        else tryCuts fileSize chunk currentPos path rest
          { queue := st.queue ++ [(nextPos, newPath)], visited := nextPos :: st.visited }

/-- One round of the `while queue` loop, at the position just taken from the queue; `Sum.inl`
is a `return`. -/
def bfsStep (fileSize : Option Int) (bestChunkAt : Dict Int ChunkRange) (cutPoints : List Int)
    (currentPos : Int) (path : List ChunkFragment) (st : SearchState) :
    List ChunkFragment ⊕ SearchState :=
  if fileSize = some currentPos then .inl path
  else
    match bestChunkAt.get? currentPos with
    | none => .inr st
    | some chunk =>
        if fileSize = none ∧ chunk.endByte = none then .inl (path ++ [⟨chunk, none⟩])
        else
          let reachableCuts := cutPoints.filter fun cp =>
            decide (currentPos < cp) && reaches chunk cp
          tryCuts fileSize chunk currentPos path reachableCuts.reverse st

/-- The `while queue` loop. `some (some path)` is a `return`, `some none` the end of the loop
without one, and `none` a budget that was too small. -/
def bfs (fileSize : Option Int) (bestChunkAt : Dict Int ChunkRange) (cutPoints : List Int) :
    Nat → SearchState → Option (Option (List ChunkFragment))
  | fuel, st =>
      match st.queue, fuel with
      | [], _ => some none
      | _ :: _, 0 => none
      | (currentPos, path) :: queue, fuel + 1 =>
          match bfsStep fileSize bestChunkAt cutPoints currentPos path { st with queue } with
          | .inl found => some (some found)
          | .inr st' => bfs fileSize bestChunkAt cutPoints fuel st'

/-- `cut_points`: the starting positions and the file size, sorted. -/
def cutPoints (startPositions : List Int) (fileSize : Option Int) : List Int :=
  match fileSize with
  | none => startPositions
  | some size =>
      (if size ∈ startPositions then startPositions else size :: startPositions).insertionSort
        (· ≤ ·)

/-- `calculate_optimal_coverage`. -/
def calculateOptimalCoverage (chunks : List ChunkRange) (fileSize : Option Int) :
    Except CoverageError (List ChunkFragment) :=
  if chunks = [] then .error .noChunks
  else
    let bestChunkAt := bestChunks chunks
    let startPositions := bestChunkAt.keys.insertionSort (· ≤ ·)
    let first := startPositions.headD 0
    if 0 < first then .error (.gapAtTheBeginning first)
    else
      let cuts := cutPoints startPositions fileSize
      match bfs fileSize bestChunkAt cuts (cuts.length + 1) ⟨[(0, [])], [0]⟩ with
      | some (some path) => .ok path
      | _ => .error .gapDetected

end SDownload
