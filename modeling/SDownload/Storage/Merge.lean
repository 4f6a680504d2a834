import Mathlib.Algebra.GroupWithZero.Nat
import SDownload.Lib.FileSystem
import SDownload.Models.Stats
import SDownload.Ranges.Operations

/-!
# SDownload.Storage.Merge

`merge_ranges` of `local_storage.py`, one `await` at a time, and the part of
`reconstruct_file` that decides what to merge.

A merge is a machine: the stage it is at says which storage operation it awaits,
and a round either does that operation or has it fail. The file system may change
between rounds, under the other tasks of the program.
-/

namespace SDownload

/-- The content of a file, or a part of it. -/
abbrev Bytes := List UInt8

/-- The storage directory. -/
abbrev Files := FileSystem String UInt8

/-- An open file: its inode and where the next byte goes. -/
structure Handle where
  ino : Nat
  pos : Nat
  deriving Repr, DecidableEq

/-- `FileRangeParams`. -/
structure FileRangeParams where
  key : String
  startByte : Option Int := none
  endByte : Option Int := none
  deriving Repr, DecidableEq

/-! ### `merge_ranges` -/

/-- What ends a merge early. -/
inductive MergeError
  /-- A source is not there. -/
  | sourceNotFound (key : String)
  /-- The parameters of a source end before they start. -/
  | invalidRange (key : String) (start endByte : Int)
  /-- An operation of the storage raised. -/
  | storage
  deriving Repr, DecidableEq

/-- The source a merge is reading: its inode, where it is, and `remaining_to_read`. -/
structure MergeSource where
  ino : Nat
  pos : Nat
  remainingToRead : Option Int
  deriving Repr, DecidableEq

/-- The operation a merge awaits, with the sources that are still to come. -/
inductive MergeStage
  /-- Opening the destination. -/
  | opening (configs : List FileRangeParams)
  /-- Looking for the next source and opening it. -/
  | next (dest : Handle) (configs : List FileRangeParams)
  /-- Reading a block of a source. -/
  | reading (dest : Handle) (source : MergeSource) (configs : List FileRangeParams)
  /-- Writing that block. -/
  | writing (dest : Handle) (source : MergeSource) (chunk : Bytes) (configs : List FileRangeParams)
  /-- The flush and the closing of the destination, with the error that led there. -/
  | closing (error : Option MergeError)
  deriving Repr, DecidableEq

/-- `read_size`. -/
def readSize (ioBufferSize : Nat) (remainingToRead : Option Int) : Nat :=
  match remainingToRead with
  | some remaining => if remaining < ioBufferSize then remaining.toNat else ioBufferSize
  | none => ioBufferSize

/-- After a write: the next read of the source, or the next source. -/
def afterWrite (dest : Handle) (source : MergeSource) (chunk : Bytes)
    (configs : List FileRangeParams) : MergeStage :=
  let dest := { dest with pos := dest.pos + chunk.length }
  let source := { source with pos := source.pos + chunk.length }
  match source.remainingToRead with
  | none => .reading dest source configs
  | some remaining =>
      let remaining := remaining - chunk.length
      -- the rest of the source is not asked for
      if remaining ≤ 0 then .next dest configs
      else .reading dest { source with remainingToRead := some remaining } configs

/-- The body of the `for` loop up to the first read. -/
def openSource (fs : Files) (dest : Handle) (config : FileRangeParams)
    (configs : List FileRangeParams) : MergeStage :=
  match fs.lookup config.key with
  | none => .closing (some (.sourceNotFound config.key))
  | some ino =>
      let start := config.startByte.getD 0
      match config.endByte with
      | none => .reading dest ⟨ino, start.toNat, none⟩ configs
      | some e =>
          if e - start + 1 < 0 then .closing (some (.invalidRange config.key start e))
          else .reading dest ⟨ino, start.toNat, some (e - start + 1)⟩ configs

/-- One round of `merge_ranges`, whose awaited operation succeeds or fails; `Sum.inr` is its end,
with the error it raises. -/
def mergeStep (ioBufferSize : Nat) (destKey : String) (fs : Files) (ok : Bool) :
    MergeStage → Files × (MergeStage ⊕ Option MergeError)
  | .opening configs =>
      if ok then
        -- what the destination held before is gone from here on
        let (ino, fs) := fs.openWrite destKey
        (fs, .inl (.next ⟨ino, 0⟩ configs))
      else (fs, .inr (some .storage))
  | .next _ [] => (fs, .inl (.closing none))
  | .next dest (config :: configs) =>
      if ok then (fs, .inl (openSource fs dest config configs))
      else (fs, .inl (.closing (some .storage)))
  | .reading dest source configs =>
      if ok then
        let chunk := ((fs.content source.ino).drop source.pos).take
          (readSize ioBufferSize source.remainingToRead)
        -- a source that ends too early is not an error
        if chunk = [] then (fs, .inl (.next dest configs))
        else (fs, .inl (.writing dest source chunk configs))
      else (fs, .inl (.closing (some .storage)))
  | .writing dest source chunk configs =>
      if ok then (fs.writeAt dest.ino dest.pos chunk, .inl (afterWrite dest source chunk configs))
      else (fs, .inl (.closing (some .storage)))
  | .closing error => if ok then (fs, .inr error) else (fs, .inr (some .storage))

/-- Only the flush ends a merge without an error. -/
theorem stage_of_mergeStep_end {ioBufferSize : Nat} {destKey : String} {fs fs' : Files} {ok : Bool}
    {stage : MergeStage} (h : mergeStep ioBufferSize destKey fs ok stage = (fs', .inr none)) :
    stage = .closing none ∧ ok = true := by
  unfold mergeStep at h
  split at h
  · split at h <;> simp at h
  · simp at h
  · split at h <;> simp at h
  · dsimp only at h
    split at h
    · split at h <;> simp at h
    · simp at h
  · split at h <;> simp at h
  · split at h
    · rename_i hok
      obtain rfl := Sum.inr.inj (Prod.mk.inj h).2
      exact ⟨rfl, hok⟩
    · simp at h

/-- Rounds that all succeed, up to the end; `none` is a budget that was too small. -/
def mergeRounds (ioBufferSize : Nat) (destKey : String) :
    Nat → Files → MergeStage → Option (Files × Option MergeError)
  | 0, _, _ => none
  | fuel + 1, fs, stage =>
      match mergeStep ioBufferSize destKey fs true stage with
      | (fs, .inl stage) => mergeRounds ioBufferSize destKey fuel fs stage
      | (fs, .inr error) => some (fs, error)

/-- Two rounds for every byte of a source and two for the source, and three around them. -/
def mergeBudget (fs : Files) (sourceConfigs : List FileRangeParams) : Nat :=
  (sourceConfigs.map fun c => 2 * ((fs.read c.key).getD []).length + 2).sum + 3

/-- `merge_ranges`, when no operation fails and nothing else runs; the budget is enough
(`merge_ranges_exact`). -/
def mergeRanges (ioBufferSize : Nat) (fs : Files) (sourceConfigs : List FileRangeParams)
    (destKey : String) : Option (Files × Option MergeError) :=
  mergeRounds ioBufferSize destKey (mergeBudget fs sourceConfigs) fs (.opening sourceConfigs)

/-- `merge_binary_files`. -/
def mergeBinaryFiles (ioBufferSize : Nat) (fs : Files) (sourceKeys : List String)
    (destKey : String) : Option (Files × Option MergeError) :=
  mergeRanges ioBufferSize fs (sourceKeys.map fun key => { key }) destKey

/-! ### `reconstruct_file` -/

/-- `ReconstructionError`, by where it is raised. -/
inductive ReconstructionError
  | noCompletedChunks
  | coverage (cause : CoverageError)
  | missingStats (range : ChunkRange)
  | merge (cause : MergeError)
  deriving Repr, DecidableEq

variable {κ : Type}

/-- `range_map`. -/
def rangeMap (completed : List (ChunkDownloadStats κ)) : Dict ChunkRange (ChunkDownloadStats κ) :=
  recoveredTable completed

/-- The `FileRangeParams` of one fragment. -/
def fragmentConfig (ranges : Dict ChunkRange (ChunkDownloadStats κ)) (frag : ChunkFragment) :
    Except ReconstructionError FileRangeParams :=
  match ranges.get? frag.range with
  | none => .error (.missingStats frag.range)
  | some stats =>
      .ok {
        key := stats.chunkFileName
        startByte := some 0
        endByte :=
          match frag.readLimitQtBytes with
          | none => none
          | some limit => if limit = 0 then none else some (limit - 1) }

/-- The first half of `reconstruct_file`: what to merge, from the completed chunks. -/
def mergeConfigs (statsList : List (ChunkDownloadStats κ)) (totalFileSize : Option Int) :
    Except ReconstructionError (List FileRangeParams) :=
  let completed := statsList.filter fun s => s.status = .completed
  if completed = [] then .error .noCompletedChunks
  else
    match calculateOptimalCoverage (completed.map (·.range)) totalFileSize with
    | .error cause => .error (.coverage cause)
    | .ok fragments => fragments.mapM (fragmentConfig (rangeMap completed))

/-- `reconstruct_file`, when no operation fails and nothing else runs. -/
def reconstructFile (ioBufferSize : Nat) (fs : Files) (statsList : List (ChunkDownloadStats κ))
    (finalFilename : String) (totalFileSize : Option Int) :
    Option (Files × Except ReconstructionError String) :=
  match mergeConfigs statsList totalFileSize with
  | .error e => some (fs, .error e)
  | .ok configs =>
      match mergeRanges ioBufferSize fs configs finalFilename with
      | none => none
      | some (fs, none) => some (fs, .ok finalFilename)
      | some (fs, some e) => some (fs, .error (.merge e))

end SDownload
