import SDownload.Lib.Run
import SDownload.Manager.Atomicity

/-!
# SDownload.Manager.Slices

What a successor is that `run_chunk_succession` leaves COMPLETED, whatever became of
its predecessor.

The predecessor's task has ended, and its file holds what has been downloaded of it
(`HoldsPrefix`). The crop refuses to keep more than the file has, so a bounded
successor that is COMPLETED is its part of the source (`completedSlice_iff`). An
**open** successor is cropped to the end of the file instead, and the cancellation of
the predecessor is taken for the expected one: then it is COMPLETED with as much as
had come by then.
-/

namespace SDownload

namespace SuccessionState

/-! ### A run that comes to its end -/

/-- The predecessor's file holds what has been downloaded of its range. -/
def HoldsPrefix (source : Bytes) (u : SuccessionState) : Prop :=
  ∃ bytes, u.files.read u.predecessor.chunkFileName = some bytes ∧
    (bytes.length : Int) = u.predecessor.bytesDownloaded ∧
    bytes <+: source.drop u.predecessor.range.start.toNat

/-- A successor that says COMPLETED is exactly its part of the source. -/
def CompletedSlice (source : Bytes) (u : SuccessionState) : Prop :=
  u.successor.status = .completed →
    u.files.read u.successor.chunkFileName = some (u.successor.range.bytesOf source) ∧
      u.successor.bytesDownloaded = (u.successor.range.bytesOf source).length

instance (source : Bytes) (u : SuccessionState) : Decidable (u.CompletedSlice source) :=
  inferInstanceAs (Decidable (_ → _))

/-- The run is not stopped, its successor waits, its predecessor has provided enough for the crop,
and neither the crop nor the move is interrupted. -/
def Completes (ioBufferSize : Nat) (faults : SuccessionFaults) (u : SuccessionState)
    (predecessorEnd : Option TaskEnd) : Prop :=
  let size := u.predecessor.bytesDownloaded.toNat
  faults.unstarted = false ∧ (predecessorEnd.isSome = true → faults.waiting = false) ∧
    u.ReachesCrop predecessorEnd size ∧
    faults.crop.GoesThrough ioBufferSize u.startCrop.toNat (u.endCrop - u.startCrop + 1).toNat
      size ∧
    faults.move = none

variable {ioBufferSize : Nat} {faults : SuccessionFaults} {u v : SuccessionState}
  {predecessorEnd : Option TaskEnd} {bytes : Bytes} {startCrop endCrop : Int}

/-- The successor's record and file once the move is over. -/
structure Succeeded (bytes : Bytes) (startCrop endCrop : Int) (u u' : SuccessionState) : Prop where
  status : u'.successor.status = .completed
  range : u'.successor.range = u.successor.range
  read : u'.files.read u'.successor.chunkFileName = some bytes
  bytesDownloaded : u'.successor.bytesDownloaded = endCrop - startCrop + 1

/-- **The move** completes the successor exactly when it is not interrupted. -/
theorem moveData_spec (hread : v.files.read v.predecessor.chunkFileName = some bytes) :
    (faults.move = none →
      Succeeded bytes startCrop endCrop v (v.moveData faults startCrop endCrop)) ∧
    (faults.move ≠ none →
      (v.moveData faults startCrop endCrop).successor.status ≠ .completed) := by
  obtain ⟨ino, hlookup, -⟩ := Option.map_eq_some_iff.mp hread
  unfold moveData
  dsimp only
  split
  · rename_i hmove
    exact ⟨fun hnone => absurd (hmove.symm.trans hnone) nofun,
      fun _ => (interrupt_givesUp v .raises).1.status⟩
  · rename_i hmove
    exact ⟨fun hnone => absurd (hmove.symm.trans hnone) nofun,
      fun _ => (interrupt_givesUp v .cancelled).1.status⟩
  · rename_i hmove
    exact ⟨fun hnone => absurd (hmove.symm.trans hnone) nofun,
      fun _ => (interrupt_givesUp _ .cancelled).1.status⟩
  · rename_i hmove
    rw [hlookup]
    refine ⟨fun _ => ⟨rfl, rfl, ?_, rfl⟩, fun hnot => absurd hmove hnot⟩
    show (v.files.rename v.predecessor.chunkFileName v.successor.chunkFileName).read
      v.successor.chunkFileName = some bytes
    rw [FileSystem.read_rename hlookup, if_pos rfl]
    exact hread

/-- **The crop and the move** complete the successor exactly when there is enough to crop and
neither is interrupted. -/
theorem cropAndMove_spec (hphase : v.task.phase = .cropping startCrop endCrop)
    (haccepts : cropRefuses startCrop endCrop = false)
    (hread : v.files.read v.predecessor.chunkFileName = some bytes) :
    (endCrop < bytes.length ∧ faults.crop.GoesThrough ioBufferSize startCrop.toNat
        (endCrop - startCrop + 1).toNat bytes.length ∧ faults.move = none →
      Succeeded (cropBytes bytes startCrop endCrop) startCrop endCrop v
        (v.cropAndMove ioBufferSize faults)) ∧
    (¬ (endCrop < bytes.length ∧ faults.crop.GoesThrough ioBufferSize startCrop.toNat
        (endCrop - startCrop + 1).toNat bytes.length ∧ faults.move = none) →
      (v.cropAndMove ioBufferSize faults).successor.status ≠ .completed) := by
  obtain ⟨ino, hlookup, hcontent⟩ := Option.map_eq_some_iff.mp hread
  -- the crop returns only if there is enough and nothing interrupts it
  have hreturns : (cropFileUnder faults.crop ioBufferSize v.files v.predecessor.chunkFileName
      startCrop endCrop).2 = .returned ↔
      endCrop < bytes.length ∧ faults.crop.GoesThrough ioBufferSize startCrop.toNat
        (endCrop - startCrop + 1).toNat bytes.length := by
    by_cases hlt : endCrop < bytes.length
    · have hspec := (@cropFileUnder_spec faults.crop ioBufferSize v.files
        v.predecessor.chunkFileName ino startCrop endCrop hlookup haccepts (hcontent ▸ hlt)).1
      rw [hcontent] at hspec
      exact hspec.trans ⟨fun h => ⟨hlt, h⟩, And.right⟩
    · have hexceeds := (@cropFileUnder_exceeds faults.crop ioBufferSize v.files
        v.predecessor.chunkFileName ino startCrop endCrop hlookup
        (hcontent ▸ not_lt.mp hlt)).2
      exact iff_of_false hexceeds fun h => hlt h.1
  have hnot : (cropFileUnder faults.crop ioBufferSize v.files v.predecessor.chunkFileName
      startCrop endCrop).2 ≠ .returned → ¬ (endCrop < bytes.length ∧
        faults.crop.GoesThrough ioBufferSize startCrop.toNat (endCrop - startCrop + 1).toNat
          bytes.length ∧ faults.move = none) :=
    fun hstops hall => hstops (hreturns.mpr ⟨hall.1, hall.2.1⟩)
  unfold cropAndMove
  rw [hphase]
  dsimp only
  split
  · rename_i files hcrop
    obtain ⟨hlt, hthrough⟩ := hreturns.mp (congrArg Prod.snd hcrop)
    have hok := cropFile_of_returned hcrop
    rw [cropFile_of_lt hlookup (hcontent ▸ hlt), hcontent] at hok
    obtain rfl := Except.ok.inj hok
    obtain ⟨hdone, hstops⟩ := @moveData_spec faults
      { v.enter (.moving startCrop endCrop) with
        files := v.files.overwrite ino (cropBytes bytes startCrop endCrop) }
      (cropBytes bytes startCrop endCrop) startCrop endCrop
      (FileSystem.read_overwrite_self _ hlookup)
    refine ⟨fun hall => ?_, fun hall => hstops fun hmove => hall ⟨hlt, hthrough, hmove⟩⟩
    have hsucceeded := hdone hall.2.2
    exact ⟨hsucceeded.status, hsucceeded.range, hsucceeded.read, hsucceeded.bytesDownloaded⟩
  · rename_i files e hcrop
    have hended := hnot (by rw [hcrop]; exact nofun)
    exact ⟨fun hall => absurd hall hended, fun _ => (failed_fail _ e).givesUp.status⟩
  · rename_i files cause hcrop
    have hended := hnot (by rw [hcrop]; exact nofun)
    exact ⟨fun hall => absurd hall hended, fun _ => (interrupt_givesUp _ cause).1.status⟩

/-- **A run** completes its successor exactly when `Completes` says so. -/
theorem runChunkSuccession_spec (hstatus : u.successor.status ≠ .completed)
    (hread : u.files.read u.predecessor.chunkFileName = some bytes)
    (hlen : (bytes.length : Int) = u.predecessor.bytesDownloaded) :
    (Completes ioBufferSize faults u predecessorEnd →
      Succeeded (cropBytes bytes u.startCrop u.endCrop) u.startCrop u.endCrop u
        (runChunkSuccession ioBufferSize faults u predecessorEnd)) ∧
    (¬ Completes ioBufferSize faults u predecessorEnd →
      (runChunkSuccession ioBufferSize faults u predecessorEnd).successor.status ≠
        .completed) := by
  have hsize : u.predecessor.bytesDownloaded.toNat = bytes.length := by omega
  unfold Completes
  rw [hsize]
  dsimp only
  by_cases hstarted : faults.unstarted = false
  · by_cases hawaiting : u.successor.status = .awaitingSuccession
    · by_cases hwaited : predecessorEnd.isSome = true → faults.waiting = false
      · obtain ⟨hfiles, hpredecessor, hsuccessor, hstart, hend, hsame⟩ :=
          waited_same u predecessorEnd.isSome
        rw [runChunkSuccession_of_waited hstarted hawaiting hwaited]
        by_cases haccepts : u.Accepts (predecessorEnd.getD .returned)
        · rw [succeed_of_accepts ((hsame _).mpr haccepts), hstart, hend]
          obtain ⟨hdone, hstops⟩ := @cropAndMove_spec ioBufferSize faults
            ((u.waited predecessorEnd.isSome).enter (.cropping u.startCrop u.endCrop)) bytes
            u.startCrop u.endCrop rfl haccepts.2.2.2
            (by
              show (u.waited predecessorEnd.isSome).files.read
                (u.waited predecessorEnd.isSome).predecessor.chunkFileName = some bytes
              rw [hfiles, hpredecessor]
              exact hread)
          constructor
          · intro hall
            obtain ⟨-, -, hreaches, hrest⟩ := hall
            have hsucceeded := hdone ⟨hreaches.2.2, hrest⟩
            exact ⟨hsucceeded.status,
              hsucceeded.range.trans (congrArg ChunkDownloadStats.range hsuccessor),
              hsucceeded.read, hsucceeded.bytesDownloaded⟩
          · intro hnot
            exact hstops fun hall =>
              hnot ⟨hstarted, hwaited, ⟨hawaiting, haccepts, hall.1⟩, hall.2⟩
        · have hfailed := succeed_of_not_accepts (mt (hsame _).mp haccepts)
          rw [cropAndMove_of_done hfailed.givesUp.done]
          exact ⟨fun hall => absurd hall.2.2.1.2.1 haccepts, fun _ => hfailed.givesUp.status⟩
      · obtain ⟨hsome, hwaiting⟩ := Classical.not_imp.mp hwaited
        obtain ⟨ended, rfl⟩ := Option.isSome_iff_exists.mp hsome
        rw [runChunkSuccession_of_waiting hstarted hawaiting (Bool.not_eq_false _ ▸ hwaiting)]
        exact ⟨fun hall => absurd hall.2.1 hwaited,
          fun _ => (interrupt_givesUp (u.waited true) .cancelled).1.status⟩
    · rw [runChunkSuccession_of_not_awaiting hstarted hawaiting]
      exact ⟨fun hall => absurd hall.2.2.1.1 hawaiting,
        fun _ => (begin_of_not_awaiting hawaiting predecessorEnd.isSome).givesUp.status⟩
  · have hunstarted : runChunkSuccession ioBufferSize faults u predecessorEnd =
        u.enter (.done .cancelled) := if_pos (Bool.not_eq_false _ ▸ hstarted)
    rw [hunstarted]
    exact ⟨fun hall => absurd hall.1 hstarted, fun _ => hstatus⟩

/-! ### The bytes of the successor -/

/-- What a crop of the predecessor's file keeps. -/
theorem cropBytes_of_holdsPrefix {source : Bytes} {e : Int}
    (hstart : 0 ≤ u.predecessor.range.start)
    (hfront : bytes <+: source.drop u.predecessor.range.start.toNat)
    (haccepts : cropRefuses u.startCrop endCrop = false) (hlt : endCrop < bytes.length)
    (hend : endCrop = e - u.predecessor.range.start) :
    cropBytes bytes u.startCrop endCrop =
      (source.drop u.successor.range.start.toNat).take
        (e + 1 - u.successor.range.start).toNat := by
  obtain ⟨hle, hse⟩ := cropRefuses_eq_false.mp haccepts
  unfold startCrop at hle hse ⊢
  subst hend
  exact cropBytes_of_drop hstart (by omega) (by omega) hfront hlt

/-- **The bytes** of a successor that a run completes are its part of the source if it is bounded,
or if the predecessor's file goes on to the end of the source. -/
theorem Completes.bytes_iff {source : Bytes} (h : Completes ioBufferSize faults u predecessorEnd)
    (hstart : 0 ≤ u.predecessor.range.start)
    (hlen : (bytes.length : Int) = u.predecessor.bytesDownloaded)
    (hfront : bytes <+: source.drop u.predecessor.range.start.toNat) :
    (cropBytes bytes u.startCrop u.endCrop = u.successor.range.bytesOf source ∧
        u.endCrop - u.startCrop + 1 = (u.successor.range.bytesOf source).length) ↔
      (u.successor.range.endByte ≠ none ∨
        u.predecessor.range.start + u.predecessor.bytesDownloaded = source.length) := by
  obtain ⟨-, -, ⟨-, ⟨-, -, hdata, haccepts⟩, hlt⟩, -⟩ := h
  have hsize : u.predecessor.bytesDownloaded.toNat = bytes.length := by omega
  rw [hsize] at hlt
  obtain ⟨hle, hse⟩ := cropRefuses_eq_false.mp haccepts
  have hlength := length_cropBytes hle hse hlt
  have hwhole : (bytes.length : Int) ≤ source.length - u.predecessor.range.start := by
    have hfit := hfront.length_le
    rw [List.length_drop] at hfit
    omega
  have hstartCrop : u.startCrop = u.successor.range.start - u.predecessor.range.start := rfl
  cases hend : u.successor.range.endByte with
  | some e =>
      -- the end of the crop is the end of the range, and a crop that goes through reaches it
      have hendCrop : u.endCrop = e - u.predecessor.range.start := by
        unfold endCrop
        rw [hend]
      have hcrop := cropBytes_of_holdsPrefix hstart hfront haccepts hlt hendCrop
      have hbytes : cropBytes bytes u.startCrop u.endCrop = u.successor.range.bytesOf source := by
        rw [hcrop]
        unfold ChunkRange.bytesOf ChunkRange.stop
        rw [hend]
      refine iff_of_true ⟨hbytes, ?_⟩ (Or.inl nofun)
      rw [← hbytes]
      exact hlength.symm
  | none =>
      -- the end of the crop is the last byte counted, which need not be the last of the source
      have hendCrop : u.endCrop =
          u.predecessor.range.start + u.predecessor.bytesDownloaded - 1 -
            u.predecessor.range.start := by
        unfold endCrop
        rw [hend]
        dsimp only
        omega
      have hcrop := cropBytes_of_holdsPrefix hstart hfront haccepts hlt hendCrop
      have hpart : u.successor.range.bytesOf source =
          source.drop u.successor.range.start.toNat := by
        unfold ChunkRange.bytesOf ChunkRange.stop
        rw [hend]
        refine List.take_of_length_le ?_
        rw [List.length_drop]
        dsimp only
        omega
      rw [hpart]
      constructor
      · intro hexact
        have hshort := hexact.2
        rw [List.length_drop] at hshort
        exact Or.inr (by omega)
      · intro hreached
        have hall := hreached.resolve_left fun hne => hne rfl
        have hbytes : cropBytes bytes u.startCrop u.endCrop =
            source.drop u.successor.range.start.toNat := by
          rw [hcrop]
          refine List.take_of_length_le ?_
          rw [List.length_drop]
          omega
        refine ⟨hbytes, ?_⟩
        rw [← hbytes]
        exact hlength.symm

end SuccessionState

open SuccessionState

/-- **A COMPLETED successor is its part of the source** if and only if it is bounded, or its
predecessor's file goes on to the end of the source, or the run does not complete it. -/
theorem completedSlice_iff (source : Bytes) (ioBufferSize : Nat) (faults : SuccessionFaults)
    (predecessorEnd : Option TaskEnd) (u : SuccessionState)
    (hstart : 0 ≤ u.predecessor.range.start) (hholds : u.HoldsPrefix source)
    (hstatus : u.successor.status ≠ .completed) :
    (runChunkSuccession ioBufferSize faults u predecessorEnd).CompletedSlice source ↔
      u.successor.range.endByte ≠ none ∨
        u.predecessor.range.start + u.predecessor.bytesDownloaded = source.length ∨
        ¬ Completes ioBufferSize faults u predecessorEnd := by
  obtain ⟨bytes, hread, hlen, hfront⟩ := hholds
  obtain ⟨hdone, hstops⟩ := @runChunkSuccession_spec ioBufferSize faults u predecessorEnd bytes
    hstatus hread hlen
  by_cases hcompletes : Completes ioBufferSize faults u predecessorEnd
  · have hsucceeded := hdone hcompletes
    have hbytes := hcompletes.bytes_iff hstart hlen hfront
    unfold CompletedSlice
    rw [hsucceeded.read, hsucceeded.range, hsucceeded.bytesDownloaded, Option.some.injEq, hbytes]
    constructor
    · intro h
      rcases h hsucceeded.status with hbounded | hreached
      · exact Or.inl hbounded
      · exact Or.inr (Or.inl hreached)
    · intro h _
      rcases h with hbounded | hreached | hnot
      · exact Or.inl hbounded
      · exact Or.inr hreached
      · exact absurd hcompletes hnot
  · exact iff_of_true (fun hcompleted => absurd hcompleted (hstops hcompletes))
      (Or.inr (Or.inr hcompletes))

/-- A file of unknown size, cancelled after its first two bytes, of which a successor is to take
over all but the first. -/
def cancelledShort : SuccessionState where
  task := { range := ⟨1, none⟩, stats := 1, job := .succession 0 (some 0) }
  successor :=
    { chunkFileName := formatChunkFileName ⟨1, none⟩ "f"
      range := ⟨1, none⟩
      fileSize := none
      status := .awaitingSuccession }
  predecessor :=
    { chunkFileName := formatChunkFileName ⟨0, none⟩ "f"
      range := ⟨0, none⟩
      fileSize := none
      bytesDownloaded := 2
      status := .cancelled }
  files := (FileSystem.empty.create (formatChunkFileName ⟨0, none⟩ "f")).overwrite 0 [1, 2]

theorem cancelledShort_holdsPrefix (rest : Bytes) : cancelledShort.HoldsPrefix ([1, 2] ++ rest) :=
  ⟨[1, 2], by decide, rfl, List.prefix_append _ _⟩

/-- The two bytes are all there is. -/
theorem completedSlice_two :
    (runChunkSuccession 1 {} cancelledShort (some .cancelled)).CompletedSlice [1, 2] :=
  (completedSlice_iff [1, 2] 1 {} (some .cancelled) cancelledShort (by decide)
    (cancelledShort_holdsPrefix []) (by decide)).mpr (Or.inr (Or.inl rfl))

/-- The manager gets there: a chunk of a file of four bytes is cancelled while its successor waits
for it. -/
def cancelledRun : List Event :=
  [.startChunk ⟨0, none⟩ none, .task 0 .begins, .task 0 .opened, .task 0 (.piece [1, 2]),
    .task 0 .written, .resizeChunk ⟨0, none⟩ ⟨1, none⟩, .task 1 .begins, .cancelChunk ⟨0, none⟩,
    .task 0 (.cancelled none), .task 0 .closed, .resume 0 true, .task 1 .predecessorEnded,
    .task 1 .cropped, .task 1 .moved]

/-- **Bytes are missing** from a COMPLETED chunk: one of the three it should have. -/
theorem completedSlice_fails :
    (¬ ∀ (source : Bytes) (ioBufferSize : Nat) (faults : SuccessionFaults)
      (predecessorEnd : Option TaskEnd) (u : SuccessionState),
      0 ≤ u.predecessor.range.start → u.predecessor.range.contains u.successor.range = true →
        u.HoldsPrefix source → u.successor.status ≠ .completed →
          (runChunkSuccession ioBufferSize faults u predecessorEnd).CompletedSlice source) ∧
    let w := runTo (step ⟨"f", none, 1⟩) (fun _ _ => True) (World.init FileSystem.empty [])
      cancelledRun
    (w.statsOf ⟨1, none⟩).map (fun s => (s.status, s.bytesDownloaded,
        w.files.read s.chunkFileName)) = some (.completed, 1, some [2]) ∧
      ChunkRange.bytesOf ⟨1, none⟩ [1, 2, 3, 4] = [2, 3, 4] := by
  constructor
  · intro h
    have hexact := h [1, 2, 3, 4] 1 {} (some .cancelled) cancelledShort (by decide) (by decide)
      (cancelledShort_holdsPrefix [3, 4]) (by decide)
    exact absurd hexact (by decide)
  · decide

end SDownload
