import SDownload.Manager.Successions

/-!
# SDownload.Manager.Atomicity

`run_chunk_succession` by itself, stopped at any of its `await`s, and what it then
leaves of a predecessor that is COMPLETED.

`runChunkSuccession` is the whole coroutine over the crop of `cropFileUnder`; every run
of it is turns of the task as the manager's world takes them (`turned_run`), a crop
that does not return with the bytes it really leaves.

The file of the predecessor is cropped in place, and the predecessor keeps its status
until the file has been moved. So a run that ends early leaves every completed record
with its part of the source if and only if it is `Harmless`: it ends before the crop
has touched the file, or the crop had nothing to cut.
-/

namespace SDownload

/-- Where a run of `run_chunk_succession` is stopped: before it begins, while it waits for its
predecessor's task, in the crop, or in the move. -/
structure SuccessionFaults where
  unstarted : Bool := false
  waiting : Bool := false
  crop : CropFaults := {}
  move : Option Stop := none
  deriving Repr, DecidableEq

namespace SuccessionState

/-! ### The coroutine -/

/-- An `await` of the `try` does not return. The predecessor's task has ended. -/
def interrupt (u : SuccessionState) : Interruption → SuccessionState
  | .raises => u.fail .environment
  | .cancelled => (u.handleCancel false).1

/-- `move_data`, and what follows it. An `os.replace` that raises has done nothing. -/
def moveData (faults : SuccessionFaults) (u : SuccessionState) (startCrop endCrop : Int) :
    SuccessionState :=
  let moved := u.files.rename u.predecessor.chunkFileName u.successor.chunkFileName
  match faults.move with
  | some ⟨_, .raises⟩ => u.interrupt .raises
  | some ⟨0, .cancelled⟩ => u.interrupt .cancelled
  | some ⟨_, .cancelled⟩ => { u with files := moved }.interrupt .cancelled
  | none =>
      match u.files.lookup u.predecessor.chunkFileName with
      | none => u.fail .storageNotFound
      | some _ => { u with files := moved }.complete startCrop endCrop

/-- `crop_file`, and what follows it. -/
def cropAndMove (ioBufferSize : Nat) (faults : SuccessionFaults) (u : SuccessionState) :
    SuccessionState :=
  match u.task.phase with
  | .cropping startCrop endCrop =>
      match cropFileUnder faults.crop ioBufferSize u.files u.predecessor.chunkFileName startCrop
          endCrop with
      | (files, .returned) =>
          { u.enter (.moving startCrop endCrop) with files }.moveData faults startCrop endCrop
      | (files, .refused e) => { u with files }.fail e
      | (files, .interrupted cause) => { u with files }.interrupt cause
  | _ => u

/-- `run_chunk_succession`; `predecessorEnd` is how the predecessor's task ends, if there is one. -/
def runChunkSuccession (ioBufferSize : Nat) (faults : SuccessionFaults) (u : SuccessionState)
    (predecessorEnd : Option TaskEnd) : SuccessionState :=
  if faults.unstarted then u.enter (.done .cancelled)
  else
    let u := u.begin predecessorEnd.isSome
    match u.task.phase, predecessorEnd with
    | .awaitingPredecessor, some ended =>
        if faults.waiting then u.interrupt .cancelled
        else (u.succeed ended).cropAndMove ioBufferSize faults
    | _, _ => u.cropAndMove ioBufferSize faults

/-! ### The turns of a run -/

/-- Turns of the task, of which no other task has any meanwhile. -/
inductive Turned (hasPredecessorTask : Bool) (predecessorEnd : Option TaskEnd)
    (u : SuccessionState) : SuccessionState → Prop
  | refl : Turned hasPredecessorTask predecessorEnd u u
  | run {u' u'' : SuccessionState} {e : TaskEvent}
      (before : Turned hasPredecessorTask predecessorEnd u u')
      (turn : u'.run hasPredecessorTask predecessorEnd e = some u'') :
      Turned hasPredecessorTask predecessorEnd u u''
  | cancel {u' u'' : SuccessionState} {effect : Option Bytes}
      (before : Turned hasPredecessorTask predecessorEnd u u')
      (turn : u'.cancel false effect = some (u'', false)) :
      Turned hasPredecessorTask predecessorEnd u u''

variable {ioBufferSize : Nat} {faults : SuccessionFaults} {u u₀ : SuccessionState}
  {predecessorEnd : Option TaskEnd} {hasTask : Bool}

theorem cancelRequested_idem (hfree : u.task.cancelRequested = false) :
    { u with task := { u.task with cancelRequested := false } } = u := by
  rw [← hfree]

theorem turned_moveData {startCrop endCrop : Int} (h : Turned hasTask predecessorEnd u₀ u)
    (hphase : u.task.phase = .moving startCrop endCrop) (hfree : u.task.cancelRequested = false) :
    Turned hasTask predecessorEnd u₀ (u.moveData faults startCrop endCrop) := by
  have hidem := cancelRequested_idem hfree
  unfold moveData
  dsimp only
  split
  · exact h.run (e := .fails none) (by simp only [run, hphase, interrupt])
  · have hturn : u.cancel false none = some (u.interrupt .cancelled, false) := by
      unfold cancel
      rw [hidem]
      simp [hphase, interrupt, handleCancel]
    exact h.cancel hturn
  · have hturn : u.cancel false (some []) = some ({ u with
        files := u.files.rename u.predecessor.chunkFileName u.successor.chunkFileName
        }.interrupt .cancelled, false) := by
      unfold cancel
      rw [hidem]
      simp [hphase, interrupt, handleCancel]
    exact h.cancel hturn
  · split
    · rename_i hlookup
      exact h.run (e := .moved) (by simp only [run, hphase, hlookup])
    · rename_i ino hlookup
      exact h.run (e := .moved) (by simp only [run, hphase, hlookup])

/-- What a crop that does not return leaves is an effect that the turns allow. -/
theorem exists_effect (u : SuccessionState) (startCrop endCrop : Int) : ∃ effect,
    (cropFileUnder faults.crop ioBufferSize u.files u.predecessor.chunkFileName startCrop
        endCrop).1 = run.leaveByName u.files u.predecessor.chunkFileName effect := by
  obtain hsame | ⟨ino, bytes, hlookup, hbytes⟩ :=
    @cropFileUnder_frame faults.crop ioBufferSize u.files u.predecessor.chunkFileName startCrop
      endCrop
  · exact ⟨none, hsame⟩
  · refine ⟨some bytes, ?_⟩
    rw [hbytes, run.leaveByName, hlookup]

theorem turned_cropAndMove {startCrop endCrop : Int} (h : Turned hasTask predecessorEnd u₀ u)
    (hphase : u.task.phase = .cropping startCrop endCrop)
    (haccepts : cropRefuses startCrop endCrop = false) (hfree : u.task.cancelRequested = false) :
    Turned hasTask predecessorEnd u₀ (u.cropAndMove ioBufferSize faults) := by
  unfold cropAndMove
  rw [hphase]
  dsimp only
  obtain ⟨effect, heffect⟩ := @exists_effect ioBufferSize faults u startCrop endCrop
  split
  · rename_i files hcrop
    have hturn : u.run hasTask predecessorEnd .cropped =
        some { u.enter (.moving startCrop endCrop) with files } := by
      simp only [run, hphase, cropFile_of_returned hcrop]
    exact turned_moveData (h.run hturn) rfl hfree
  · rename_i files e hcrop
    obtain ⟨rfl, ⟨hrefuses, -⟩ | herror | ⟨-, rfl⟩⟩ := cropFile_of_refused hcrop
    · rw [haccepts] at hrefuses
      cases hrefuses
    · exact h.run (e := .cropped) (by simp only [run, hphase, herror])
    · exact h.run (e := .fails none) (by simp only [run, hphase, run.leaveByName])
  · rename_i files cause hcrop
    rw [hcrop] at heffect
    obtain rfl : files = _ := heffect
    cases cause with
    | raises => exact h.run (e := .fails effect) (by simp only [run, hphase, interrupt])
    | cancelled =>
        have hturn : u.cancel false effect = some ({ u with
            files := run.leaveByName u.files u.predecessor.chunkFileName effect
            }.interrupt .cancelled, false) := by
          unfold cancel
          rw [cancelRequested_idem hfree]
          simp [hphase, interrupt, handleCancel]
        exact h.cancel hturn

/-- The checks between the end of the predecessor's task and the crop. -/
def Accepts (u : SuccessionState) (ended : TaskEnd) : Prop :=
  (∀ e, ended ≠ .failed e) ∧
    ¬ (u.predecessor.limitQtBytes ≠ 0 ∧
      u.predecessor.bytesDownloaded < u.predecessor.limitQtBytes) ∧
    0 < u.predecessor.bytesDownloaded ∧ cropRefuses u.startCrop u.endCrop = false

theorem succeed_of_accepts {ended : TaskEnd} (h : u.Accepts ended) :
    u.succeed ended = u.enter (.cropping u.startCrop u.endCrop) := by
  obtain ⟨hended, henough, hdata, haccepts⟩ := h
  unfold succeed
  cases ended with
  | failed e => exact absurd rfl (hended e)
  | _ =>
      dsimp only
      rw [if_neg henough, if_neg (not_le.mpr hdata), haccepts]
      rfl

theorem succeed_of_not_accepts {ended : TaskEnd} (h : ¬ u.Accepts ended) :
    u.Failed (u.succeed ended) := by
  unfold succeed
  dsimp only
  split
  · exact failed_failWith _ _
  rename_i hended
  split
  · exact failed_failWith _ _
  rename_i henough
  split
  · exact failed_failWith _ _
  rename_i hdata
  split
  · exact failed_fail _ _
  rename_i haccepts
  exact absurd ⟨hended, henough, not_le.mp hdata, Bool.eq_false_iff.mpr haccepts⟩ h

/-- The state from which the predecessor is succeeded. -/
def waited (u : SuccessionState) (hasPredecessorTask : Bool) : SuccessionState :=
  let u := { u with task := { u.task with initSignal := true } }
  if hasPredecessorTask then u.enter .awaitingPredecessor else u

/-- Until then nothing has happened to the records and the files. -/
theorem waited_same (u : SuccessionState) (hasTask : Bool) :
    (u.waited hasTask).files = u.files ∧ (u.waited hasTask).predecessor = u.predecessor ∧
      (u.waited hasTask).successor = u.successor ∧
      (u.waited hasTask).startCrop = u.startCrop ∧ (u.waited hasTask).endCrop = u.endCrop ∧
      ∀ ended, (u.waited hasTask).Accepts ended ↔ u.Accepts ended := by
  cases hasTask <;> exact ⟨rfl, rfl, rfl, rfl, rfl, fun _ => Iff.rfl⟩

theorem begin_of_awaiting (hawaiting : u.successor.status = .awaitingSuccession) (hasTask : Bool) :
    u.begin hasTask =
      if hasTask then u.waited true else (u.waited false).succeed .returned := by
  unfold begin waited
  dsimp only
  rw [if_neg (not_not.mpr hawaiting)]
  cases hasTask <;> rfl

theorem begin_of_not_awaiting (h : u.successor.status ≠ .awaitingSuccession) (hasTask : Bool) :
    u.Failed (u.begin hasTask) := by
  have hfail := failed_fail { u with task := { u.task with initSignal := true } }
    .notAwaitingSuccession
  unfold begin
  dsimp only
  rw [if_pos h]
  exact ⟨⟨hfail.cancelRequested, hfail.predecessor, hfail.files, hfail.bytesDownloaded,
    hfail.onLimit⟩, hfail.phase, hfail.status⟩

theorem cropAndMove_of_done (h : u.task.Done) : u.cropAndMove ioBufferSize faults = u := by
  obtain ⟨r, hr⟩ := Task.done_iff.mp h
  unfold cropAndMove
  rw [hr]

theorem turned_succeed {ended : TaskEnd} (h : Turned hasTask predecessorEnd u₀ (u.succeed ended))
    (hfree : u.task.cancelRequested = false) :
    Turned hasTask predecessorEnd u₀
      ((u.succeed ended).cropAndMove ioBufferSize faults) := by
  by_cases haccepts : u.Accepts ended
  · rw [succeed_of_accepts haccepts] at h ⊢
    exact turned_cropAndMove h rfl haccepts.2.2.2 hfree
  · obtain ⟨e, hphase⟩ := (succeed_of_not_accepts haccepts).phase
    rw [cropAndMove_of_done (Task.done_iff.mpr ⟨_, hphase⟩)]
    exact h

/-- A run that begins with a successor that does not wait for its succession. -/
theorem runChunkSuccession_of_not_awaiting (hstarted : faults.unstarted = false)
    (h : u.successor.status ≠ .awaitingSuccession) :
    runChunkSuccession ioBufferSize faults u predecessorEnd = u.begin predecessorEnd.isSome := by
  obtain ⟨e, hphase⟩ := (begin_of_not_awaiting h predecessorEnd.isSome).phase
  unfold runChunkSuccession
  rw [hstarted, if_neg Bool.false_ne_true]
  dsimp only
  split
  · rename_i ended heq
    rw [hphase] at heq
    cases heq
  · exact cropAndMove_of_done (Task.done_iff.mpr ⟨_, hphase⟩)

/-- A run that is stopped while it waits. -/
theorem runChunkSuccession_of_waiting {ended : TaskEnd} (hstarted : faults.unstarted = false)
    (hawaiting : u.successor.status = .awaitingSuccession) (hwaiting : faults.waiting = true) :
    runChunkSuccession ioBufferSize faults u (some ended) =
      (u.waited true).interrupt .cancelled := by
  unfold runChunkSuccession
  rw [hstarted, if_neg Bool.false_ne_true, begin_of_awaiting hawaiting, hwaiting]
  rfl

/-- A run that is not stopped before the predecessor is succeeded. -/
theorem runChunkSuccession_of_waited (hstarted : faults.unstarted = false)
    (hawaiting : u.successor.status = .awaitingSuccession)
    (hwaited : predecessorEnd.isSome = true → faults.waiting = false) :
    runChunkSuccession ioBufferSize faults u predecessorEnd =
      ((u.waited predecessorEnd.isSome).succeed
        (predecessorEnd.getD .returned)).cropAndMove ioBufferSize faults := by
  unfold runChunkSuccession
  rw [hstarted, if_neg Bool.false_ne_true, begin_of_awaiting hawaiting]
  cases predecessorEnd with
  | some ended =>
      dsimp only [Option.isSome_some]
      rw [if_pos rfl, hwaited rfl]
      rfl
  | none =>
      dsimp only [Option.isSome_none]
      rw [if_neg Bool.false_ne_true]
      split
      · rename_i heq
        cases heq
      · rfl

/-- **Every run** of the coroutine is turns of its task. -/
theorem turned_run (hphase : u.task.phase = .created) (hfree : u.task.cancelRequested = false) :
    Turned predecessorEnd.isSome predecessorEnd u
      (runChunkSuccession ioBufferSize faults u predecessorEnd) := by
  have hrefl : Turned predecessorEnd.isSome predecessorEnd u u := .refl
  have hbegin : Turned predecessorEnd.isSome predecessorEnd u (u.begin predecessorEnd.isSome) := by
    refine hrefl.run (e := .begins) ?_
    simp only [run, hphase]
  cases hstarted : faults.unstarted with
  | true =>
      have hturn : u.cancel false none = some (u.enter (.done .cancelled), false) := by
        unfold cancel
        rw [cancelRequested_idem hfree]
        simp [hphase]
      unfold runChunkSuccession
      rw [hstarted, if_pos rfl]
      exact hrefl.cancel hturn
  | false =>
      by_cases hawaiting : u.successor.status = .awaitingSuccession
      · rw [begin_of_awaiting hawaiting] at hbegin
        cases predecessorEnd with
        | none =>
            rw [runChunkSuccession_of_waited hstarted hawaiting (by simp)]
            exact turned_succeed hbegin hfree
        | some ended =>
            rw [Option.isSome_some, if_pos rfl] at hbegin
            cases hwaiting : faults.waiting with
            | true =>
                have hturn : (u.waited true).cancel false none =
                    some ((u.waited true).interrupt .cancelled, false) := by
                  unfold cancel
                  rw [cancelRequested_idem (u := u.waited true) hfree]
                  simp [waited, enter, interrupt, handleCancel]
                rw [runChunkSuccession_of_waiting hstarted hawaiting hwaiting]
                exact hbegin.cancel hturn
            | false =>
                rw [runChunkSuccession_of_waited hstarted hawaiting fun _ => hwaiting]
                refine turned_succeed (u := u.waited true) ?_ hfree
                exact hbegin.run (e := .predecessorEnded) rfl
      · rw [runChunkSuccession_of_not_awaiting hstarted hawaiting]
        exact hbegin

/-! ### What a run that ends early leaves -/

/-- The run ends, and its successor is not COMPLETED; the predecessor's record says what it said. -/
structure GivesUp (u u' : SuccessionState) : Prop where
  done : u'.task.Done
  status : u'.successor.status ≠ .completed
  predecessor : u'.predecessor.status = u.predecessor.status
  record : SameRecord u.predecessor u'.predecessor

theorem GivesUp.of_predecessor {u u' v : SuccessionState} (h : v.GivesUp u')
    (hsame : v.predecessor = u.predecessor) : u.GivesUp u' :=
  ⟨h.done, h.status, hsame ▸ h.predecessor, hsame ▸ h.record⟩

theorem Failed.givesUp {u u' : SuccessionState} (h : u.Failed u') : u.GivesUp u' := by
  obtain ⟨e, hphase⟩ := h.phase
  refine ⟨Task.done_iff.mpr ⟨_, hphase⟩, ?_, ?_, ?_⟩
  · rw [h.status]
    exact nofun
  · rw [h.predecessor]
  · rw [h.predecessor]
    exact .refl _

theorem interrupt_givesUp (u : SuccessionState) (cause : Interruption) :
    u.GivesUp (u.interrupt cause) ∧ (u.interrupt cause).files = u.files := by
  cases cause with
  | raises =>
      have h := failed_fail u .environment
      exact ⟨h.givesUp, h.files⟩
  | cancelled => exact ⟨⟨Task.done_iff.mpr ⟨_, rfl⟩, nofun, rfl, ⟨rfl, rfl, rfl⟩⟩, rfl⟩

end SuccessionState

/-- Every record that says COMPLETED names a file with exactly its part of the source. -/
def CompletedExact (source : Bytes) (files : Files) (records : List Stats) : Prop :=
  ∀ s ∈ records, s.status = .completed →
    files.read s.chunkFileName = some (s.range.bytesOf source)

instance (source : Bytes) (files : Files) (records : List Stats) :
    Decidable (CompletedExact source files records) :=
  inferInstanceAs (Decidable (∀ s ∈ records, _))

namespace SuccessionState

/-- A COMPLETED predecessor with its part of the source, and the other records of the manager, each
with a file of its own. -/
structure OfCompleted (source : Bytes) (u : SuccessionState) (others : List Stats) : Prop where
  completed : u.predecessor.status = .completed
  exact : CompletedExact source u.files (u.predecessor :: others)
  apart : ∀ s ∈ others, s.chunkFileName ≠ u.predecessor.chunkFileName ∧
    s.chunkFileName ≠ u.successor.chunkFileName

/-- The succession comes to crop its predecessor's file, of `size` bytes. -/
def ReachesCrop (u : SuccessionState) (predecessorEnd : Option TaskEnd) (size : Nat) : Prop :=
  u.successor.status = .awaitingSuccession ∧ u.Accepts (predecessorEnd.getD .returned) ∧
    u.endCrop < size

end SuccessionState

/-- A crop of these bytes and the move after it do not stop with the bytes changed: the crop is
interrupted and spares them, or it returns and has had nothing to cut. Then the move may still
fail, but not with the file moved to another name. -/
def SuccessionFaults.SparesBytes (faults : SuccessionFaults) (ioBufferSize : Nat)
    (u : SuccessionState) (startCrop endCrop : Int) (bytes : Bytes) : Prop :=
  let targetSize := (endCrop - startCrop + 1).toNat
  (¬ faults.crop.GoesThrough ioBufferSize startCrop.toNat targetSize bytes.length →
    faults.crop.Spares ioBufferSize startCrop.toNat targetSize bytes) ∧
  (faults.crop.GoesThrough ioBufferSize startCrop.toNat targetSize bytes.length →
    ∀ stop ∈ faults.move, (startCrop = 0 ∧ endCrop + 1 = bytes.length) ∧
      (stop.cause = .cancelled → stop.effect ≠ 0 →
        u.successor.chunkFileName = u.predecessor.chunkFileName))

/-- The run does not stop after it has changed the predecessor's file, whose bytes these are: it is
stopped before it comes to crop the file, or after that it spares them. -/
def SuccessionFaults.Harmless (faults : SuccessionFaults) (ioBufferSize : Nat)
    (u : SuccessionState) (predecessorEnd : Option TaskEnd) (bytes : Bytes) : Prop :=
  faults.unstarted = false → (predecessorEnd.isSome = true → faults.waiting = false) →
    u.ReachesCrop predecessorEnd bytes.length →
      faults.SparesBytes ioBufferSize u u.startCrop u.endCrop bytes

namespace SuccessionState

/-- The claim about a run that has ended like this. -/
def KeepsCompleted (source : Bytes) (others : List Stats) (u : SuccessionState) : Prop :=
  u.successor.status ≠ .completed →
    CompletedExact source u.files (u.predecessor :: u.successor :: others)

instance (source : Bytes) (others : List Stats) (u : SuccessionState) :
    Decidable (u.KeepsCompleted source others) :=
  inferInstanceAs (Decidable (_ → _))

variable {source : Bytes} {others : List Stats} {u u' : SuccessionState} {ioBufferSize : Nat}
  {faults : SuccessionFaults} {predecessorEnd : Option TaskEnd}

/-- When the run has given up, the predecessor's file decides. -/
theorem OfCompleted.keeps_iff (h : u.OfCompleted source others) (hgives : u.GivesUp u')
    (hothers : ∀ s ∈ others, u'.files.read s.chunkFileName = u.files.read s.chunkFileName) :
    u'.KeepsCompleted source others ↔
      u'.files.read u.predecessor.chunkFileName = some (u.predecessor.range.bytesOf source) := by
  have hname := hgives.record.chunkFileName
  have hrange := hgives.record.range
  constructor
  · intro hexact
    have hpredecessor := hexact hgives.status u'.predecessor (List.mem_cons_self ..)
      (hgives.predecessor.trans h.completed)
    rw [hname, hrange] at hpredecessor
    exact hpredecessor
  · intro hread hstatus s hs hcompleted
    rcases List.mem_cons.mp hs with rfl | hs
    · rw [hname, hrange]
      exact hread
    rcases List.mem_cons.mp hs with rfl | hs
    · exact absurd hcompleted hstatus
    · rw [hothers s hs]
      exact h.exact s (List.mem_cons_of_mem _ hs) hcompleted

theorem OfCompleted.read (h : u.OfCompleted source others) :
    u.files.read u.predecessor.chunkFileName = some (u.predecessor.range.bytesOf source) :=
  h.exact _ (List.mem_cons_self ..) h.completed

/-- A run that gives up with the directory as it was. -/
theorem OfCompleted.keeps_of_same (h : u.OfCompleted source others) (hgives : u.GivesUp u')
    (hfiles : u'.files = u.files) : u'.KeepsCompleted source others := by
  rw [h.keeps_iff hgives fun s _ => by rw [hfiles], hfiles]
  exact h.read

theorem OfCompleted.lookup (h : u.OfCompleted source others) : ∃ ino,
    u.files.lookup u.predecessor.chunkFileName = some ino ∧
      u.files.content ino = u.predecessor.range.bytesOf source := by
  obtain ⟨ino, hlookup, hcontent⟩ := Option.map_eq_some_iff.mp h.read
  exact ⟨ino, hlookup, hcontent⟩

/-- The files of the other records are not that of the predecessor. -/
theorem OfCompleted.read_overwrite (h : u.OfCompleted source others) {ino : Nat}
    (hlookup : u.files.lookup u.predecessor.chunkFileName = some ino) (bytes : Bytes) {s : Stats}
    (hs : s ∈ others) :
    (u.files.overwrite ino bytes).read s.chunkFileName = u.files.read s.chunkFileName :=
  FileSystem.read_overwrite_of_ne _ fun hsame =>
    (h.apart s hs).1 (FileSystem.lookup_inj hsame hlookup)

/-- **The move** of a file that has been cropped. -/
theorem OfCompleted.keeps_moveData (h : u.OfCompleted source others) {ino : Nat} {bytes : Bytes}
    (hlookup : u.files.lookup u.predecessor.chunkFileName = some ino) {v : SuccessionState}
    (hfiles : v.files = u.files.overwrite ino bytes) (hpredecessor : v.predecessor = u.predecessor)
    (hsuccessor : v.successor = u.successor) (startCrop endCrop : Int) :
    (v.moveData faults startCrop endCrop).task.Done ∧
      ((v.moveData faults startCrop endCrop).KeepsCompleted source others ↔
        ∀ stop ∈ faults.move, bytes = u.predecessor.range.bytesOf source ∧
          (stop.cause = .cancelled → stop.effect ≠ 0 →
            u.successor.chunkFileName = u.predecessor.chunkFileName)) := by
  have hlookup' : v.files.lookup v.predecessor.chunkFileName = some ino := by
    rw [hfiles, hpredecessor]
    exact hlookup
  have hread : v.files.read u.predecessor.chunkFileName = some bytes := by
    rw [hfiles]
    exact FileSystem.read_overwrite_self _ hlookup
  have hothers : ∀ s ∈ others, v.files.read s.chunkFileName = u.files.read s.chunkFileName := by
    intro s hs
    rw [hfiles]
    exact h.read_overwrite hlookup bytes hs
  -- an interruption that leaves the file where it is
  have hstays : ∀ cause, (v.interrupt cause).task.Done ∧
      ((v.interrupt cause).KeepsCompleted source others ↔
        bytes = u.predecessor.range.bytesOf source) := by
    intro cause
    obtain ⟨hgives, hsame⟩ := interrupt_givesUp v cause
    refine ⟨hgives.done, ?_⟩
    rw [h.keeps_iff (hgives.of_predecessor hpredecessor) (by rw [hsame]; exact hothers), hsame,
      hread, Option.some.injEq]
  unfold moveData
  dsimp only
  split
  · rename_i effect hmove
    simpa [hmove] using hstays .raises
  · rename_i hmove
    simpa [hmove] using hstays .cancelled
  · rename_i effect hpositive hmove
    obtain ⟨hgives, hsame⟩ := interrupt_givesUp { v with
      files := v.files.rename v.predecessor.chunkFileName v.successor.chunkFileName } .cancelled
    refine ⟨hgives.done, ?_⟩
    rw [h.keeps_iff (hgives.of_predecessor hpredecessor), hsame]
    · have heffect : effect ≠ 0 := fun hzero => hpositive hzero
      dsimp only
      rw [FileSystem.read_rename hlookup', hpredecessor, hsuccessor, hread, if_pos rfl, hmove]
      by_cases hname : u.predecessor.chunkFileName = u.successor.chunkFileName
      · simp [hname]
      · simp [hname, Ne.symm hname, heffect]
    · intro s hs
      obtain ⟨hne, hne'⟩ := h.apart s hs
      rw [hsame]
      dsimp only
      rw [FileSystem.read_rename hlookup', hpredecessor, hsuccessor, if_neg hne', if_neg hne]
      exact hothers s hs
  · rename_i hmove
    rw [hlookup']
    dsimp only
    refine ⟨Task.done_iff.mpr ⟨_, rfl⟩, iff_of_true (fun hstatus => absurd rfl hstatus) ?_⟩
    rw [hmove]
    exact nofun

/-- **The crop**, and the move after it. -/
theorem OfCompleted.keeps_cropAndMove (h : u.OfCompleted source others) {v : SuccessionState}
    {startCrop endCrop : Int} (hphase : v.task.phase = .cropping startCrop endCrop)
    (haccepts : cropRefuses startCrop endCrop = false) (hfiles : v.files = u.files)
    (hpredecessor : v.predecessor = u.predecessor) (hsuccessor : v.successor = u.successor) :
    let bytes := u.predecessor.range.bytesOf source
    (v.cropAndMove ioBufferSize faults).task.Done ∧
      ((v.cropAndMove ioBufferSize faults).KeepsCompleted source others ↔
        (endCrop < bytes.length → faults.SparesBytes ioBufferSize u startCrop endCrop bytes)) := by
  obtain ⟨ino, hlookup, hcontent⟩ := h.lookup
  intro bytes
  have haccepted : endCrop < bytes.length → _ := fun hlt =>
    @cropFileUnder_spec faults.crop ioBufferSize u.files u.predecessor.chunkFileName ino startCrop
      endCrop hlookup haccepts (hcontent ▸ hlt)
  rw [hcontent] at haccepted
  have hexceeds : ¬ endCrop < bytes.length → _ := fun hge =>
    @cropFileUnder_exceeds faults.crop ioBufferSize u.files u.predecessor.chunkFileName ino
      startCrop endCrop hlookup (hcontent ▸ not_lt.mp hge)
  -- a crop that does not return
  have hstops : ∀ u', u.GivesUp u' →
      u'.files = (cropFileUnder faults.crop ioBufferSize u.files u.predecessor.chunkFileName
        startCrop endCrop).1 →
      (cropFileUnder faults.crop ioBufferSize u.files u.predecessor.chunkFileName startCrop
        endCrop).2 ≠ .returned → u'.task.Done ∧ (u'.KeepsCompleted source others ↔
          (endCrop < bytes.length →
            faults.SparesBytes ioBufferSize u startCrop endCrop bytes)) := by
    intro u' hgives hleft hended
    refine ⟨hgives.done, ?_⟩
    by_cases hlt : endCrop < bytes.length
    · obtain ⟨hreturns, hspares⟩ := haccepted hlt
      have hnot := fun hthrough => hended (hreturns.mpr hthrough)
      rw [h.keeps_iff hgives fun s hs => ?_, hleft, hspares hended]
      · exact ⟨fun hspared _ => ⟨fun _ => hspared, fun hthrough => absurd hthrough hnot⟩,
          fun hall => (hall hlt).1 hnot⟩
      · rw [hleft]
        obtain hsame | ⟨ino', bytes', hlookup', hbytes'⟩ :=
          @cropFileUnder_frame faults.crop ioBufferSize u.files u.predecessor.chunkFileName
            startCrop endCrop
        · rw [hsame]
        · rw [hbytes']
          exact h.read_overwrite hlookup' bytes' hs
    · exact iff_of_true (h.keeps_of_same hgives (hleft.trans (hexceeds hlt).1))
        fun hlt' => absurd hlt' hlt
  unfold cropAndMove
  rw [hphase]
  dsimp only
  rw [hfiles, hpredecessor]
  split
  · rename_i files' hcrop
    have hlt : endCrop < bytes.length := by
      by_contra hge
      exact (hexceeds hge).2 (congrArg Prod.snd hcrop)
    obtain ⟨hstart, hle⟩ := cropRefuses_eq_false.mp haccepts
    have hthrough := (haccepted hlt).1.mp (congrArg Prod.snd hcrop)
    have hcropped : files' = u.files.overwrite ino (cropBytes bytes startCrop endCrop) := by
      have hok := cropFile_of_returned hcrop
      rw [cropFile_of_lt hlookup (hcontent ▸ hlt), hcontent] at hok
      exact (Except.ok.inj hok).symm
    obtain ⟨hdone, hkeeps⟩ := @OfCompleted.keeps_moveData _ _ _ faults h ino
      (cropBytes bytes startCrop endCrop) hlookup
      { v.enter (.moving startCrop endCrop) with files := files' } hcropped hpredecessor hsuccessor
      startCrop endCrop
    refine ⟨hdone, hkeeps.trans ?_⟩
    rw [cropBytes_eq_iff hstart hle hlt]
    exact ⟨fun hall _ => ⟨fun hnot => absurd hthrough hnot, fun _ => hall⟩,
      fun hall => (hall hlt).2 hthrough⟩
  · rename_i files' e hcrop
    rw [hcrop] at hstops
    have hfail := failed_fail { v with predecessor := u.predecessor, files := files' } e
    exact hstops _ (hfail.givesUp.of_predecessor rfl) hfail.files nofun
  · rename_i files' cause hcrop
    rw [hcrop] at hstops
    obtain ⟨hgives, hleft⟩ := interrupt_givesUp
      { v with predecessor := u.predecessor, files := files' } cause
    exact hstops _ (hgives.of_predecessor rfl) hleft nofun

end SuccessionState

open SuccessionState

/-- **A succession of a COMPLETED chunk**, stopped wherever `faults` says: it ends, and if it has
not completed, every record that says COMPLETED has its part of the source, if and only if the run
is harmless. -/
theorem failed_succession_atomic_iff (source : Bytes) (ioBufferSize : Nat)
    (faults : SuccessionFaults) (predecessorEnd : Option TaskEnd) (others : List Stats)
    (u : SuccessionState) (h : u.OfCompleted source others) :
    let u' := runChunkSuccession ioBufferSize faults u predecessorEnd
    u'.task.Done ∧ (u'.KeepsCompleted source others ↔
      faults.Harmless ioBufferSize u predecessorEnd (u.predecessor.range.bytesOf source)) := by
  intro u'
  -- a run that ends with the file as it was
  have hearly : ∀ hdone : u'.task.Done, (u'.successor.status ≠ .completed → u.GivesUp u') →
      u'.files = u.files →
        faults.Harmless ioBufferSize u predecessorEnd (u.predecessor.range.bytesOf source) →
          u'.task.Done ∧ (u'.KeepsCompleted source others ↔ faults.Harmless ioBufferSize u
            predecessorEnd (u.predecessor.range.bytesOf source)) := by
    intro hdone hgives hfiles hharmless
    exact ⟨hdone, iff_of_true
      (fun hstatus => h.keeps_of_same (hgives hstatus) hfiles hstatus) hharmless⟩
  cases hstarted : faults.unstarted with
  | true =>
      have hu' : u' = u.enter (.done .cancelled) := if_pos hstarted
      have hdone : u'.task.Done := Task.done_iff.mpr ⟨_, by rw [hu']; rfl⟩
      refine hearly hdone (fun hstatus => ⟨hdone, hstatus, ?_, ?_⟩) (by rw [hu']; rfl) ?_
      · rw [hu']
        rfl
      · rw [hu']
        exact .refl _
      · intro hnot
        rw [hstarted] at hnot
        cases hnot
  | false =>
      by_cases hawaiting : u.successor.status = .awaitingSuccession
      · by_cases hwaited : predecessorEnd.isSome = true → faults.waiting = false
        · have hu' : u' = _ := runChunkSuccession_of_waited hstarted hawaiting hwaited
          obtain ⟨hfiles, hpredecessor, hsuccessor, hstart, hend, hsame⟩ :=
            waited_same u predecessorEnd.isSome
          by_cases haccepts : u.Accepts (predecessorEnd.getD .returned)
          · rw [succeed_of_accepts ((hsame _).mpr haccepts), hstart, hend] at hu'
            obtain ⟨hdone, hkeeps⟩ := @OfCompleted.keeps_cropAndMove source others u ioBufferSize
              faults h ((u.waited predecessorEnd.isSome).enter (.cropping u.startCrop u.endCrop))
              u.startCrop u.endCrop rfl haccepts.2.2.2 hfiles hpredecessor hsuccessor
            rw [hu']
            refine ⟨hdone, hkeeps.trans ⟨fun hspares _ _ hreaches => hspares hreaches.2.2, ?_⟩⟩
            exact fun hharmless hlt => hharmless hstarted hwaited ⟨hawaiting, haccepts, hlt⟩
          · have hfailed := succeed_of_not_accepts (mt (hsame _).mp haccepts)
            have hgives := hfailed.givesUp.of_predecessor hpredecessor
            rw [cropAndMove_of_done hgives.done] at hu'
            rw [← hu'] at hgives hfailed
            exact hearly hgives.done (fun _ => hgives) (hfailed.files.trans hfiles)
              fun _ _ hreaches => absurd hreaches.2.1 haccepts
        · obtain ⟨hsome, hwaiting⟩ := Classical.not_imp.mp hwaited
          obtain ⟨ended, rfl⟩ := Option.isSome_iff_exists.mp hsome
          have hu' : u' = _ :=
            runChunkSuccession_of_waiting hstarted hawaiting (Bool.not_eq_false _ ▸ hwaiting)
          obtain ⟨hsameFiles, hpredecessor, -⟩ := waited_same u true
          obtain ⟨hgives, hfiles⟩ := interrupt_givesUp (u.waited true) .cancelled
          rw [← hu'] at hgives hfiles
          exact hearly hgives.done (fun _ => hgives.of_predecessor hpredecessor)
            (hfiles.trans hsameFiles) fun _ hwaited' => absurd hwaited' hwaited
      · have hu' : u' = _ := runChunkSuccession_of_not_awaiting hstarted hawaiting
        have hfailed := begin_of_not_awaiting hawaiting predecessorEnd.isSome
        rw [← hu'] at hfailed
        exact hearly hfailed.givesUp.done (fun _ => hfailed.givesUp) hfailed.files
          fun _ _ hreaches => absurd hreaches.1 hawaiting

/-- Four bytes, COMPLETED, whose first half a successor is to take over. -/
def halving : SuccessionState where
  task := { range := ⟨0, some 1⟩, stats := 1, job := .succession 0 none }
  successor :=
    { chunkFileName := formatChunkFileName ⟨0, some 1⟩ "f"
      range := ⟨0, some 1⟩
      fileSize := some 2
      status := .awaitingSuccession }
  predecessor :=
    { chunkFileName := formatChunkFileName ⟨0, some 3⟩ "f"
      range := ⟨0, some 3⟩
      fileSize := some 4
      bytesDownloaded := 4
      status := .completed }
  files := (FileSystem.empty.create (formatChunkFileName ⟨0, some 3⟩ "f")).overwrite 0 [1, 2, 3, 4]

theorem halving_ofCompleted : halving.OfCompleted [1, 2, 3, 4] [] :=
  ⟨rfl, by decide, by simp⟩

theorem failed_succession_atomic_stat :
    let u' := runChunkSuccession 1 { crop := { stop := some (.stat, ⟨0, .raises⟩) } } halving none
    u'.task.Done ∧ u'.KeepsCompleted [1, 2, 3, 4] [] ∧ u'.successor.status = .error := by
  obtain ⟨hdone, hkeeps⟩ := failed_succession_atomic_iff [1, 2, 3, 4] 1
    { crop := { stop := some (.stat, ⟨0, .raises⟩) } } none [] halving halving_ofCompleted
  refine ⟨hdone, hkeeps.mpr fun _ _ _ => ⟨fun _ => Or.inr (Or.inl nofun), fun hthrough => ?_⟩,
    by decide⟩
  exact absurd hthrough.2.1 nofun

/-- **A move that fails** leaves a COMPLETED chunk of four bytes with a file of two. -/
theorem failed_succession_spoils :
    ¬ ∀ (source : Bytes) (ioBufferSize : Nat) (faults : SuccessionFaults)
      (predecessorEnd : Option TaskEnd) (others : List Stats) (u : SuccessionState),
      u.OfCompleted source others →
        u.predecessor.range.contains u.successor.range = true →
          (runChunkSuccession ioBufferSize faults u predecessorEnd).KeepsCompleted source
            others := by
  intro h
  have hkeeps := h [1, 2, 3, 4] 1 { move := some ⟨0, .raises⟩ } none [] halving
    halving_ofCompleted (by decide)
  exact absurd hkeeps (by decide)

end SDownload
