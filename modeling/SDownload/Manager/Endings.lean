import SDownload.Manager.Successions
import SDownload.Manager.Inversion

/-!
# SDownload.Manager.Endings

How a chunk's task ends.

Three writers set the status of a record: its own task, the succession that takes
its data, and `cancel_all_chunks`, which does it for the tasks whose coroutine will
never run. `Task.Owned` says what holds of a task and the record it was created
with at every `await`; each writer keeps it. A cancellation that arrives before the
first turn is the one place where the coroutine writes nothing, so the invariant of
a run (`Ending`) has to know that only `cancel_all_chunks` asks such a task to stop.
That tasks begin in the order of their creation is what keeps a succession from
cancelling a predecessor that has not begun.
-/

namespace SDownload

/-- The statuses in which a chunk may be left. -/
def EDownloadStatus.Terminal : EDownloadStatus → Prop
  | .completed | .deprecated | .cancelled | .error => True
  | .pending | .downloading | .awaitingSuccession => False

instance (status : EDownloadStatus) : Decidable status.Terminal := by
  unfold EDownloadStatus.Terminal
  cases status <;> infer_instance

/-- The coroutine runs, and is not in its cancellation handler. -/
def Phase.Underway : Phase → Prop
  | .created | .cancellingPredecessor | .done _ => False
  | _ => True

/-- A task and the record it was created with. -/
structure Task.Owned (t : Task) (s : Stats) : Prop where
  fresh : t.phase = .created →
    t.initSignal = false ∧ s.bytesDownloaded = 0 ∧ s.status ≠ .downloading
  asked : t.phase = .created → t.cancelRequested = true → s.status.Terminal
  stopping : t.phase = .cancellingPredecessor → s.status.Terminal
  done : t.Done → s.status.Terminal
  completed : s.status = .completed → t.Done

/-- The same, of a task that has had a turn. -/
structure Task.Begun (t : Task) (s : Stats) : Prop extends t.Owned s where
  begun : t.phase ≠ .created

/-- A task that runs and has not set a status at its end. -/
theorem Task.Begun.underway {t : Task} {s : Stats} (hphase : t.phase.Underway)
    (hstatus : s.status ≠ .completed) : t.Begun s := by
  have hcreated : t.phase ≠ .created := by
    intro h
    rw [h] at hphase
    exact hphase
  refine { fresh := fun h => absurd h hcreated, asked := fun h => absurd h hcreated,
           stopping := ?_, done := ?_, completed := fun h => absurd h hstatus, begun := hcreated }
  · intro h
    rw [h] at hphase
    exact hphase.elim
  · intro hdone
    obtain ⟨r, hr⟩ := Task.done_iff.mp hdone
    rw [hr] at hphase
    exact hphase.elim

/-- A task that has ended. -/
theorem Task.Begun.ended {t : Task} {s : Stats} {result : TaskEnd} (hphase : t.phase = .done result)
    (hstatus : s.status.Terminal) : t.Begun s := by
  have hcreated : t.phase ≠ .created := by rw [hphase]; simp
  exact { fresh := fun h => absurd h hcreated, asked := fun h => absurd h hcreated,
          stopping := fun _ => hstatus, done := fun _ => hstatus,
          completed := fun _ => Task.done_iff.mpr ⟨result, hphase⟩, begun := hcreated }

namespace Task.Owned

theorem not_completed {t : Task} {s : Stats} (h : t.Owned s) (hlive : ¬ t.Done) :
    s.status ≠ .completed :=
  fun hstatus => hlive (h.completed hstatus)

/-- Somebody else deprecates the record, or changes nothing that is looked at. -/
theorem of_record {t : Task} {s s' : Stats} (h : t.Owned s)
    (hbytes : s'.bytesDownloaded = s.bytesDownloaded)
    (hstatus : s'.status = s.status ∨ s'.status = .deprecated) : t.Owned s' := by
  rcases hstatus with hstatus | hstatus
  · obtain ⟨h1, h2, h3, h4, h5⟩ := h
    constructor <;> rw [hstatus]
    · rw [hbytes]
      exact h1
    · exact h2
    · exact h3
    · exact h4
    · exact h5
  · constructor <;> rw [hstatus]
    · intro hcreated
      obtain ⟨hsignal, hcount, -⟩ := h.fresh hcreated
      exact ⟨hsignal, hbytes.trans hcount, by decide⟩
    · exact fun _ _ => trivial
    · exact fun _ => trivial
    · exact fun _ => trivial
    · intro heq
      cases heq

/-- A task that has begun may be asked to stop. -/
theorem of_asked {t t' : Task} {s : Stats} (h : t.Owned s) (hbegun : t.phase ≠ .created)
    (hasked : t.Asked t') : t'.Owned s := by
  obtain ⟨c, rfl⟩ := hasked
  exact ⟨fun hcreated => absurd hcreated hbegun, fun hcreated => absurd hcreated hbegun,
    h.stopping, h.done, h.completed⟩

end Task.Owned

/-! ### Turns of the coroutines -/

namespace DownloadState

variable {d d' : DownloadState}

/-- However a download ends, its status is terminal. -/
theorem finish_terminal (d : DownloadState) (e : TaskEnd) :
    (d.finish e).stats.status.Terminal := by
  cases e with
  | returned =>
      simp only [finish]
      split
      · split <;> trivial
      · trivial
  | cancelled =>
      simp only [finish]
      split
      · split
        · trivial
        · rename_i hdeprecated
          rw [not_not.mp hdeprecated]
          trivial
      · trivial
  | failed e => trivial

theorem begun_finish (d : DownloadState) (e : TaskEnd) :
    (d.finish e).task.Begun (d.finish e).stats := by
  obtain ⟨r, hr⟩ := d.finish_task e
  exact .ended (congrArg Task.phase hr) (d.finish_terminal e)

/-- A turn of a download is past its beginning, and leaves task and record in order. -/
theorem begun_step {e : TaskEvent} {cb : Option StopCallback} (h : d.task.Owned d.stats)
    (hstep : d.step e = some (d', cb)) : d'.task.Begun d'.stats := by
  have hstatus := h.not_completed (not_done_of_step hstep)
  unfold step at hstep
  split at hstep
  · rename_i hasked
    obtain ⟨d'', hcancel, heq⟩ := Option.map_eq_some_iff.mp hstep
    obtain ⟨rfl, -⟩ := Prod.mk.inj heq
    unfold cancel at hcancel
    dsimp only at hcancel
    split at hcancel <;> first | cases hcancel; done | rename_i hphase
    all_goals obtain rfl := Option.some.inj hcancel
    · -- no line of the coroutine has run
      exact .ended rfl (h.asked hphase hasked)
    · exact begun_finish _ _
    · exact .underway trivial hstatus
    · exact .underway trivial hstatus
    · exact .underway trivial hstatus
  · cases hstep
  · unfold run at hstep
    split at hstep <;> first | cases hstep; done | skip
    all_goals obtain ⟨rfl, -⟩ := Prod.mk.inj (Option.some.inj hstep)
    · exact .underway trivial (by simp [ChunkDownloadStats.setStatus])
    · exact .underway trivial hstatus
    · exact begun_finish _ _
    · exact .underway trivial fun hcompleted =>
        hstatus ((addQtBytesDownloaded_fields _ _).2.1.symm.trans hcompleted)
    · exact .underway trivial hstatus
    · exact .underway trivial hstatus
    · exact .underway trivial hstatus
    · exact .underway trivial (by simpa [enter] using hstatus)
    · exact begun_finish _ _
    · exact begun_finish _ _

end DownloadState

namespace SuccessionState

variable {u u' : SuccessionState}

/-- What a turn of a succession may do to its predecessor: nothing that is looked at, or deprecate
it, when the succession has completed. -/
structure Spares (u u' : SuccessionState) : Prop where
  bytesDownloaded : u'.predecessor.bytesDownloaded = u.predecessor.bytesDownloaded
  onLimit : ∀ cb, u'.predecessor.onLimit = some cb → u.predecessor.onLimit = some cb
  status : u'.predecessor.status = u.predecessor.status ∨
    u'.predecessor.status = .deprecated ∧ u'.task.phase = .done .returned ∧
      u'.successor.status = .completed

theorem Spares.of_eq (h : u'.predecessor = u.predecessor) : u.Spares u' :=
  ⟨by rw [h], fun cb hcb => by rw [← h]; exact hcb, Or.inl (by rw [h])⟩

/-- A turn of a succession leaves task and record in order, places no callback, and spares the
predecessor. -/
structure Orderly (u u' : SuccessionState) : Prop where
  begun : u'.task.Begun u'.successor
  onLimit : u'.successor.onLimit = u.successor.onLimit
  spares : u.Spares u'

/-- Only the records matter of where a turn starts. -/
theorem Orderly.of_records {u₁ : SuccessionState} (h : u₁.Orderly u')
    (hsuccessor : u₁.successor.onLimit = u.successor.onLimit)
    (hpredecessor : u₁.predecessor = u.predecessor) : u.Orderly u' := by
  refine ⟨h.begun, h.onLimit.trans hsuccessor, ?_⟩
  obtain ⟨h1, h2, h3⟩ := h.spares
  rw [hpredecessor] at h1 h2 h3
  exact ⟨h1, h2, h3⟩

theorem Failed.orderly (h : u.Failed u') : u.Orderly u' := by
  obtain ⟨e, hphase⟩ := h.phase
  exact ⟨.ended hphase (by rw [h.status]; trivial), h.onLimit, .of_eq h.predecessor⟩

/-- A turn that leaves the succession at another `await`. -/
theorem orderly_underway (hstatus : u.successor.status ≠ .completed)
    (hphase : u'.task.phase.Underway) (hsuccessor : u'.successor = u.successor)
    (hpredecessor : u'.predecessor = u.predecessor) : u.Orderly u' :=
  ⟨.underway hphase (hsuccessor ▸ hstatus), by rw [hsuccessor], .of_eq hpredecessor⟩

theorem orderly_succeed (hstatus : u.successor.status ≠ .completed) (e : TaskEnd) :
    u.Orderly (u.succeed e) := by
  rcases u.succeed_cases e with hfailed | hcrops
  · exact hfailed.orderly
  · exact orderly_underway hstatus (by rw [hcrops.phase]; trivial) hcrops.successor
      hcrops.predecessor

theorem orderly_begin (hstatus : u.successor.status ≠ .completed) (hasPredecessorTask : Bool) :
    u.Orderly (u.begin hasPredecessorTask) := by
  unfold begin
  dsimp only
  split
  · exact (failed_fail _ _).orderly.of_records rfl rfl
  · split
    · exact orderly_underway hstatus trivial rfl rfl
    · exact (orderly_succeed (by exact hstatus) .returned).of_records rfl rfl

theorem orderly_abandon (hterminal : u.successor.status.Terminal) : u.Orderly u.abandon :=
  ⟨.ended rfl hterminal, rfl, rfl, fun _ hcb => (Option.some_ne_none _ hcb.symm).elim, Or.inl rfl⟩

theorem orderly_handleCancel (u : SuccessionState) (predecessorRuns : Bool) :
    u.Orderly (u.handleCancel predecessorRuns).1 := by
  cases predecessorRuns with
  | true =>
      refine ⟨?_, rfl, .of_eq rfl⟩
      exact ⟨⟨nofun, nofun, fun _ => trivial, nofun, nofun⟩, nofun⟩
  | false => exact (orderly_abandon (u := { u with successor := u.successor.setStatus .cancelled })
      trivial).of_records rfl rfl

theorem orderly_run {hasPredecessorTask : Bool} {predecessorEnd : Option TaskEnd} {e : TaskEvent}
    (h : u.task.Owned u.successor) (hstatus : u.successor.status ≠ .completed)
    (hrun : u.run hasPredecessorTask predecessorEnd e = some u') : u.Orderly u' := by
  unfold run at hrun
  split at hrun <;> first | cases hrun; done | rename_i hphase
  · obtain rfl := Option.some.inj hrun
    exact orderly_begin hstatus _
  · obtain ⟨e, -, rfl⟩ := Option.map_eq_some_iff.mp hrun
    exact orderly_succeed hstatus e
  · split at hrun
    · obtain rfl := Option.some.inj hrun
      exact (failed_fail _ _).orderly
    · obtain rfl := Option.some.inj hrun
      exact orderly_underway hstatus trivial rfl rfl
  · obtain rfl := Option.some.inj hrun
    exact (failed_fail _ _).orderly.of_records rfl rfl
  · split at hrun
    · obtain rfl := Option.some.inj hrun
      exact (failed_fail _ _).orderly
    · obtain rfl := Option.some.inj hrun
      exact ⟨.ended rfl trivial, rfl, rfl, fun _ hcb => hcb, Or.inr ⟨rfl, rfl, rfl⟩⟩
  · obtain rfl := Option.some.inj hrun
    exact (failed_fail _ _).orderly
  · -- the handler has set the status when it began to wait
    have hterminal := h.stopping hphase
    split at hrun
    · cases hrun
    · obtain rfl := Option.some.inj hrun
      exact ⟨.ended rfl hterminal, rfl, .of_eq rfl⟩
    · obtain rfl := Option.some.inj hrun
      exact orderly_abandon hterminal

/-- A succession that is done has no turn. -/
theorem not_done_of_step {hasPredecessorTask stops : Bool} {predecessorEnd : Option TaskEnd}
    {e : TaskEvent} (h : u.step hasPredecessorTask predecessorEnd e = some (u', stops)) :
    ¬ u.task.Done := by
  intro hdone
  obtain ⟨r, hr⟩ := Task.done_iff.mp hdone
  unfold step at h
  split at h
  · simp [cancel, hr] at h
  · cases h
  · obtain ⟨u'', hrun, -⟩ := Option.map_eq_some_iff.mp h
    exact not_done_of_run hrun hdone

/-- **A turn of a succession** is orderly. -/
theorem orderly_step {hasPredecessorTask stops : Bool} {predecessorEnd : Option TaskEnd}
    {e : TaskEvent} (h : u.task.Owned u.successor)
    (hstep : u.step hasPredecessorTask predecessorEnd e = some (u', stops)) : u.Orderly u' := by
  have hstatus := h.not_completed (not_done_of_step hstep)
  unfold step at hstep
  split at hstep
  · rename_i hasked
    unfold cancel at hstep
    dsimp only at hstep
    split at hstep <;> first | cases hstep; done | rename_i hphase
    all_goals obtain ⟨rfl, -⟩ := Prod.mk.inj (Option.some.inj hstep)
    · -- no line of the coroutine has run
      exact ⟨.ended rfl (h.asked hphase hasked), rfl, .of_eq rfl⟩
    · exact (orderly_handleCancel _ _).of_records rfl rfl
    · exact (orderly_handleCancel _ _).of_records rfl rfl
    · exact (orderly_handleCancel _ _).of_records rfl rfl
    · exact (orderly_abandon (by exact h.stopping hphase)).of_records rfl rfl
  · cases hstep
  · obtain ⟨u'', hrun, heq⟩ := Option.map_eq_some_iff.mp hstep
    obtain ⟨rfl, -⟩ := Prod.mk.inj heq
    exact orderly_run h hstatus hrun

end SuccessionState

/-! ### The invariant of a run -/

theorem Task.Asked.later {t t' : Task} (h : t.Asked t') : t.Later t' := by
  obtain ⟨c, rfl⟩ := h
  exact ⟨rfl, rfl, rfl, fun _ hr => hr⟩

/-- The suspended calls of the methods that drop no record. -/
def Frame.keepsRecords : Frame → Bool
  | .cancelInit _ _ thenDelete | .cancelJoin _ _ thenDelete => !thenDelete
  | .lockWait .. | .waiting .. => true
  | .gathering _ goal => goal = .cancelAll
  | .deleting _ | .listing .. | .removing .. | .merging .. => false

namespace World

/-- Task `i` has had a turn. -/
def Begun (w : World) (i : TaskId) : Prop := ∀ t, w.tasks[i]? = some t → t.phase ≠ .created

/-- The invariant: every task is in order with its record, which no other task has; tasks have
begun in the order of their indices; a succession is younger than its predecessor; observers stop
the owner of their record, and entries agree with the record of their range. -/
structure Ending (w : World) : Prop where
  owned : ∀ (i : TaskId) (t : Task), w.tasks[i]? = some t → t.Owned (w.record t.stats)
  bound : ∀ (i : TaskId) (t : Task), w.tasks[i]? = some t → t.stats < w.stats.length
  unique : ∀ (i j : TaskId) (t t' : Task), w.tasks[i]? = some t → w.tasks[j]? = some t' →
    t'.stats = t.stats → j = i
  order : ∀ (i j : TaskId) (t t' : Task), w.tasks[i]? = some t → w.tasks[j]? = some t' → j < i →
    t'.phase = .created → t.phase = .created
  succession : ∀ (i : TaskId) (t : Task) p k, w.tasks[i]? = some t → t.job = .succession p k →
    p < t.stats ∧ ∀ j ∈ k, j < i
  observer : ∀ (i : TaskId) (t : Task) cb, w.tasks[i]? = some t →
    (w.record t.stats).onLimit = some cb → ∀ j ∈ cb.predecessorTask, j = i
  entry : ∀ r i, w.chunksTasks.get? r = some i → ∃ t, w.tasks[i]? = some t ∧
    w.chunksStats.get? r = some t.stats
  stats : ∀ r s, w.chunksStats.get? r = some s → s < w.stats.length
  frames : ∀ f ∈ w.calls, f.keepsRecords = true

variable {w w' : World}

/-- What has to be shown of a world further on. -/
theorem Ending.evolves (h : w.Ending) (hev : w.Evolves w')
    (howned : ∀ (i : TaskId) (t : Task), w'.tasks[i]? = some t → t.Owned (w'.record t.stats))
    (horder : ∀ (i j : TaskId) (t t' : Task), w'.tasks[i]? = some t → w'.tasks[j]? = some t' →
      j < i → t'.phase = .created → t.phase = .created)
    (hobserver : ∀ s cb, (w'.record s).onLimit = some cb → (w.record s).onLimit = some cb) :
    w'.Ending where
  owned := howned
  bound := by
    intro i t' ht'
    obtain ⟨t, ht, hl⟩ := hev.task_of ht'
    rw [hev.numStats, hl.stats]
    exact h.bound i t ht
  unique := fun i j t t' ht ht' hsame =>
    hev.ownRecords (fun i j t t' ht ht' hsame => h.unique j i t' t ht' ht hsame) j i t' t ht' ht
      hsame
  order := horder
  succession := by
    intro i t' p k ht' hjob
    obtain ⟨t, ht, hl⟩ := hev.task_of ht'
    rw [hl.stats]
    exact h.succession i t p k ht (hl.job.symm.trans hjob)
  observer := by
    intro i t' cb ht' hcb
    obtain ⟨t, ht, hl⟩ := hev.task_of ht'
    rw [hl.stats] at hcb
    exact h.observer i t cb ht (hobserver _ _ hcb)
  entry := by
    intro r i hi
    rw [hev.chunksTasks] at hi
    obtain ⟨t, ht, hs⟩ := h.entry r i hi
    obtain ⟨t', ht', hl⟩ := hev.task i t ht
    exact ⟨t', ht', by rw [hev.chunksStats, hl.stats, hs]⟩
  stats := by
    intro r s hs
    rw [hev.chunksStats] at hs
    rw [hev.numStats]
    exact h.stats r s hs
  frames := by
    rw [hev.calls]
    exact h.frames

theorem record_of_stats (h : w'.stats = w.stats) (s : StatsId) : w'.record s = w.record s := by
  unfold record
  rw [h]

theorem AsksOnly.record {p : TaskId → Prop} (h : AsksOnly p w w') (s : StatsId) :
    w'.record s = w.record s :=
  record_of_stats h.stats s

/-- Asking tasks to stop that have begun. -/
theorem Ending.asks (h : w.Ending) (hev : w.Evolves w') (hasks : AsksOnly w.Begun w w') :
    w'.Ending := by
  have htask : ∀ (i : TaskId) (t' : Task), w'.tasks[i]? = some t' →
      ∃ t, w.tasks[i]? = some t ∧ t'.phase = t.phase ∧ t'.stats = t.stats ∧
        t'.Owned (w.record t.stats) := by
    intro i t' ht'
    obtain ⟨t, ht, rfl | ⟨hbegun, hasked⟩⟩ := hasks.task i t' ht'
    · exact ⟨t', ht, rfl, rfl, h.owned i t' ht⟩
    · have howned := (h.owned i t ht).of_asked (hbegun t ht) hasked
      obtain ⟨c, rfl⟩ := hasked
      exact ⟨t, ht, rfl, rfl, howned⟩
  refine h.evolves hev ?_ ?_ ?_
  · intro i t' ht'
    obtain ⟨t, ht, -, hstats, howned⟩ := htask i t' ht'
    rw [hstats, hasks.record]
    exact howned
  · intro i j t₁' t₂' ht₁' ht₂' hlt hcreated
    obtain ⟨t₁, ht₁, hphase₁, -⟩ := htask i t₁' ht₁'
    obtain ⟨t₂, ht₂, hphase₂, -⟩ := htask j t₂' ht₂'
    rw [hphase₁]
    exact h.order i j t₁ t₂ ht₁ ht₂ hlt (hphase₂ ▸ hcreated)
  · intro s cb hcb
    rwa [hasks.record] at hcb

/-- The tasks before one that has begun have begun. -/
theorem Ending.begun_of_lt (h : w.Ending) {i j : TaskId} {t : Task} (ht : w.tasks[i]? = some t)
    (hbegun : t.phase ≠ .created) (hlt : j < i) : w.Begun j :=
  fun t' ht' hcreated => hbegun (h.order i j t t' ht ht' hlt hcreated)

/-- A cancellation of a task that has begun arrives at one that has. -/
theorem Ending.begun_target (h : w.Ending) (fuel : Nat) {i : TaskId} (hi : w.Begun i) :
    w.Begun (cancelTarget w.tasks fuel i) := by
  induction fuel generalizing i with
  | zero => exact hi
  | succ fuel ih =>
      unfold cancelTarget
      split
      · rename_i range stats s p signal asked heq
        split
        · exact hi
        · obtain ⟨-, hlt⟩ := h.succession i _ s (some p) heq rfl
          exact ih (h.begun_of_lt heq (by simp) (hlt p rfl))
      · exact hi

theorem Ending.cancelTask_asksOnly (h : w.Ending) {i : TaskId} (hi : w.Begun i) :
    AsksOnly w.Begun w (w.cancelTask i) := by
  have htarget := h.begun_target w.tasks.length hi
  refine ⟨rfl, rfl, fun j t' ht' => ?_⟩
  rw [getElem?_cancelTask] at ht'
  obtain ⟨t, ht, rfl⟩ := Option.map_eq_some_iff.mp ht'
  refine ⟨t, ht, ?_⟩
  split
  · rename_i hj
    exact Or.inr ⟨hj ▸ htarget, requestCancel_asked t⟩
  · exact Or.inl rfl

theorem Ending.cancelTask (h : w.Ending) {i : TaskId} (hi : w.Begun i) : (w.cancelTask i).Ending :=
  h.asks (w.cancelTask_evolves i) (h.cancelTask_asksOnly hi)

theorem Ending.stopPredecessor (h : w.Ending) {cb : StopCallback}
    (hcb : ∀ i ∈ cb.predecessorTask, w.Begun i) : (w.stopPredecessor cb).Ending := by
  unfold World.stopPredecessor
  split
  · exact h
  · rename_i i hi
    split
    · exact h.cancelTask (hcb i hi)
    · exact h

/-! ### Turns of tasks -/

/-- The record is as it was for whoever owns it, or was deprecated. -/
structure Spared (s s' : Stats) : Prop where
  bytesDownloaded : s'.bytesDownloaded = s.bytesDownloaded
  status : s'.status = s.status ∨ s'.status = .deprecated

/-- Task `i` is put back after a turn, and the tasks before it have had theirs. -/
theorem Ending.put (h : w.Ending) {i : TaskId} {t t' : Task} (ht : w.tasks[i]? = some t)
    (hbelow : ∀ j < i, w.Begun j) (hev : w.Evolves w') (htasks : w'.tasks = w.tasks.set i t')
    (hstats : t'.stats = t.stats) (hself : t'.Begun (w'.record t.stats))
    (hother : ∀ s ≠ t.stats, Spared (w.record s) (w'.record s))
    (hobserver : ∀ s cb, (w'.record s).onLimit = some cb → (w.record s).onLimit = some cb) :
    w'.Ending := by
  have htask : ∀ (j : TaskId) (t₁ : Task), w'.tasks[j]? = some t₁ →
      j = i ∧ t₁ = t' ∨ j ≠ i ∧ w.tasks[j]? = some t₁ := fun j t₁ ht₁ =>
    task_of_set ht (htasks ▸ ht₁)
  refine h.evolves hev ?_ ?_ hobserver
  · intro j t₁ ht₁
    rcases htask j t₁ ht₁ with ⟨-, rfl⟩ | ⟨hj, hold⟩
    · rw [hstats]
      exact hself.toOwned
    · obtain ⟨hbytes, hstatus⟩ := hother t₁.stats fun hs => hj (h.unique i j t t₁ ht hold hs)
      exact (h.owned j t₁ hold).of_record hbytes hstatus
  · intro j k t₁ t₂ ht₁ ht₂ hk hcreated
    rcases htask k t₂ ht₂ with ⟨-, rfl⟩ | ⟨-, hold₂⟩
    · exact absurd hcreated hself.begun
    · rcases htask j t₁ ht₁ with ⟨rfl, -⟩ | ⟨-, hold₁⟩
      · exact absurd hcreated (hbelow k hk t₂ hold₂)
      · exact h.order j k t₁ t₂ hold₁ hold₂ hk hcreated

/-- A chunk that is completed stays so, or a succession that has completed deprecates it. -/
def StaysCompleted (w' : World) (s : StatsId) : Prop :=
  (w'.record s).status = .completed ∨
    (w'.record s).status = .deprecated ∧ ∃ t ∈ w'.tasks, (∃ k, t.job = .succession s k) ∧
      t.phase = .done .returned ∧ (w'.record t.stats).status = .completed

theorem StaysCompleted.evolves {s : StatsId} (h : w.StaysCompleted s) (hev : w.Evolves w')
    (hsame : w'.stats = w.stats) : w'.StaysCompleted s := by
  have hrecord := record_of_stats hsame
  unfold StaysCompleted
  rw [hrecord]
  rcases h with h | ⟨hstatus, t, ht, ⟨k, hjob⟩, hphase, hcompleted⟩
  · exact Or.inl h
  · refine Or.inr ⟨hstatus, ?_⟩
    obtain ⟨i, hi⟩ := List.mem_iff_getElem?.mp ht
    obtain ⟨t', ht', hl⟩ := hev.task i t hi
    refine ⟨t', List.mem_of_getElem? ht', ⟨k, hl.job.trans hjob⟩, hl.done _ hphase, ?_⟩
    rw [hrecord, hl.stats]
    exact hcompleted

/-- A record of a task that still has turns is not completed. -/
theorem Ending.ne_of_completed (h : w.Ending) {i : TaskId} {t : Task} (ht : w.tasks[i]? = some t)
    (hlive : ¬ t.Done) {s : StatsId} (hs : (w.record s).status = .completed) : s ≠ t.stats := by
  rintro rfl
  exact hlive ((h.owned i t ht).completed hs)

/-- The first turns come in the order of the tasks. -/
def InOrder (w : World) (i : TaskId) : Prop :=
  w.tasks[i]?.any (·.phase = .created) = true → ∀ t ∈ w.tasks.take i, t.phase ≠ .created

instance (w : World) (i : TaskId) : Decidable (w.InOrder i) := inferInstanceAs (Decidable (_ → _))

theorem Ending.begunBelow (h : w.Ending) {i : TaskId} {t : Task} (ht : w.tasks[i]? = some t)
    (hfirst : w.InOrder i) : ∀ j < i, w.Begun j := by
  intro j hj
  by_cases hcreated : t.phase = .created
  · intro t' ht'
    have hany : w.tasks[i]?.any (·.phase = .created) = true := by
      rw [ht]
      exact decide_eq_true hcreated
    have hmem : (w.tasks.take i)[j]? = some t' := (List.getElem?_take_of_lt hj).trans ht'
    exact hfirst hany t' (List.mem_of_getElem? hmem)
  · exact h.begun_of_lt ht hcreated hj

/-- A turn of a download keeps the invariant, and leaves completed chunks alone. -/
theorem Ending.downloadStep (h : w.Ending) {i : TaskId} {t : Task} {e : TaskEvent}
    (ht : w.tasks[i]? = some t) (hjob : t.job = .download) (hfirst : w.InOrder i)
    (hstep : w.taskStep i e = some w') :
    w'.Ending ∧ ∀ s, (w.record s).status = .completed → w'.StaysCompleted s := by
  obtain ⟨d, cb, hturn, rfl⟩ := taskStep_download ht hjob hstep
  have hlater := DownloadState.step_later hturn
  have hstats : d.task.stats = t.stats := hlater.task.stats
  have hself := DownloadState.begun_step (h.owned i t ht) hturn
  have hlt := h.bound i t ht
  have hrecord : ∀ s, (w.putDownload i d).record s =
      if s = t.stats then d.stats else w.record s := by
    intro s
    rw [record_putDownload, hstats]
    exact if_congr (and_iff_left hlt) rfl rfl
  have hev : w.Evolves (w.putDownload i d) := by
    unfold putDownload
    rw [hstats]
    exact (setTask_evolves d.files ht hlater.task).trans (setRecord_evolves _ hlater.stats)
  have hput : (w.putDownload i d).Ending := by
    refine h.put ht (h.begunBelow ht hfirst) hev rfl hstats ?_ ?_ ?_
    · rw [hrecord, if_pos rfl]
      exact hself
    · intro s hs
      rw [hrecord, if_neg hs]
      exact ⟨rfl, Or.inl rfl⟩
    · intro s cb' hcb'
      rw [hrecord] at hcb'
      split at hcb'
      · rename_i hs
        subst hs
        exact DownloadState.step_onLimit hturn (Or.inl hcb')
      · exact hcb'
  have hkept : ∀ s, (w.record s).status = .completed → (w.putDownload i d).StaysCompleted s := by
    intro s hs
    refine Or.inl ?_
    rw [hrecord, if_neg (h.ne_of_completed ht (DownloadState.not_done_of_step hturn) hs)]
    exact hs
  cases cb with
  | none => exact ⟨hput, hkept⟩
  | some cb =>
      -- the callback that is called is on the task's own record, and stops the task itself
      have hcb : ∀ j ∈ cb.predecessorTask, (w.putDownload i d).Begun j := by
        intro j hj t' ht'
        obtain rfl := h.observer i t cb ht (DownloadState.step_onLimit hturn (Or.inr rfl)) j hj
        have hset : (w.putDownload j d).tasks[j]? = some d.task :=
          List.getElem?_set_self (List.getElem?_eq_some_iff.mp ht).1
        obtain rfl := Option.some.inj (hset.symm.trans ht')
        exact hself.begun
      exact ⟨hput.stopPredecessor hcb, fun s hs => (hkept s hs).evolves
        (stopPredecessor_evolves _ cb) (stopPredecessor_asks _ cb).stats⟩

/-- So does a turn of a succession, but for the chunk whose data it has taken. -/
theorem Ending.successionStep (h : w.Ending) {i : TaskId} {t : Task} {e : TaskEvent} {p : StatsId}
    {predecessorTask : Option TaskId} (ht : w.tasks[i]? = some t)
    (hjob : t.job = .succession p predecessorTask) (hfirst : w.InOrder i)
    (hstep : w.taskStep i e = some w') :
    w'.Ending ∧ ∀ s, (w.record s).status = .completed → w'.StaysCompleted s := by
  unfold World.taskStep at hstep
  simp only [ht, hjob] at hstep
  split at hstep
  · cases hstep
  rename_i u stops hturn
  have hlater := SuccessionState.step_later hturn
  have horderly := SuccessionState.orderly_step (h.owned i t ht) hturn
  obtain ⟨hyounger, hearlier⟩ := h.succession i t p predecessorTask ht hjob
  have hlt := h.bound i t ht
  -- the world as the succession leaves it, before it asks the predecessor's task to stop
  let w₁ : World := (World.setRecord { w with files := u.files, tasks := w.tasks.set i u.task }
    t.stats u.successor).setRecord p u.predecessor
  have hrecord : ∀ s, w₁.record s =
      if s = p then u.predecessor else if s = t.stats then u.successor else w.record s := by
    intro s
    refine (record_setRecord _ _ _ _).trans ?_
    rw [record_setRecord]
    simp only [setRecord, List.length_set, hlt, hyounger.trans hlt, and_true]
    rfl
  have hset := (setTask_evolves u.files ht hlater.task).trans (setRecord_evolves _ hlater.successor)
  have hev : w.Evolves w₁ := hset.trans
    (setRecord_evolves _ (s := p) ((hset.record p).symm.trans hlater.predecessor))
  have hbelow := h.begunBelow ht hfirst
  have hput : w₁.Ending := by
    refine h.put ht hbelow hev rfl hlater.task.stats ?_ ?_ ?_
    · rw [hrecord, if_neg (Nat.ne_of_gt hyounger), if_pos rfl]
      exact horderly.begun
    · intro s hs
      rw [hrecord, if_neg hs]
      split
      · rename_i hsp
        subst hsp
        exact ⟨horderly.spares.bytesDownloaded, horderly.spares.status.imp_right And.left⟩
      · exact ⟨rfl, Or.inl rfl⟩
    · intro s cb hcb
      rw [hrecord] at hcb
      split at hcb
      · rename_i hsp
        subst hsp
        exact horderly.spares.onLimit cb hcb
      · split at hcb
        · rename_i hs
          subst hs
          exact horderly.onLimit.symm.trans hcb
        · exact hcb
  have hkept : ∀ s, (w.record s).status = .completed → w₁.StaysCompleted s := by
    intro s hs
    have hne := h.ne_of_completed ht (SuccessionState.not_done_of_step hturn) hs
    unfold StaysCompleted
    rw [hrecord, if_neg hne]
    split
    · rename_i hsp
      subst hsp
      rcases horderly.spares.status with hsame | ⟨hstatus, hphase, hcompleted⟩
      · exact Or.inl (hsame.trans hs)
      · -- the completed predecessor is deprecated only when its data has been taken
        refine Or.inr ⟨hstatus, u.task, ?_, ⟨predecessorTask, hlater.task.job.trans hjob⟩,
          hphase, ?_⟩
        · exact List.mem_set (List.getElem?_eq_some_iff.mp ht).1 _
        · rw [hlater.task.stats, hrecord, if_neg (Nat.ne_of_gt hyounger), if_pos rfl]
          exact hcompleted
    · exact Or.inl hs
  obtain rfl := Option.some.inj hstep
  cases stops with
  | false => exact ⟨hput, hkept⟩
  | true =>
      cases predecessorTask with
      | none => exact ⟨hput, hkept⟩
      | some k =>
          -- the predecessor's task is older, so it has had its first turn
          have hbegun : w₁.Begun k := by
            intro t' ht'
            obtain ⟨t₀, ht₀, -⟩ := hev.task_of ht'
            have hne : i ≠ k := Nat.ne_of_gt (hearlier k rfl)
            have hold : w₁.tasks[k]? = w.tasks[k]? := List.getElem?_set_ne hne
            rw [hold] at ht'
            exact hbelow k (hearlier k rfl) t' ht'
          exact ⟨hput.cancelTask hbegun, fun s hs => (hkept s hs).evolves
            (cancelTask_evolves _ k) rfl⟩

/-- **A turn of a task.** -/
theorem Ending.taskStep (h : w.Ending) {i : TaskId} {e : TaskEvent} (hfirst : w.InOrder i)
    (hstep : w.taskStep i e = some w') :
    w'.Ending ∧ ∀ s, (w.record s).status = .completed → w'.StaysCompleted s := by
  have hstep' := hstep
  unfold World.taskStep at hstep'
  split at hstep'
  · cases hstep'
  · rename_i t ht
    cases hjob : t.job with
    | download => exact h.downloadStep ht hjob hfirst hstep
    | succession p k => exact h.successionStep ht hjob hfirst hstep

/-! ### Methods that drop tasks only -/

/-- Tasks that have begun are asked to stop, and entries of `_chunks_tasks` go. -/
structure Trims (w w' : World) : Prop where
  asks : AsksOnly w.Begun w w'
  numTasks : w'.tasks.length = w.tasks.length
  chunksStats : w'.chunksStats = w.chunksStats
  chunksTasks : ∀ {r i}, w'.chunksTasks.get? r = some i → w.chunksTasks.get? r = some i
  calls : w'.calls = w.calls

/-- What such a method keeps: the invariant, every record as it is, and calls of its own kind. -/
structure KeepsEnding (w : World) (result : World × Progress) : Prop where
  trims : w.Trims result.1
  frame : ∀ f, result.2 = .suspended f → f.keepsRecords = true

theorem Trims.refl (w : World) : w.Trims w := ⟨.refl _ w, rfl, rfl, id, rfl⟩

/-- Dropping entries. -/
theorem trims_of_tasks (w : World) {chunksTasks : Dict ChunkRange TaskId} (waitLocked : Bool)
    (hsub : ∀ {r i}, chunksTasks.get? r = some i → w.chunksTasks.get? r = some i) :
    w.Trims { w with chunksTasks, waitLocked } :=
  ⟨⟨rfl, rfl, fun _ t ht => ⟨t, ht, Or.inl rfl⟩⟩, rfl, rfl, hsub, rfl⟩

theorem Trims.eraseTask {w w' : World} (h : w.Trims w') (r : ChunkRange) :
    w.Trims { w' with chunksTasks := w'.chunksTasks.erase r } :=
  ⟨⟨h.asks.files, h.asks.stats, h.asks.task⟩, h.numTasks, h.chunksStats,
    fun hi => h.chunksTasks (Dict.get?_erase_eq_some.mp hi).2, h.calls⟩

theorem KeepsEnding.returned (h : w.Trims w') (replies : List Returned) :
    w.KeepsEnding (w', .returned replies) :=
  ⟨h, nofun⟩

theorem KeepsEnding.suspended {f : Frame} (h : w.Trims w') (hf : f.keepsRecords = true) :
    w.KeepsEnding (w', .suspended f) := by
  refine ⟨h, fun f' hf' => ?_⟩
  cases hf'
  exact hf

theorem Ending.trims_cancelTask (h : w.Ending) {i : TaskId} (hi : w.Begun i) :
    w.Trims (w.cancelTask i) :=
  ⟨h.cancelTask_asksOnly hi, (w.cancelTask_evolves i).numTasks, rfl, id, rfl⟩

theorem Trims.cancelJoined (h : w.Trims w') (r : ChunkRange) :
    w.KeepsEnding (w'.cancelJoined r false) := by
  unfold World.cancelJoined
  split
  · exact .returned (h.eraseTask r) _
  · exact .returned h _

/-- A task whose init signal is set has begun. -/
theorem Ending.begun_of_initSignal (h : w.Ending) {i : TaskId} (hi : w.initSignal i = true) :
    w.Begun i := by
  intro t ht hcreated
  have hsignal : t.initSignal = true := by
    unfold initSignal at hi
    rw [ht] at hi
    exact hi
  rw [((h.owned i t ht).fresh hcreated).1] at hsignal
  cases hsignal

theorem Ending.cancelSignalled (h : w.Ending) (r : ChunkRange) {i : TaskId}
    (hi : w.initSignal i = true) : w.KeepsEnding (w.cancelSignalled r i false) := by
  have htrims := h.trims_cancelTask (h.begun_of_initSignal hi)
  unfold World.cancelSignalled
  dsimp only
  split
  · exact htrims.cancelJoined r
  · exact .suspended htrims rfl

theorem Ending.cancelChunk (h : w.Ending) (r : ChunkRange) :
    w.KeepsEnding (w.cancelChunk r false) := by
  unfold World.cancelChunk
  split
  · exact .returned (.refl w) _
  · split
    · exact .returned (.refl w) _
    · split
      · split
        · rename_i hi
          exact h.cancelSignalled r hi
        · exact .suspended (.refl w) rfl
      · exact .returned (.refl w) _

theorem waitEntered_keepsEnding (w : World) (timed : Bool) (returnWhen : ReturnWhen) :
    w.KeepsEnding (w.waitEntered timed returnWhen) := by
  unfold waitEntered
  split
  · exact .returned (.refl w) _
  · exact .suspended (w.trims_of_tasks true id) rfl

theorem waitForChunks_keepsEnding (w : World) (timed : Bool) (returnWhen : ReturnWhen) :
    w.KeepsEnding (w.waitForChunks timed returnWhen) := by
  unfold waitForChunks
  split
  · exact .suspended (.refl w) rfl
  · exact w.waitEntered_keepsEnding timed returnWhen

theorem waitCollects_keepsEnding (w : World) (allTasks : List TaskId) :
    w.KeepsEnding (w.waitCollects allTasks) := by
  unfold waitCollects
  dsimp only
  split
  · exact .returned (w.trims_of_tasks false id) _
  · refine .returned (w.trims_of_tasks false ?_) _
    intro r i hi
    rw [Dict.get?_foldl_erase] at hi
    split at hi
    · cases hi
    · exact hi

theorem gathered_keepsEnding (params : ChunkManagerParams) (w : World) :
    w.KeepsEnding (w.gathered params .cancelAll) := by
  refine .returned (w.trims_of_tasks w.waitLocked ?_) _
  intro r i hi
  cases hi

/-- The invariant is about tasks and records, and the entries that are left. -/
theorem Ending.trims (h : w.Ending) (ht : w.Trims w') : w'.Ending := by
  let w₁ : World := { w with files := w'.files, stats := w'.stats, tasks := w'.tasks }
  have hev : w.Evolves w₁ := by
    refine ⟨rfl, rfl, rfl, rfl, rfl, ht.numTasks, congrArg List.length ht.asks.stats, ?_, ?_⟩
    · intro i t hold
      have hlt : i < w'.tasks.length := by
        rw [ht.numTasks]
        exact (List.getElem?_eq_some_iff.mp hold).1
      obtain ⟨t₀, ht₀, hsame⟩ := ht.asks.task i _ (List.getElem?_eq_getElem hlt)
      obtain rfl := Option.some.inj (ht₀.symm.trans hold)
      refine ⟨_, List.getElem?_eq_getElem hlt, ?_⟩
      rcases hsame with heq | ⟨-, hasked⟩
      · rw [heq]
        exact .refl _
      · exact hasked.later
    · intro s
      show SameRecord (w.record s) (w'.record s)
      rw [ht.asks.record]
      exact .refl _
  have h₁ : w₁.Ending := h.asks hev ⟨ht.asks.files, ht.asks.stats, ht.asks.task⟩
  obtain ⟨howned, hbound, hunique, horder, hsuccession, hobserver, hentry, hstats, hframes⟩ := h₁
  refine ⟨howned, hbound, hunique, horder, hsuccession, hobserver, ?_, ?_, ?_⟩
  · intro r i hi
    rw [ht.chunksStats]
    exact hentry r i (ht.chunksTasks hi)
  · rw [ht.chunksStats]
    exact hstats
  · rw [ht.calls]
    exact hframes

theorem Ending.called {result : World × Progress} (h : w.Ending) (hkeeps : w.KeepsEnding result) :
    (called result).1.Ending := by
  obtain ⟨w', progress⟩ := result
  have h' : w'.Ending := h.trims hkeeps.trims
  cases progress with
  | suspended f =>
      refine { h' with frames := fun f' hf' => ?_ }
      rcases List.mem_append.mp hf' with hf' | hf'
      · exact h'.frames f' hf'
      · obtain rfl := List.mem_singleton.mp hf'
        exact hkeeps.frame _ rfl
  | returned rs => exact h'

theorem Ending.resumed {result : World × Progress} (i : Nat) (h : w.Ending)
    (hkeeps : w.KeepsEnding result) : (resumed i result).1.Ending := by
  obtain ⟨w', progress⟩ := result
  have h' : w'.Ending := h.trims hkeeps.trims
  cases progress with
  | suspended f =>
      refine { h' with frames := fun f' hf' => ?_ }
      rcases List.mem_or_eq_of_mem_set hf' with hf' | rfl
      · exact h'.frames f' hf'
      · exact hkeeps.frame _ rfl
  | returned rs =>
      exact { h' with frames := fun f' hf' => h'.frames f' (List.mem_of_mem_eraseIdx hf') }

/-- A suspended call goes on. -/
theorem Ending.resume {params : ChunkManagerParams} {f : Frame} {ok : Bool}
    {result : World × Progress} (h : w.Ending) (hf : f.keepsRecords = true)
    (hresume : w.resume params f ok = some result) : w.KeepsEnding result := by
  unfold World.resume at hresume
  cases f with
  | cancelInit r t thenDelete =>
      obtain rfl : thenDelete = false := Bool.not_eq_true' _ ▸ hf
      dsimp only at hresume
      split at hresume
      · rename_i hi
        exact Option.some.inj hresume ▸ h.cancelSignalled r hi
      · cases hresume
  | cancelJoin r t thenDelete =>
      obtain rfl : thenDelete = false := Bool.not_eq_true' _ ▸ hf
      dsimp only at hresume
      split at hresume
      · exact Option.some.inj hresume ▸ (Trims.refl w).cancelJoined r
      · cases hresume
  | lockWait timed returnWhen =>
      dsimp only at hresume
      split at hresume
      · cases hresume
      · exact Option.some.inj hresume ▸ w.waitEntered_keepsEnding timed returnWhen
  | waiting allTasks timed returnWhen =>
      dsimp only at hresume
      split at hresume
      · exact Option.some.inj hresume ▸ w.waitCollects_keepsEnding allTasks
      · cases hresume
  | gathering allTasks goal =>
      obtain rfl : goal = .cancelAll := of_decide_eq_true hf
      dsimp only at hresume
      split at hresume
      · exact Option.some.inj hresume ▸ gathered_keepsEnding params w
      · cases hresume
  | deleting name => cases hf
  | listing files ofMerge => cases hf
  | removing files failed ofMerge => cases hf
  | merging stage cleanup => cases hf

/-! ### `cancel_all_chunks` -/

/-- Setting a record that waits for its turn to `CANCELLED`, when its task has begun. -/
theorem Ending.setCancelled (h : w.Ending) {i : TaskId} {t : Task} (ht : w.tasks[i]? = some t)
    (hbegun : t.phase ≠ .created) :
    (w.setRecord t.stats { w.record t.stats with status := .cancelled }).Ending := by
  have hev := @setRecord_evolves w t.stats { w.record t.stats with status := .cancelled }
    ⟨rfl, rfl, rfl⟩
  have hrecord : ∀ s, (w.setRecord t.stats { w.record t.stats with status := .cancelled }).record
      s =
      if s = t.stats then { w.record t.stats with status := .cancelled } else w.record s := by
    intro s
    rw [record_setRecord]
    simp only [h.bound i t ht, and_true]
  refine h.evolves hev ?_ h.order ?_
  · intro j t' ht'
    rw [hrecord]
    split
    · rename_i hs
      obtain rfl := h.unique i j t t' ht ht' hs
      obtain rfl : t' = t := Option.some.inj (ht'.symm.trans ht)
      exact ⟨fun hc => absurd hc hbegun, fun hc => absurd hc hbegun, fun _ => trivial,
        fun _ => trivial, nofun⟩
    · exact h.owned j t' ht'
  · intro s cb hcb
    rw [hrecord] at hcb
    split at hcb
    · rename_i hs
      rw [hs]
      exact hcb
    · exact hcb

theorem tasks_cancelEntry (entry : ChunkRange × TaskId) :
    (w.cancelEntry entry).tasks = (w.cancelTask entry.2).tasks := by
  unfold World.cancelEntry
  dsimp only
  split
  · rfl
  · split <;> rfl

/-- Of the records, the body of the loop changes that of the range, where it waits to begin. -/
theorem record_cancelEntry {r : ChunkRange} (i : TaskId) {a : StatsId}
    (ha : w.chunksStats.get? r = some a) (hlt : a < w.stats.length) (s : StatsId) :
    (w.cancelEntry (r, i)).record s =
      if s = a ∧ (w.record a).status ∈ [EDownloadStatus.pending, .awaitingSuccession]
      then { w.record a with status := .cancelled } else w.record s := by
  unfold World.cancelEntry
  dsimp only
  rw [show (w.cancelTask i).chunksStats = w.chunksStats from rfl, ha]
  dsimp only
  rw [show (w.cancelTask i).record a = w.record a from rfl]
  split
  · rename_i hstatus
    rw [record_setRecord, show (w.cancelTask i).stats = w.stats from rfl]
    simp only [hlt, hstatus, and_true]
    rfl
  · rename_i hstatus
    rw [if_neg fun h => hstatus h.2]
    rfl

/-- The body of the loop for a task that has not begun: it is the one place that asks such a task
to stop, and leaves its record in a terminal status. -/
theorem Ending.cancelEntry_created (h : w.Ending) {r : ChunkRange} {i : TaskId} {t : Task}
    (ht : w.tasks[i]? = some t) (hcreated : t.phase = .created)
    (hs : w.chunksStats.get? r = some t.stats) : (w.cancelEntry (r, i)).Ending := by
  have hlt := h.bound i t ht
  obtain ⟨hsignal, hcount, hnot⟩ := (h.owned i t ht).fresh hcreated
  have hlive : ¬ t.Done := by
    rw [Task.done_iff, hcreated]
    simp
  -- a task that has not begun waits for no other, so the request stays with it
  have hasked : requestCancel t = { t with cancelRequested := true } := if_neg hlive
  have htarget : cancelTarget w.tasks w.tasks.length i = i :=
    cancelTarget_self ht (fun _ _ _ hphase => nomatch hcreated.symm.trans hphase) _
  have htasks : ∀ (j : TaskId) (t' : Task), (w.cancelEntry (r, i)).tasks[j]? = some t' →
      j = i ∧ t' = { t with cancelRequested := true } ∨ j ≠ i ∧ w.tasks[j]? = some t' := by
    intro j t' ht'
    rw [tasks_cancelEntry, getElem?_cancelTask, htarget] at ht'
    obtain ⟨t₀, ht₀, rfl⟩ := Option.map_eq_some_iff.mp ht'
    split
    · rename_i hij
      subst hij
      obtain rfl : t₀ = t := Option.some.inj (ht₀.symm.trans ht)
      exact Or.inl ⟨rfl, hasked⟩
    · rename_i hij
      exact Or.inr ⟨Ne.symm hij, ht₀⟩
  have hrecord := record_cancelEntry i hs hlt
  refine h.evolves (w.cancelEntry_evolves (r, i)) ?_ ?_ ?_
  · intro j t' ht'
    rcases htasks j t' ht' with ⟨rfl, rfl⟩ | ⟨hj, hold⟩
    · have hterminal : ((w.cancelEntry (r, j)).record t.stats).status.Terminal := by
        rw [hrecord]
        split
        · trivial
        · rename_i hstatus
          cases hcase : (w.record t.stats).status <;> simp_all [EDownloadStatus.Terminal]
      have hdone : ((w.cancelEntry (r, j)).record t.stats).status ≠ .completed := by
        rw [hrecord]
        split
        · nofun
        · exact (h.owned j t ht).not_completed hlive
      refine ⟨fun _ => ⟨hsignal, ?_, ?_⟩, fun _ _ => hterminal, fun _ => hterminal,
        fun _ => hterminal, fun hcompleted => absurd hcompleted hdone⟩
      · rw [hrecord]
        split <;> exact hcount
      · intro hdownloading
        rw [hdownloading] at hterminal
        exact hterminal
    · rw [hrecord, if_neg fun hsame => hj (h.unique i j t t' ht hold hsame.1)]
      exact h.owned j t' hold
  · intro j k t₁ t₂ ht₁ ht₂ hlt hc
    rcases htasks j t₁ ht₁ with ⟨rfl, rfl⟩ | ⟨-, hold₁⟩
    · exact hcreated
    · rcases htasks k t₂ ht₂ with ⟨rfl, rfl⟩ | ⟨-, hold₂⟩
      · exact h.order j k t₁ t hold₁ ht hlt hcreated
      · exact h.order j k t₁ t₂ hold₁ hold₂ hlt hc
  · intro s cb hcb
    rw [hrecord] at hcb
    split at hcb
    · rename_i hs
      rw [hs.1]
      exact hcb
    · exact hcb

/-- The body of the loop of `cancel_all_chunks`. -/
theorem Ending.cancelEntry (h : w.Ending) {r : ChunkRange} {i : TaskId}
    (hi : w.chunksTasks.get? r = some i) : (w.cancelEntry (r, i)).Ending := by
  obtain ⟨t, ht, hs⟩ := h.entry r i hi
  by_cases hcreated : t.phase = .created
  · exact h.cancelEntry_created ht hcreated hs
  · have hbegun : w.Begun i := by
      intro t' ht'
      rw [Option.some.inj (ht'.symm.trans ht)]
      exact hcreated
    have hcancel := h.cancelTask hbegun
    obtain ⟨t', ht', hl⟩ := (w.cancelTask_evolves i).task i t ht
    have hbegun' : t'.phase ≠ .created := by
      rw [getElem?_cancelTask, ht] at ht'
      obtain rfl := Option.some.inj ht'
      dsimp only
      split
      · obtain ⟨c, hc⟩ := requestCancel_asked t
        rw [hc]
        exact hcreated
      · exact hcreated
    unfold World.cancelEntry
    dsimp only
    rw [show (w.cancelTask i).chunksStats = w.chunksStats from rfl, hs]
    dsimp only
    split
    · rw [← hl.stats]
      exact hcancel.setCancelled ht' hbegun'
    · exact hcancel

theorem cancelEntry_completed (w : World) (entry : ChunkRange × TaskId) {s : StatsId}
    (hs : (w.record s).status = .completed) :
    ((w.cancelEntry entry).record s).status = .completed := by
  unfold World.cancelEntry
  dsimp only
  split
  · exact hs
  · split
    · rename_i s' _ hstatus
      rw [record_setRecord]
      split
      · rename_i heq
        -- a completed record is not one of those that are cancelled
        obtain rfl := heq.1
        rw [show (w.cancelTask entry.2).record s = w.record s from rfl, hs] at hstatus
        simp at hstatus
      · exact hs
    · exact hs

theorem Ending.cancelEntries {entries : List (ChunkRange × TaskId)} (h : w.Ending)
    (hentries : ∀ entry ∈ entries, w.chunksTasks.get? entry.1 = some entry.2) :
    (entries.foldl World.cancelEntry w).Ending ∧ ∀ s, (w.record s).status = .completed →
      ((entries.foldl World.cancelEntry w).record s).status = .completed := by
  induction entries generalizing w with
  | nil => exact ⟨h, fun _ hs => hs⟩
  | cons entry rest ih =>
      have hev := w.cancelEntry_evolves entry
      have hfirst := h.cancelEntry (hentries entry List.mem_cons_self)
      obtain ⟨hrest, hkept⟩ := ih hfirst fun e he => by
        rw [hev.chunksTasks]
        exact hentries e (List.mem_cons_of_mem _ he)
      exact ⟨hrest, fun s hs => hkept s (w.cancelEntry_completed entry hs)⟩

/-! ### Registering a chunk -/

theorem Ending.registerChunkStats (params : ChunkManagerParams) (h : w.Ending) {r : ChunkRange}
    (speed : Option Int) (hr : r ∉ w.chunksTasks.keys) :
    (w.registerChunkStats params r speed).Ending := by
  have hlen : (w.registerChunkStats params r speed).stats.length = w.stats.length + 1 :=
    List.length_append
  have hrecord : ∀ (i : TaskId) (t : Task), w.tasks[i]? = some t →
      (w.registerChunkStats params r speed).record t.stats = w.record t.stats := by
    intro i t ht
    rw [record_registerChunkStats, if_neg (Nat.ne_of_lt (h.bound i t ht))]
  refine ⟨?_, ?_, h.unique, h.order, h.succession, ?_, ?_, ?_, h.frames⟩
  · intro i t ht
    rw [hrecord i t ht]
    exact h.owned i t ht
  · intro i t ht
    rw [hlen]
    exact Nat.lt_succ_of_lt (h.bound i t ht)
  · intro i t cb ht hcb
    rw [hrecord i t ht] at hcb
    exact h.observer i t cb ht hcb
  · intro r' i hi
    have hne : r' ≠ r := by
      rintro rfl
      exact hr (Dict.mem_keys_iff.mpr ⟨i, hi⟩)
    obtain ⟨t, ht, hs⟩ := h.entry r' i hi
    exact ⟨t, ht, (Dict.get?_set_of_ne _ _ hne).trans hs⟩
  · intro r' s hs
    have hs' : (w.chunksStats.set r w.stats.length).get? r' = some s := hs
    rw [Dict.get?_set] at hs'
    rw [hlen]
    split at hs'
    · obtain rfl := Option.some.inj hs'
      exact Nat.lt_succ_self _
    · exact Nat.lt_succ_of_lt (h.stats r' s hs')

/-- No task has the record. -/
def Unowned (w : World) (s : StatsId) : Prop :=
  ∀ (i : TaskId) (t : Task), w.tasks[i]? = some t → t.stats ≠ s

theorem Ending.setUnowned (h : w.Ending) {s : StatsId} (hs : w.Unowned s) (stats : Stats) :
    (w.setRecord s stats).Ending := by
  have hrecord : ∀ (i : TaskId) (t : Task), w.tasks[i]? = some t →
      (w.setRecord s stats).record t.stats = w.record t.stats := by
    intro i t ht
    rw [record_setRecord, if_neg fun heq => hs i t ht heq.1]
  have hlen : (w.setRecord s stats).stats.length = w.stats.length := List.length_set ..
  refine ⟨?_, ?_, h.unique, h.order, h.succession, ?_, h.entry, ?_, h.frames⟩
  · intro i t ht
    rw [hrecord i t ht]
    exact h.owned i t ht
  · intro i t ht
    rw [hlen]
    exact h.bound i t ht
  · intro i t cb ht hcb
    rw [hrecord i t ht] at hcb
    exact h.observer i t cb ht hcb
  · rw [hlen]
    exact h.stats

/-- The new task of a record that nobody has. -/
theorem Ending.createTask (h : w.Ending) {r : ChunkRange} {b : StatsId} {job : Job}
    (hlt : b < w.stats.length) (hs : w.Unowned b) (hr : w.chunksStats.get? r = some b)
    (hbytes : (w.record b).bytesDownloaded = 0) (hobserver : (w.record b).onLimit = none)
    (hstatus : (w.record b).status = .pending ∨ (w.record b).status = .awaitingSuccession)
    (hjob : ∀ p k, job = .succession p k → p < b ∧ ∀ j ∈ k, j < w.tasks.length) :
    (w.createTask r b job).Ending := by
  -- every clause for a task that was there before, and for the one that is appended
  have htask : ∀ (i : TaskId) (t : Task), (w.createTask r b job).tasks[i]? = some t →
      i < w.tasks.length ∧ w.tasks[i]? = some t ∨
        i = w.tasks.length ∧ t = { range := r, stats := b, job } := by
    intro i t ht
    have ht' : (w.tasks ++ [{ range := r, stats := b, job }])[i]? = some t := ht
    rcases Nat.lt_trichotomy i w.tasks.length with hi | rfl | hi
    · rw [List.getElem?_append_left hi] at ht'
      exact Or.inl ⟨hi, ht'⟩
    · rw [List.getElem?_concat_length] at ht'
      exact Or.inr ⟨rfl, (Option.some.inj ht').symm⟩
    · rw [List.getElem?_eq_none (by rw [List.length_append, List.length_singleton]; omega)] at ht'
      cases ht'
  refine ⟨?_, ?_, ?_, ?_, ?_, ?_, ?_, h.stats, h.frames⟩
  · intro i t ht
    rcases htask i t ht with ⟨-, hold⟩ | ⟨-, rfl⟩
    · exact h.owned i t hold
    · show Task.Owned _ (w.record b)
      refine ⟨fun _ => ⟨rfl, hbytes, ?_⟩, nofun, nofun, nofun, ?_⟩
      · rcases hstatus with hstatus | hstatus <;> rw [hstatus] <;> nofun
      · intro hcompleted
        rcases hstatus with hstatus | hstatus <;> rw [hstatus] at hcompleted <;> cases hcompleted
  · intro i t ht
    rcases htask i t ht with ⟨-, hold⟩ | ⟨-, rfl⟩
    · exact h.bound i t hold
    · exact hlt
  · intro i j t t' ht ht' hsame
    rcases htask i t ht with ⟨-, hold⟩ | ⟨rfl, rfl⟩
    · rcases htask j t' ht' with ⟨-, hold'⟩ | ⟨rfl, rfl⟩
      · exact h.unique i j t t' hold hold' hsame
      · exact absurd hsame.symm (hs i t hold)
    · rcases htask j t' ht' with ⟨-, hold'⟩ | ⟨rfl, rfl⟩
      · exact absurd hsame (hs j t' hold')
      · rfl
  · intro i j t t' ht ht' hlt hcreated
    rcases htask i t ht with ⟨hi, hold⟩ | ⟨-, rfl⟩
    · rcases htask j t' ht' with ⟨-, hold'⟩ | ⟨rfl, -⟩
      · exact h.order i j t t' hold hold' hlt hcreated
      · exact absurd (hlt.trans hi) (lt_irrefl _)
    · rfl
  · intro i t p k ht hsuccession
    rcases htask i t ht with ⟨-, hold⟩ | ⟨rfl, rfl⟩
    · exact h.succession i t p k hold hsuccession
    · exact hjob p k hsuccession
  · intro i t cb ht hcb
    rcases htask i t ht with ⟨-, hold⟩ | ⟨-, rfl⟩
    · exact h.observer i t cb hold hcb
    · rw [show (w.createTask r b job).record b = w.record b from rfl, hobserver] at hcb
      cases hcb
  · intro r' i hi
    have hi' : (w.chunksTasks.set r w.tasks.length).get? r' = some i := hi
    rw [Dict.get?_set] at hi'
    split at hi'
    · rename_i heq
      obtain rfl := Option.some.inj hi'
      exact ⟨_, List.getElem?_concat_length, heq ▸ hr⟩
    · obtain ⟨t, ht, hget⟩ := h.entry r' i hi'
      refine ⟨t, ?_, hget⟩
      show (w.tasks ++ [_])[i]? = _
      rw [List.getElem?_append_left (List.getElem?_eq_some_iff.mp ht).1, ht]

/-- The observer of a succession stops the task of the record it is placed on. It is called at once
only when bytes have come, so the task has begun. -/
theorem Ending.addLimitObserver (h : w.Ending) {r : ChunkRange} {a : StatsId} {limit : Int}
    (ha : w.chunksStats.get? r = some a) (hlimit : 0 < limit) :
    (w.addLimitObserver a limit ⟨a, w.chunksTasks.get? r⟩).Ending := by
  have howner : ∀ i, w.chunksTasks.get? r = some i → ∃ t, w.tasks[i]? = some t ∧ t.stats = a := by
    intro i hi
    obtain ⟨t, ht, hs⟩ := h.entry r i hi
    exact ⟨t, ht, Option.some.inj (hs.symm.trans ha)⟩
  have hlt := h.stats r a ha
  unfold World.addLimitObserver ChunkDownloadStats.addLimitObserver
  split
  · rename_i stats called heq
    split at heq
    · rename_i hreached
      obtain ⟨rfl, rfl⟩ := Prod.mk.inj heq
      have hset : w.setRecord a (w.record a) = w := by
        have hget : w.record a = w.stats[a] := by
          rw [record, List.getD_eq_getElem?_getD, List.getElem?_eq_getElem hlt, Option.getD_some]
        rw [setRecord, hget, List.set_getElem_self]
      rw [hset]
      refine h.stopPredecessor fun i hi t ht hcreated => ?_
      obtain ⟨t', ht', rfl⟩ := howner i hi
      obtain rfl : t' = t := Option.some.inj (ht'.symm.trans ht)
      have hcount := ((h.owned i t' ht).fresh hcreated).2.1
      omega
    · obtain ⟨rfl, rfl⟩ := Prod.mk.inj heq
      have hrecord := w.record_setRecord a
      have hev := @setRecord_evolves w a { w.record a with
        limitQtBytes := limit
        onLimit := some ⟨a, w.chunksTasks.get? r⟩
        limited := true } ⟨rfl, rfl, rfl⟩
      show (w.setRecord a _).Ending
      refine { h with
        owned := fun i t ht => ?_
        bound := fun i t ht => hev.numStats ▸ h.bound i t ht
        observer := fun i t cb ht hcb => ?_
        stats := fun r' s hs => hev.numStats ▸ h.stats r' s hs }
      · rw [record_setRecord]
        split
        · rename_i hs
          have howned := h.owned i t ht
          rw [hs.1] at howned
          exact howned.of_record rfl (Or.inl rfl)
        · exact h.owned i t ht
      · rw [record_setRecord] at hcb
        split at hcb
        · rename_i hs
          obtain rfl := Option.some.inj hcb
          intro j hj
          obtain ⟨t', ht', hstats⟩ := howner j hj
          exact h.unique i j t t' ht ht' (hstats.trans hs.1.symm)
        · exact h.observer i t cb ht hcb

/-- A completed chunk keeps its record, which stays completed unless a succession that has completed
deprecates it. -/
def KeepsCompleted (w w' : World) : Prop :=
  ∀ s, (w.record s).status = .completed →
    w'.StaysCompleted s ∧ ∀ r, w.chunksStats.get? r = some s → w'.chunksStats.get? r = some s

theorem lt_of_completed {s : StatsId} (hs : (w.record s).status = .completed) :
    s < w.stats.length := by
  by_contra hge
  rw [record_of_length_le (Nat.le_of_not_lt hge)] at hs
  cases hs

/-- Registering another range. -/
theorem KeepsCompleted.of_creates {params : ChunkManagerParams} {r : ChunkRange} {job : Job}
    (hc : w.Creates params w' r job)
    (hsame : ∀ s < w.stats.length, (w'.record s).status = (w.record s).status)
    (hr : ∀ s, w.chunksStats.get? r = some s → (w.record s).status ≠ .completed) :
    w.KeepsCompleted w' := by
  intro s hs
  refine ⟨Or.inl ((hsame s (lt_of_completed hs)).trans hs), fun r' hr' => ?_⟩
  have hne : r' ≠ r := by
    rintro rfl
    exact hr s hr' hs
  rw [hc.chunksStats, Dict.get?_set_of_ne _ _ hne, hr']

theorem KeepsCompleted.refl (w : World) : w.KeepsCompleted w :=
  fun _ hs => ⟨Or.inl hs, fun _ hr => hr⟩

theorem Ending.unowned_length (h : w.Ending) : w.Unowned w.stats.length :=
  fun i t ht => Nat.ne_of_lt (h.bound i t ht)

theorem Ending.startChunk (params : ChunkManagerParams) (h : w.Ending) (r : ChunkRange)
    (speed : Option Int) :
    (w.startChunk params r speed).Ending ∧ w.KeepsCompleted (w.startChunk params r speed) := by
  rcases startChunk_cases params w r speed with ⟨hsame, -⟩ | ⟨hnew, hkey, hcreates⟩
  · rw [hsame]
    exact ⟨h, .refl w⟩
  · have hlen : w.stats.length < (w.registerChunkStats params r speed).stats.length := by
      rw [World.registerChunkStats, List.length_append]
      exact Nat.lt_succ_self _
    have hrecord := @record_registerChunkStats params w r speed
    have heq : w.startChunk params r speed =
        (w.registerChunkStats params r speed).createTask r w.stats.length .download := by
      unfold World.startChunk
      rw [if_neg (Bool.eq_false_iff.mp hnew), if_neg hkey]
    refine ⟨?_, .of_creates hcreates (fun s hs => ?_) fun s hs hcompleted => ?_⟩
    · rw [heq]
      refine (h.registerChunkStats params speed hkey).createTask hlen h.unowned_length
        (Dict.get?_set_self ..) ?_ ?_ (Or.inl ?_) (fun p k hjob => by cases hjob)
      · rw [hrecord, if_pos rfl]
      · rw [hrecord, if_pos rfl]
      · rw [hrecord, if_pos rfl]
    · rw [heq]
      show ((w.registerChunkStats params r speed).record s).status = _
      rw [hrecord, if_neg (Nat.ne_of_lt hs)]
    · rw [statsOf, hs] at hnew
      exact of_decide_eq_false hnew hcompleted

/-- Placing an observer is about one record, and not about its status. -/
theorem addLimitObserver_record (w : World) (a : StatsId) (limit : Int) (cb : StopCallback)
    (s : StatsId) : ((w.addLimitObserver a limit cb).record s).status = (w.record s).status ∧
      (s ≠ a → (w.addLimitObserver a limit cb).record s = w.record s) := by
  have hset : ((w.setRecord a ((w.record a).addLimitObserver limit cb).1).record s).status =
      (w.record s).status ∧
      (s ≠ a → (w.setRecord a ((w.record a).addLimitObserver limit cb).1).record s =
        w.record s) := by
    rw [record_setRecord]
    split
    · rename_i hs
      refine ⟨?_, fun hne => absurd hs.1 hne⟩
      rw [hs.1]
      unfold ChunkDownloadStats.addLimitObserver
      split <;> rfl
    · exact ⟨rfl, fun _ => rfl⟩
  unfold World.addLimitObserver
  dsimp only
  cases ((w.record a).addLimitObserver limit cb).2 with
  | none => exact hset
  | some cb' =>
      rw [Option.elim_some, record_of_stats (stopPredecessor_asks _ cb').stats]
      exact hset

theorem observing_record (w : World) (currentRange newRange : ChunkRange) (a : StatsId)
    (w₂ : World) (s : StatsId) :
    ((w.observing currentRange newRange a w₂).record s).status = (w₂.record s).status ∧
      (s ≠ a → (w.observing currentRange newRange a w₂).record s = w₂.record s) := by
  unfold observing
  split
  · exact ⟨rfl, fun _ => rfl⟩
  · split
    · exact addLimitObserver_record _ _ _ _ s
    · exact ⟨rfl, fun _ => rfl⟩

/-- The observer is placed, if there is a limit to observe. -/
theorem Ending.observing {w₂ : World} (h₂ : w₂.Ending) (w : World)
    {currentRange newRange : ChunkRange} {a : StatsId}
    (hcontains : currentRange.contains newRange = true)
    (ha : w₂.chunksStats.get? currentRange = some a) (hentries : w.chunksTasks = w₂.chunksTasks) :
    (w.observing currentRange newRange a w₂).Ending := by
  unfold World.observing
  rw [hentries]
  split
  · exact h₂
  · rename_i e hend
    split
    · obtain ⟨hstart, hle, -⟩ := ChunkRange.of_contains hend hcontains
      refine h₂.addLimitObserver ha ?_
      omega
    · exact h₂

theorem Ending.resizeChunk (params : ChunkManagerParams) (h : w.Ending)
    {currentRange newRange : ChunkRange} (hnew : newRange ∉ w.chunksStats.keys)
    (hok : w.resizeChunk params currentRange newRange = .ok w') :
    w'.Ending ∧ w.KeepsCompleted w' := by
  rcases resizeChunk_cases hok with ⟨rfl, -⟩ | ⟨hresizes, a, ha, hcreates⟩
  · exact ⟨h, .refl w'⟩
  obtain rfl := Except.ok.inj ((resizeChunk_eq params hresizes ha).symm.trans hok)
  obtain ⟨hcontains, hne, -⟩ := hresizes
  have hlt := h.stats currentRange a ha
  have hkey : newRange ∉ w.chunksTasks.keys := by
    intro hmem
    obtain ⟨i, hi⟩ := Dict.mem_keys_iff.mp hmem
    obtain ⟨t, -, hs⟩ := h.entry newRange i hi
    exact hnew (Dict.mem_keys_iff.mpr ⟨t.stats, hs⟩)
  -- the record is registered and waits for its succession
  let b := w.stats.length
  let w₂ := w.awaiting params newRange (w.record a).targetSpeedBps
  have hlen : w₂.stats.length = w.stats.length + 1 := length_awaiting ..
  have h₂ : w₂.Ending := (h.registerChunkStats params _ hkey).setUnowned h.unowned_length _
  have ha₂ : w₂.chunksStats.get? currentRange = some a :=
    (Dict.get?_set_of_ne _ _ (Ne.symm hne)).trans ha
  have hrecord₂ : ∀ s, w₂.record s = if s = b then { freshRecord params newRange with
      status := .awaitingSuccession, targetSpeedBps := (w.record a).targetSpeedBps }
      else w.record s := record_awaiting params w newRange _
  let w₃ := w.observing currentRange newRange a w₂
  have h₃ : w₃.Ending := h₂.observing w hcontains ha₂ rfl
  have hev : w₂.Evolves w₃ := observing_evolves _ _ _ _ _
  have hrecord₃ : ∀ s, (w₃.record s).status = (w₂.record s).status ∧
      (s ≠ a → w₃.record s = w₂.record s) := observing_record w currentRange newRange a w₂
  have hb : w₃.record b = { freshRecord params newRange with
      status := .awaitingSuccession, targetSpeedBps := (w.record a).targetSpeedBps } := by
    rw [(hrecord₃ b).2 (Nat.ne_of_gt hlt), hrecord₂, if_pos rfl]
  refine ⟨?_, .of_creates hcreates (fun s hs => ?_) fun s hs => ?_⟩
  · refine h₃.createTask ?_ ?_ ?_ ?_ ?_ (Or.inr ?_) ?_
    · rw [hev.numStats, hlen]
      exact Nat.lt_succ_self _
    · intro i t ht
      obtain ⟨t₀, ht₀, hl⟩ := hev.task_of ht
      rw [hl.stats]
      exact h.unowned_length i t₀ ht₀
    · rw [hev.chunksStats]
      exact Dict.get?_set_self ..
    · rw [hb]
      rfl
    · rw [hb]
      rfl
    · rw [hb]
    · intro p k hjob
      obtain ⟨rfl, rfl⟩ := Job.succession.inj hjob
      refine ⟨hlt, fun j hj => ?_⟩
      obtain ⟨t, ht, -⟩ := h.entry currentRange j hj
      rw [hev.numTasks]
      exact (List.getElem?_eq_some_iff.mp ht).1
  · show (w₃.record s).status = _
    rw [(hrecord₃ s).1, hrecord₂, if_neg (Nat.ne_of_lt hs)]
  · exact fun _ => hnew (Dict.mem_keys_iff.mpr ⟨s, hs⟩)

end World

/-! ### Each step -/

/-- The steps of the methods that start, resize and stop chunks, and of the waits; a range is
resized to one that was not registered, and tasks have their first turns in order. -/
def StartsInOrder (w : World) : Event → Prop
  | .startChunk .. | .cancelChunk _ | .wait .. | .cancelAllChunks | .resume .. => True
  | .resizeChunk _ newRange => newRange ∉ w.chunksStats.keys
  | .task i _ => w.InOrder i
  | .deleteChunkData _ | .cleanup _ | .mergeChunks _ => False

instance (w : World) (e : Event) : Decidable (StartsInOrder w e) := by
  delta StartsInOrder
  induction e using Event.casesOn <;> infer_instance

namespace World

variable {w w' : World}

theorem KeepsEnding.keepsCompleted {result : World × Progress} (h : w.KeepsEnding result)
    (hstats : w'.stats = result.1.stats) (hchunksStats : w'.chunksStats = result.1.chunksStats) :
    w.KeepsCompleted w' := by
  intro s hs
  refine ⟨Or.inl ?_, fun r hr => ?_⟩
  · rw [record_of_stats (hstats.trans h.trims.asks.stats), hs]
  · rw [hchunksStats, h.trims.chunksStats, hr]

theorem KeepsEnding.called {result : World × Progress} (h : w.Ending)
    (hkeeps : w.KeepsEnding result) :
    (called result).1.Ending ∧ w.KeepsCompleted (called result).1 := by
  refine ⟨h.called hkeeps, ?_⟩
  obtain ⟨w', progress⟩ := result
  cases progress <;> exact hkeeps.keepsCompleted rfl rfl

theorem KeepsEnding.resumed {result : World × Progress} (i : Nat) (h : w.Ending)
    (hkeeps : w.KeepsEnding result) :
    (resumed i result).1.Ending ∧ w.KeepsCompleted (resumed i result).1 := by
  refine ⟨h.resumed i hkeeps, ?_⟩
  obtain ⟨w', progress⟩ := result
  cases progress <;> exact hkeeps.keepsCompleted rfl rfl

theorem Ending.cancelAllChunks (params : ChunkManagerParams) (h : w.Ending) :
    (SDownload.called (w.cancelAllChunks params .cancelAll)).1.Ending ∧
      w.KeepsCompleted (SDownload.called (w.cancelAllChunks params .cancelAll)).1 := by
  let w₁ := w.chunksTasks.entries.foldl World.cancelEntry w
  obtain ⟨h₁, hkept⟩ := h.cancelEntries fun entry hentry => Dict.get?_eq_some_iff.mpr hentry
  have hev := cancelEntries_evolves w.chunksTasks.entries w
  have hkeeps : w₁.KeepsEnding (w.cancelAllChunks params .cancelAll) := by
    unfold World.cancelAllChunks
    dsimp only
    split
    · exact gathered_keepsEnding params w₁
    · exact .suspended (.refl w₁) rfl
  obtain ⟨hending, hcompleted⟩ := KeepsEnding.called h₁ hkeeps
  refine ⟨hending, fun s hs => ?_⟩
  obtain ⟨hstays, hkey⟩ := hcompleted s (hkept s hs)
  refine ⟨hstays, fun r hr => hkey r ?_⟩
  rw [hev.chunksStats, hr]

/-- **A step** keeps the invariant, and completed chunks as they are. -/
theorem Ending.step {params : ChunkManagerParams} {e : Event} {out : List Returned} (h : w.Ending)
    (hok : StartsInOrder w e) (hstep : step params w e = some (w', out)) :
    w'.Ending ∧ w.KeepsCompleted w' := by
  cases e with
  | startChunk r speed =>
      obtain ⟨rfl, -⟩ := Prod.mk.inj (Option.some.inj hstep)
      exact h.startChunk params r speed
  | resizeChunk currentRange newRange =>
      obtain ⟨-, -, rfl, -⟩ | ⟨hresize, -⟩ := step_resizeChunk hstep
      · exact ⟨h, .refl w'⟩
      · exact h.resizeChunk params hok hresize
  | cancelChunk r =>
      obtain ⟨rfl, -⟩ := Prod.mk.inj (Option.some.inj hstep)
      exact KeepsEnding.called h (h.cancelChunk r)
  | wait timed returnWhen =>
      obtain ⟨rfl, -⟩ := Prod.mk.inj (Option.some.inj hstep)
      exact KeepsEnding.called h (w.waitForChunks_keepsEnding timed returnWhen)
  | cancelAllChunks =>
      obtain ⟨rfl, -⟩ := Prod.mk.inj (Option.some.inj hstep)
      exact h.cancelAllChunks params
  | resume i ok =>
      obtain ⟨f, result, hf, hresume, heq⟩ := step_resume hstep
      have hresult := KeepsEnding.resumed i h
        (h.resume (h.frames f (List.mem_of_getElem? hf)) hresume)
      rw [heq] at hresult
      exact hresult
  | task i e =>
      obtain ⟨hturn, -⟩ := step_task hstep
      obtain ⟨hending, hkept⟩ := h.taskStep hok hturn
      refine ⟨hending, fun s hs => ⟨hkept s hs, fun r hr => ?_⟩⟩
      rw [(taskStep_evolves hturn).chunksStats, hr]
  | deleteChunkData r => exact hok.elim
  | cleanup deleteFiles => exact hok.elim
  | mergeChunks cleanup => exact hok.elim

theorem ending_init (files : Files) (recoveredStats : List Stats) :
    (World.init files recoveredStats).Ending := by
  have hnone : ∀ (i : TaskId) (t : Task),
      (World.init files recoveredStats).tasks[i]? = some t → False := by
    intro i t ht
    cases (List.getElem?_nil (i := i)).symm.trans ht
  constructor
  case stats => exact fun r s hs => ((registered_init files recoveredStats).stats r s hs).1
  case entry => exact fun r i hi => by cases hi
  case frames => exact fun f hf => absurd hf List.not_mem_nil
  all_goals
    intro i
    intros
    exact (hnone i _ (by assumption)).elim

end World

/-- **Every task leaves a terminal status.** In every run of the methods that start, resize and stop
chunks, with or without recovered chunks: a task that is done has left its record `COMPLETED`,
`DEPRECATED`, `CANCELLED` or `ERROR`, and no step changes a `COMPLETED` but to `DEPRECATED`, by a
succession that has completed. -/
theorem finished_tasks_terminal (params : ChunkManagerParams) (files : Files)
    (recoveredStats : List Stats) {w : World}
    (h : Reaches (step params) StartsInOrder (World.init files recoveredStats) w) :
    (∀ t ∈ w.tasks, t.Done → (w.record t.stats).status.Terminal) ∧
      ∀ e w' out, StartsInOrder w e → step params w e = some (w', out) → w.KeepsCompleted w' := by
  have hending : w.Ending := h.invariant (World.ending_init files recoveredStats)
    fun h hok hstep => (h.step hok hstep).1
  refine ⟨fun t ht hdone => ?_, fun e w' out hok hstep => (hending.step hok hstep).2⟩
  obtain ⟨i, hi⟩ := List.mem_iff_getElem?.mp ht
  exact (hending.owned i t hi).done hdone

/-- A chunk is split, a second one is started, and everything is cancelled before the last two tasks
had a turn. -/
def interruptedRun : List Event :=
  [.startChunk ⟨0, some 3⟩ none, .task 0 .begins, .resizeChunk ⟨0, some 3⟩ ⟨0, some 1⟩,
    .startChunk ⟨4, some 7⟩ none, .cancelAllChunks, .task 1 (.cancelled none),
    .task 0 (.cancelled none), .task 2 (.cancelled none), .resume 0 true]

theorem finished_tasks_terminal_interrupted :
    let w := runTo (step ⟨"f", some 8, 1⟩) StartsInOrder (World.init FileSystem.empty [])
      interruptedRun
    (w.tasks.map (·.result) = [some .cancelled, some .cancelled, some .cancelled]) ∧
      ∀ t ∈ w.tasks, t.Done → (w.record t.stats).status.Terminal :=
  ⟨by decide, (finished_tasks_terminal _ _ _ (reaches_runTo _ _ _ _)).1⟩

end SDownload
