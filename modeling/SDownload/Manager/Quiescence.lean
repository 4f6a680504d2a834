import SDownload.Lib.Run
import SDownload.Lib.Sums
import SDownload.Manager.Downloads
import SDownload.Manager.Registry

/-!
# SDownload.Manager.Quiescence

When a manager comes to rest: no task can take a turn and no suspended call can go
on, unless somebody calls one of its methods.

A task only ever waits for one that was created before it, so that of the tasks
that run the first one has a turn (`Alive.exists_turn`): the manager rests only when
all tasks are done. By then every wait, every gather and every join has what it
waits for, and the lock of the waits is held by one that can go on. What is left is
`cancel_chunk`, which waits for the init signal of a task before it cancels it. A
task that was cancelled before its first turn never sets its signal. Such a call is
still suspended in every later state, whatever is called (`Abandoned.of_reaches`), and
`rests_iff` says that this is the only way for one to wait forever.
-/

namespace SDownload

/-! ### Where a task can stand -/

/-- The phases of a download. -/
def Phase.ofDownload : Phase → Bool
  | .created | .opening | .receiving .. | .writing .. | .closing .. | .done _ => true
  | _ => false

/-- The phases of a succession. -/
def Phase.ofSuccession : Phase → Bool
  | .created | .awaitingPredecessor | .cropping .. | .moving .. | .cancellingPredecessor
  | .done _ => true
  | _ => false

/-- The phases in which a succession waits for its predecessor's task. -/
def Phase.awaitsPredecessor : Phase → Bool
  | .awaitingPredecessor | .cancellingPredecessor => true
  | _ => false

/-- How many turns lie ahead, if no piece arrives. -/
def Phase.rank : Phase → Nat
  | .created => 6
  | .opening | .awaitingPredecessor => 5
  | .writing .. => 4
  | .receiving .. | .cropping .. => 3
  | .moving .. => 2
  | .closing .. | .cancellingPredecessor => 1
  | .done _ => 0

/-- A turn with a piece of the response. -/
def TaskEvent.isPiece : TaskEvent → Bool
  | .piece _ => true
  | _ => false

/-- A turn of a task, or of a suspended call; all others are calls that somebody makes. -/
def Event.ofProgram : Event → Bool
  | .resume .. | .task .. => true
  | _ => false

/-- A piece of a response arrives. -/
def Event.isPiece : Event → Bool
  | .task _ e => e.isPiece
  | _ => false

namespace Task

/-- The turns ahead, and the cancellation that waits. -/
def weight (t : Task) : Nat := 2 * t.phase.rank + t.cancelRequested.toNat

/-- Task `i` stands where its coroutine has an `await`, a predecessor it may wait for is an earlier
task, and without its init signal it has not begun, or was cancelled before it did. -/
structure Fits (i : TaskId) (t : Task) : Prop where
  download : t.job = .download → t.phase.ofDownload = true
  succession : ∀ p k, t.job = .succession p k → t.phase.ofSuccession = true ∧
    (∀ j ∈ k, j < i) ∧ (t.phase.awaitsPredecessor = true → k.isSome = true)
  signal : t.initSignal = false → t.phase = .created ∨ t.phase = .done .cancelled

/-- What a turn does to the init signal: it stays, and is set by the first turn. -/
def Signals (t t' : Task) : Prop :=
  t'.initSignal = false →
    t.initSignal = false ∧ (t.phase = .created → t'.phase = .done .cancelled)

theorem Signals.later {t t' : Task} (hphase : t.phase ≠ .created)
    (hsignal : t'.initSignal = t.initSignal) : t.Signals t' := fun h =>
  ⟨hsignal ▸ h, fun hcreated => absurd hcreated hphase⟩

end Task

/-! ### Turns -/

namespace DownloadState

variable {d d' : DownloadState} {e : TaskEvent} {callback : Option StopCallback}

/-- What a turn of a download does to its task. -/
structure Proceeds (d : DownloadState) (e : TaskEvent) (d' : DownloadState) : Prop where
  phase : d'.task.phase.ofDownload = true
  signals : d.task.Signals d'.task
  weight : e.isPiece = false → d'.task.weight < d.task.weight
  piece : e.isPiece = true → d'.task.weight ≤ d.task.weight + 2

/-- A turn that is not the first one ends the task, or takes it to a phase of lower rank. -/
theorem proceeds_of_rank (hphase : d'.task.phase.ofDownload = true)
    (hcreated : d.task.phase ≠ .created) (hsignal : d'.task.initSignal = d.task.initSignal)
    (hcancel : d'.task.cancelRequested = d.task.cancelRequested)
    (hrank : d'.task.phase.rank < d.task.phase.rank) : d.Proceeds e d' where
  phase := hphase
  signals := .later hcreated hsignal
  weight _ := by
    rw [Task.weight, Task.weight, hcancel]
    omega
  piece _ := by
    rw [Task.weight, Task.weight, hcancel]
    omega

theorem proceeds_finish {d₁ : DownloadState} (r : TaskEnd) (hcreated : d.task.phase ≠ .created)
    (htask : d₁.task = d.task) (hrank : 0 < d.task.phase.rank) : d.Proceeds e (d₁.finish r) := by
  obtain ⟨r', hr⟩ := d₁.finish_task r
  rw [htask] at hr
  refine proceeds_of_rank ?_ hcreated ?_ ?_ ?_ <;> rw [hr]
  · rfl
  · exact hrank

theorem proceeds_run (h : d.run e = some (d', callback)) : d.Proceeds e d' := by
  unfold run at h
  split at h <;> first | cases h; done | rename_i hphase
  all_goals
    obtain ⟨rfl, -⟩ := Prod.mk.inj (Option.some.inj h)
  · refine ⟨rfl, fun h => Bool.noConfusion h, fun _ => ?_, fun h => Bool.noConfusion h⟩
    simp only [Task.weight, hphase, Phase.rank]
    omega
  · exact proceeds_of_rank rfl (by simp [hphase]) rfl rfl (by simp [hphase, enter, Phase.rank])
  · rename_i effect
    exact proceeds_finish _ (by simp [hphase]) (d.openFile_later effect.isSome).1
      (by simp [hphase, Phase.rank])
  · refine ⟨rfl, .later (by simp [hphase]) rfl, fun h => Bool.noConfusion h, fun _ => ?_⟩
    simp only [Task.weight, enter, hphase, Phase.rank]
    omega
  · exact proceeds_of_rank rfl (by simp [hphase]) rfl rfl (by simp [hphase, enter, Phase.rank])
  · exact proceeds_of_rank rfl (by simp [hphase]) rfl rfl (by simp [hphase, enter, Phase.rank])
  · exact proceeds_of_rank rfl (by simp [hphase]) rfl rfl (by simp [hphase, enter, Phase.rank])
  · refine proceeds_of_rank rfl (by simp [hphase]) ?_ ?_ ?_ <;> simp [hphase, enter, Phase.rank]
  · exact proceeds_finish _ (by simp [hphase]) rfl (by simp [hphase, Phase.rank])
  · exact proceeds_finish _ (by simp [hphase]) (by simp) (by simp [hphase, Phase.rank])

theorem proceeds_cancel {effect : Option Bytes} (hasked : d.task.cancelRequested = true)
    (h : d.cancel effect = some d') : d.Proceeds (.cancelled effect) d' := by
  have hlater : ∀ {phase : Phase}, d.task.phase ≠ .created → phase.ofDownload = true →
      phase.rank ≤ d.task.phase.rank → d'.task = { d.task with cancelRequested := false, phase } →
      d.Proceeds (.cancelled effect) d' := by
    intro phase hcreated hdownload hrank htask
    refine ⟨by rw [htask]; exact hdownload, .later hcreated (by rw [htask]), fun _ => ?_, nofun⟩
    simp only [Task.weight, htask, hasked, Bool.toNat_true, Bool.toNat_false]
    omega
  unfold cancel at h
  dsimp only at h
  split at h <;> first | cases h; done | rename_i hphase
  all_goals
    obtain rfl := Option.some.inj h
  · refine ⟨rfl, fun hs => ⟨hs, fun _ => rfl⟩, fun _ => ?_, nofun⟩
    simp only [Task.weight, enter, hphase, hasked, Phase.rank, Bool.toNat_true, Bool.toNat_false]
    omega
  · -- the file may have been created
    obtain ⟨r, hr⟩ := (if effect.isSome then
      ({ d with task := { d.task with cancelRequested := false } } : DownloadState).openFile.2 else
      { d with task := { d.task with cancelRequested := false } }).finish_task .cancelled
    rw [(openFile_later _ _).1] at hr
    exact hlater (by simp [hphase]) rfl (Nat.zero_le _) hr
  · exact hlater (by simp [hphase]) rfl (by simp [hphase, Phase.rank]) rfl
  · exact hlater (by simp [hphase]) rfl (by simp [hphase, Phase.rank]) rfl
  · exact hlater (by simp [hphase]) rfl (by simp [hphase, Phase.rank]) rfl

theorem proceeds_step (h : d.step e = some (d', callback)) : d.Proceeds e d' := by
  unfold step at h
  split at h
  · rename_i hasked
    obtain ⟨d'', hcancel, heq⟩ := Option.map_eq_some_iff.mp h
    obtain ⟨rfl, -⟩ := Prod.mk.inj heq
    exact proceeds_cancel hasked hcancel
  · cases h
  · exact proceeds_run h

/-- A limit is reached by a piece. -/
theorem isPiece_of_callback {cb : StopCallback} (h : d.step e = some (d', some cb)) :
    e.isPiece = true := by
  unfold step at h
  split at h
  · obtain ⟨d'', -, heq⟩ := Option.map_eq_some_iff.mp h
    cases (Prod.mk.inj heq).2
  · cases h
  · unfold run at h
    split at h <;> first | rfl | cases h

theorem step_of_done {r : TaskEnd} (hphase : d.task.phase = .done r) (e : TaskEvent) :
    d.step e = none := by
  unfold step
  split
  · simp [cancel, hphase]
  · rfl
  · simp [run, hphase]

/-- A download that runs has a turn, also without a piece. -/
theorem exists_step (hphase : d.task.phase.ofDownload = true) (hlive : ¬ d.task.Done) :
    ∃ e, e.isPiece = false ∧ (d.step e).isSome = true := by
  cases hask : d.task.cancelRequested with
  | true =>
      refine ⟨.cancelled none, rfl, ?_⟩
      unfold step cancel
      rw [hask]
      cases h : d.task.phase <;> simp_all [Phase.ofDownload, Task.Done, Task.result]
  | false =>
      cases h : d.task.phase with
      | created => exact ⟨.begins, rfl, by simp [step, run, hask, h]⟩
      | opening => exact ⟨.opened, rfl, by simp [step, run, hask, h]⟩
      | receiving file delivered => exact ⟨.eof, rfl, by simp [step, run, hask, h]⟩
      | writing file delivered chunk => exact ⟨.written, rfl, by simp [step, run, hask, h]⟩
      | closing file delivered left => exact ⟨.closed, rfl, by simp [step, run, hask, h]⟩
      | done r => exact absurd (Task.done_iff.mpr ⟨r, h⟩) hlive
      | _ => simp [h, Phase.ofDownload] at hphase

end DownloadState

namespace SuccessionState

variable {u u' : SuccessionState} {hasTask stops : Bool} {predecessorEnd : Option TaskEnd}
  {e : TaskEvent}

/-- What a turn of a succession does to its task; `stops` is the cancellation it passes on. -/
structure Proceeds (u : SuccessionState) (hasTask : Bool) (u' : SuccessionState) (stops : Bool) :
    Prop where
  phase : u'.task.phase.ofSuccession = true
  awaits : u'.task.phase.awaitsPredecessor = true → hasTask = true
  signals : u.task.Signals u'.task
  weight : u'.task.weight + stops.toNat < u.task.weight

/-- A turn without a cancellation that takes the task to a phase of lower rank. -/
theorem proceeds_of_rank {phase : Phase} (htask : u'.task = { u.task with phase })
    (hcreated : u.task.phase ≠ .created) (hrank : phase.rank < u.task.phase.rank)
    (hphase : phase.ofSuccession = true)
    (hawaits : phase.awaitsPredecessor = true → hasTask = true) : u.Proceeds hasTask u' false where
  phase := by rw [htask]; exact hphase
  awaits := by rw [htask]; exact hawaits
  signals := .later hcreated (by rw [htask])
  weight := by
    simp only [Task.weight, htask, Bool.toNat_false]
    omega

/-- The phases in which a predecessor's end leaves the task. -/
theorem succeed_task (u : SuccessionState) (predecessorEnd : TaskEnd) :
    ∃ phase, (u.succeed predecessorEnd).task = { u.task with phase } ∧
      phase.ofSuccession = true ∧ phase.awaitsPredecessor = false ∧ phase.rank ≤ 3 := by
  unfold succeed
  dsimp only
  split
  · exact ⟨_, rfl, rfl, rfl, Nat.zero_le _⟩
  · split
    · exact ⟨_, rfl, rfl, rfl, Nat.zero_le _⟩
    · split
      · exact ⟨_, rfl, rfl, rfl, Nat.zero_le _⟩
      · split
        · exact ⟨_, rfl, rfl, rfl, Nat.zero_le _⟩
        · exact ⟨_, rfl, rfl, rfl, le_rfl⟩

/-- The first turn sets the signal. -/
theorem begin_task (u : SuccessionState) (hasTask : Bool) :
    ∃ phase, (u.begin hasTask).task = { u.task with phase, initSignal := true } ∧
      phase.ofSuccession = true ∧ (phase.awaitsPredecessor = true → hasTask = true) ∧
      phase.rank ≤ 5 := by
  unfold begin
  dsimp only
  split
  · exact ⟨_, rfl, rfl, nofun, Nat.zero_le _⟩
  · split
    · rename_i htask
      exact ⟨_, rfl, rfl, fun _ => htask, le_rfl⟩
    · obtain ⟨phase, htask, hphase, hawaits, hrank⟩ :=
        succeed_task { u with task := { u.task with initSignal := true } } .returned
      refine ⟨phase, htask, hphase, fun h => ?_, by omega⟩
      rw [hawaits] at h
      cases h

theorem proceeds_run (h : u.run hasTask predecessorEnd e = some u') :
    u.Proceeds hasTask u' false := by
  unfold run at h
  split at h <;> first | cases h; done | rename_i hphase
  · obtain rfl := Option.some.inj h
    obtain ⟨phase, htask, hsucc, hawaits, hrank⟩ := u.begin_task hasTask
    refine ⟨by rw [htask]; exact hsucc, by rw [htask]; exact hawaits, fun hs => ?_, ?_⟩
    · rw [htask] at hs
      cases hs
    · have hcreated : u.task.phase.rank = 6 := by rw [hphase]; rfl
      simp only [Task.weight, htask, Bool.toNat_false]
      omega
  · obtain ⟨r, -, rfl⟩ := Option.map_eq_some_iff.mp h
    obtain ⟨phase, htask, hsucc, hawaits, hrank⟩ := u.succeed_task r
    refine proceeds_of_rank htask (by simp [hphase]) ?_ hsucc fun h => ?_
    · rw [hphase]
      exact Nat.lt_of_le_of_lt hrank (by decide)
    · rw [hawaits] at h
      cases h
  · split at h
    · obtain rfl := Option.some.inj h
      exact proceeds_of_rank rfl (by simp [hphase]) (by simp [hphase, Phase.rank]) rfl nofun
    · obtain rfl := Option.some.inj h
      exact proceeds_of_rank rfl (by simp [hphase]) (by simp [hphase, Phase.rank]) rfl nofun
  · obtain rfl := Option.some.inj h
    exact proceeds_of_rank rfl (by simp [hphase]) (by simp [hphase, Phase.rank]) rfl nofun
  · split at h
    · obtain rfl := Option.some.inj h
      exact proceeds_of_rank rfl (by simp [hphase]) (by simp [hphase, Phase.rank]) rfl nofun
    · obtain rfl := Option.some.inj h
      exact proceeds_of_rank rfl (by simp [hphase]) (by simp [hphase, Phase.rank]) rfl nofun
  · obtain rfl := Option.some.inj h
    exact proceeds_of_rank rfl (by simp [hphase]) (by simp [hphase, Phase.rank]) rfl nofun
  · split at h
    · cases h
    · obtain rfl := Option.some.inj h
      exact proceeds_of_rank rfl (by simp [hphase]) (by simp [hphase, Phase.rank]) rfl nofun
    · obtain rfl := Option.some.inj h
      exact proceeds_of_rank rfl (by simp [hphase]) (by simp [hphase, Phase.rank]) rfl nofun

theorem handleCancel_task (u : SuccessionState) (runs : Bool) :
    (u.handleCancel runs).1.task =
        { u.task with phase := if runs then .cancellingPredecessor else .done .cancelled } ∧
      (u.handleCancel runs).2 = runs := by
  cases runs <;> exact ⟨rfl, rfl⟩

/-- The handler of a cancellation gives up, or passes it on to a predecessor that runs. -/
theorem proceeds_handleCancel {u₁ : SuccessionState} {runs : Bool}
    (htask : u₁.task = { u.task with cancelRequested := false })
    (hasked : u.task.cancelRequested = true) (hcreated : u.task.phase ≠ .created)
    (hrank : 2 ≤ u.task.phase.rank) (hruns : runs = true → hasTask = true) :
    u.Proceeds hasTask (u₁.handleCancel runs).1 (u₁.handleCancel runs).2 := by
  obtain ⟨h, hstops⟩ := u₁.handleCancel_task runs
  rw [htask] at h
  cases runs with
  | true =>
      refine ⟨by rw [h]; rfl, fun _ => hruns rfl, .later hcreated (by rw [h]), ?_⟩
      have hnext : Phase.cancellingPredecessor.rank = 1 := rfl
      simp only [Task.weight, h, hasked, hstops, if_true, Bool.toNat_true, Bool.toNat_false]
      omega
  | false =>
      refine ⟨by rw [h]; rfl, by rw [h]; nofun, .later hcreated (by rw [h]), ?_⟩
      have hnext : (Phase.done .cancelled).rank = 0 := rfl
      simp only [Task.weight, h, hasked, hstops, Bool.false_eq_true, if_false, Bool.toNat_true,
        Bool.toNat_false]
      omega

theorem proceeds_cancel {runs : Bool} {effect : Option Bytes} (hruns : runs = true → hasTask = true)
    (hasked : u.task.cancelRequested = true) (h : u.cancel runs effect = some (u', stops)) :
    u.Proceeds hasTask u' stops := by
  unfold cancel at h
  dsimp only at h
  split at h <;> first | cases h; done | rename_i hphase
  · obtain ⟨rfl, rfl⟩ := Prod.mk.inj (Option.some.inj h)
    refine ⟨rfl, nofun, fun hs => ⟨hs, fun _ => rfl⟩, ?_⟩
    simp only [Task.weight, enter, hphase, hasked, Phase.rank, Bool.toNat_true, Bool.toNat_false]
    omega
  · obtain ⟨rfl, rfl⟩ := Prod.mk.inj (Option.some.inj h)
    exact proceeds_handleCancel rfl hasked (by simp [hphase]) (by simp [hphase, Phase.rank]) hruns
  · obtain ⟨rfl, rfl⟩ := Prod.mk.inj (Option.some.inj h)
    exact proceeds_handleCancel rfl hasked (by simp [hphase]) (by simp [hphase, Phase.rank]) hruns
  · obtain ⟨rfl, rfl⟩ := Prod.mk.inj (Option.some.inj h)
    exact proceeds_handleCancel rfl hasked (by simp [hphase]) (by simp [hphase, Phase.rank]) hruns
  · obtain ⟨rfl, rfl⟩ := Prod.mk.inj (Option.some.inj h)
    refine ⟨rfl, nofun, .later (by simp [hphase]) rfl, ?_⟩
    simp only [Task.weight, abandon, enter, hphase, hasked, Phase.rank, Bool.toNat_true,
      Bool.toNat_false]
    omega

theorem proceeds_step (h : u.step hasTask predecessorEnd e = some (u', stops)) :
    u.Proceeds hasTask u' stops := by
  unfold step at h
  split at h
  · rename_i hasked
    exact proceeds_cancel (fun hruns => (Bool.and_eq_true_iff.mp hruns).1) hasked h
  · cases h
  · obtain ⟨u'', hrun, heq⟩ := Option.map_eq_some_iff.mp h
    obtain ⟨rfl, rfl⟩ := Prod.mk.inj heq
    exact proceeds_run hrun

theorem step_of_done {r : TaskEnd} (hphase : u.task.phase = .done r) (hasTask : Bool)
    (predecessorEnd : Option TaskEnd) (e : TaskEvent) :
    u.step hasTask predecessorEnd e = none := by
  unfold step
  split
  · simp [cancel, hphase]
  · rfl
  · simp [run, hphase]

/-- A succession that runs has a turn, unless it waits for a predecessor that does. -/
theorem exists_step (hasTask : Bool) (hphase : u.task.phase.ofSuccession = true)
    (hlive : ¬ u.task.Done)
    (hended : u.task.phase.awaitsPredecessor = true → predecessorEnd.isSome = true) :
    ∃ e, e.isPiece = false ∧ (u.step hasTask predecessorEnd e).isSome = true := by
  cases hask : u.task.cancelRequested with
  | true =>
      refine ⟨.cancelled none, rfl, ?_⟩
      unfold step cancel
      rw [hask]
      cases h : u.task.phase <;> simp_all [Phase.ofSuccession, Task.Done, Task.result]
  | false =>
      cases h : u.task.phase with
      | created => exact ⟨.begins, rfl, by simp [step, run, hask, h]⟩
      | awaitingPredecessor =>
          rw [h] at hended
          refine ⟨.predecessorEnded, rfl, ?_⟩
          simp [step, run, hask, h, hended rfl]
      | cropping s e => exact ⟨.fails none, rfl, by simp [step, run, hask, h]⟩
      | moving s e => exact ⟨.fails none, rfl, by simp [step, run, hask, h]⟩
      | cancellingPredecessor =>
          rw [h] at hended
          obtain ⟨r, rfl⟩ := Option.isSome_iff_exists.mp (hended rfl)
          refine ⟨.predecessorEnded, rfl, ?_⟩
          cases r <;> simp [step, run, hask, h]
      | done r => exact absurd (Task.done_iff.mpr ⟨r, h⟩) hlive
      | _ => simp [h, Phase.ofSuccession] at hphase

end SuccessionState

/-! ### What methods leave alone -/

/-- The task, without a cancellation that waits for it. -/
def Task.unasked (t : Task) : Task := { t with cancelRequested := false }

theorem Task.unasked_requestCancel (t : Task) : (World.requestCancel t).unasked = t.unasked := by
  unfold World.requestCancel
  split <;> rfl

theorem Task.Fits.of_unasked {i : TaskId} {t t' : Task} (h : t.Fits i)
    (heq : t'.unasked = t.unasked) : t'.Fits i := by
  obtain ⟨range, stats, job, phase, initSignal, cancelRequested⟩ := t
  obtain ⟨range', stats', job', phase', initSignal', cancelRequested'⟩ := t'
  simp only [unasked, Task.mk.injEq] at heq
  obtain ⟨rfl, rfl, rfl, rfl, rfl, -⟩ := heq
  exact ⟨h.download, h.succession, h.signal⟩

/-- The call holds the lock of the waits. -/
def Frame.holds : Frame → Nat
  | .waiting .. => 1
  | _ => 0

/-- The tasks that a suspended call waits for are among the first `n`, and a wait has some. -/
def Frame.Known (n : Nat) : Frame → Prop
  | .cancelInit _ t _ | .cancelJoin _ t _ => t < n
  | .waiting allTasks _ _ => allTasks ≠ [] ∧ ∀ t ∈ allTasks, t < n
  | .gathering allTasks _ => ∀ t ∈ allTasks, t < n
  | _ => True

theorem Frame.Known.mono {n m : Nat} {f : Frame} (h : f.Known n) (hle : n ≤ m) : f.Known m := by
  cases f with
  | cancelInit r t thenDelete => exact Nat.lt_of_lt_of_le h hle
  | cancelJoin r t thenDelete => exact Nat.lt_of_lt_of_le h hle
  | waiting allTasks timed returnWhen =>
      exact ⟨h.1, fun t ht => Nat.lt_of_lt_of_le (h.2 t ht) hle⟩
  | gathering allTasks goal => exact fun t ht => Nat.lt_of_lt_of_le (h t ht) hle
  | _ => trivial

def Progress.holds : Progress → Nat
  | .suspended f => f.holds
  | .returned _ => 0

namespace World

variable {params : ChunkManagerParams} {w w' w₁ : World}

/-- How many calls hold the lock. -/
def lock (w : World) : Nat := w.waitLocked.toNat

/-- The second world has the tasks of the first one where they stand, asked to stop perhaps, and
has registered nothing since. -/
structure StandsStill (w w' : World) : Prop where
  tasks : w'.tasks.map Task.unasked = w.tasks.map Task.unasked
  entry : ∀ r i, w'.chunksTasks.get? r = some i → w.chunksTasks.get? r = some i
  calls : w'.calls = w.calls
  waitLocked : w'.waitLocked = w.waitLocked

theorem StandsStill.refl (w : World) : w.StandsStill w := ⟨rfl, fun _ _ h => h, rfl, rfl⟩

theorem StandsStill.trans (h : w.StandsStill w₁) (h' : w₁.StandsStill w') : w.StandsStill w' where
  tasks := h'.tasks.trans h.tasks
  entry r i hi := h.entry r i (h'.entry r i hi)
  calls := h'.calls.trans h.calls
  waitLocked := h'.waitLocked.trans h.waitLocked

theorem StandsStill.numTasks (h : w.StandsStill w') : w'.tasks.length = w.tasks.length := by
  have hlen := congrArg List.length h.tasks
  rwa [List.length_map, List.length_map] at hlen

theorem cancelTask_standsStill (w : World) (i : TaskId) : w.StandsStill (w.cancelTask i) :=
  ⟨map_modify_of_eq Task.unasked_requestCancel _ _, fun _ _ h => h, rfl, rfl⟩

theorem stopPredecessor_standsStill (w : World) (cb : StopCallback) :
    w.StandsStill (w.stopPredecessor cb) := by
  unfold stopPredecessor
  split
  · exact .refl w
  · split
    · exact cancelTask_standsStill _ _
    · exact .refl w

theorem eraseTask_standsStill (w : World) (r : ChunkRange) :
    w.StandsStill { w with chunksTasks := w.chunksTasks.erase r } :=
  ⟨rfl, fun _ _ h => (Dict.get?_erase_eq_some.mp h).2, rfl, rfl⟩

theorem chunksStats_standsStill (w : World) (chunksStats : Dict ChunkRange StatsId) :
    w.StandsStill { w with chunksStats } :=
  ⟨rfl, fun _ _ h => h, rfl, rfl⟩

theorem files_standsStill (w : World) (files : Files) : w.StandsStill { w with files } :=
  ⟨rfl, fun _ _ h => h, rfl, rfl⟩

/-- How a method ends that began with `held` calls of it in the lock: nothing but the lock has
changed, and it is suspended in a call that knows its tasks. -/
structure Settled (w : World) (result : World × Progress) (held : Nat) : Prop where
  tasks : result.1.tasks.map Task.unasked = w.tasks.map Task.unasked
  entry : ∀ r i, result.1.chunksTasks.get? r = some i → w.chunksTasks.get? r = some i
  calls : result.1.calls = w.calls
  lock : result.1.lock + held = w.lock + result.2.holds
  frame : ∀ f, result.2 = .suspended f → f.Known w.tasks.length

theorem StandsStill.returned (h : w.StandsStill w') (replies : List Returned) :
    w.Settled (w', .returned replies) 0 where
  tasks := h.tasks
  entry := h.entry
  calls := h.calls
  lock := by
    show w'.waitLocked.toNat + 0 = w.waitLocked.toNat + 0
    rw [h.waitLocked]
  frame := nofun

theorem StandsStill.suspended (h : w.StandsStill w') {f : Frame} (hholds : f.holds = 0)
    (hknown : f.Known w.tasks.length) : w.Settled (w', .suspended f) 0 where
  tasks := h.tasks
  entry := h.entry
  calls := h.calls
  lock := by
    show w'.waitLocked.toNat + 0 = w.waitLocked.toNat + f.holds
    rw [h.waitLocked, hholds]
  frame f' hf' := by
    obtain rfl := Progress.suspended.inj hf'
    exact hknown

theorem StandsStill.settled {result : World × Progress} {held : Nat} (h : w.StandsStill w')
    (hresult : w'.Settled result held) : w.Settled result held where
  tasks := hresult.tasks.trans h.tasks
  entry r i hi := h.entry r i (hresult.entry r i hi)
  calls := hresult.calls.trans h.calls
  lock := by
    have hlock := hresult.lock
    rwa [lock, lock, h.waitLocked] at hlock
  frame f hf := h.numTasks ▸ hresult.frame f hf

/-! ### Method by method -/

theorem popAndDelete_settled (w : World) (r : ChunkRange) : w.Settled (w.popAndDelete r) 0 := by
  unfold popAndDelete
  split
  · exact (StandsStill.refl w).returned _
  · exact (w.chunksStats_standsStill _).suspended rfl trivial

theorem cancelReturns_settled (w : World) (r : ChunkRange) (thenDelete cancelled : Bool) :
    w.Settled (w.cancelReturns r thenDelete cancelled) 0 := by
  unfold cancelReturns
  split
  · exact w.popAndDelete_settled r
  · exact (StandsStill.refl w).returned _

theorem cancelJoined_settled (w : World) (r : ChunkRange) (thenDelete : Bool) :
    w.Settled (w.cancelJoined r thenDelete) 0 := by
  unfold cancelJoined
  split
  · exact (w.eraseTask_standsStill r).settled (cancelReturns_settled _ _ _ _)
  · exact (StandsStill.refl w).returned _

theorem cancelSignalled_settled (w : World) (r : ChunkRange) {t : TaskId}
    (ht : t < w.tasks.length) (thenDelete : Bool) :
    w.Settled (w.cancelSignalled r t thenDelete) 0 := by
  have hcancel := w.cancelTask_standsStill t
  unfold cancelSignalled
  dsimp only
  split
  · exact hcancel.settled (cancelJoined_settled _ _ _)
  · exact hcancel.suspended rfl ht

theorem cancelChunk_settled (hentry : ∀ r i, w.chunksTasks.get? r = some i → i < w.tasks.length)
    (r : ChunkRange) (thenDelete : Bool) : w.Settled (w.cancelChunk r thenDelete) 0 := by
  unfold cancelChunk
  split
  · exact w.cancelReturns_settled _ _ _
  · rename_i t ht
    split
    · exact (StandsStill.refl w).returned _
    · split
      · split
        · exact w.cancelSignalled_settled r (hentry r t ht) thenDelete
        · exact (StandsStill.refl w).suspended rfl (hentry r t ht)
      · exact w.cancelReturns_settled _ _ _

theorem deleteChunkData_settled
    (hentry : ∀ r i, w.chunksTasks.get? r = some i → i < w.tasks.length) (r : ChunkRange) :
    w.Settled (w.deleteChunkData r) 0 := by
  unfold deleteChunkData
  split
  · exact cancelChunk_settled hentry r true
  · exact w.popAndDelete_settled r

theorem mem_values_lt (hentry : ∀ r i, w.chunksTasks.get? r = some i → i < w.tasks.length) :
    ∀ t ∈ w.chunksTasks.values, t < w.tasks.length := by
  intro t ht
  obtain ⟨r, hr⟩ := Dict.mem_values_iff.mp ht
  exact hentry r t hr

theorem waitEntered_settled (hentry : ∀ r i, w.chunksTasks.get? r = some i → i < w.tasks.length)
    (hfree : w.waitLocked = false) (timed : Bool) (returnWhen : ReturnWhen) :
    w.Settled (w.waitEntered timed returnWhen) 0 := by
  unfold waitEntered
  split
  · exact (StandsStill.refl w).returned _
  · rename_i hkeys
    refine ⟨rfl, fun _ _ h => h, rfl, ?_, fun f hf => ?_⟩
    · show true.toNat + 0 = w.waitLocked.toNat + 1
      rw [hfree]
      rfl
    · obtain rfl := Progress.suspended.inj hf
      refine ⟨fun hnil => hkeys ?_, mem_values_lt hentry⟩
      rw [Dict.keys, List.map_eq_nil_iff]
      exact List.map_eq_nil_iff.mp hnil

theorem waitForChunks_settled
    (hentry : ∀ r i, w.chunksTasks.get? r = some i → i < w.tasks.length) (timed : Bool)
    (returnWhen : ReturnWhen) : w.Settled (w.waitForChunks timed returnWhen) 0 := by
  unfold waitForChunks
  split
  · exact (StandsStill.refl w).suspended rfl trivial
  · rename_i hfree
    exact waitEntered_settled hentry (Bool.eq_false_iff.mpr hfree) timed returnWhen

theorem waitCollects_settled (hlocked : w.lock = 1) (allTasks : List TaskId) :
    w.Settled (w.waitCollects allTasks) 1 := by
  unfold waitCollects
  dsimp only
  split
  · refine ⟨rfl, fun _ _ h => h, rfl, ?_, nofun⟩
    rw [hlocked]
    rfl
  · refine ⟨rfl, fun r i hi => ?_, rfl, ?_, nofun⟩
    · dsimp only at hi
      rw [Dict.get?_foldl_erase] at hi
      split at hi
      · cases hi
      · exact hi
    · rw [hlocked]
      rfl

theorem cleanupDone_settled (params : ChunkManagerParams) (w : World) (ofMerge : Bool) :
    w.Settled (w.cleanupDone params ofMerge) 0 :=
  (w.chunksStats_standsStill _).returned _

theorem gathered_settled (params : ChunkManagerParams) (w : World) (goal : GatherGoal) :
    w.Settled (w.gathered params goal) 0 := by
  have hclear : w.StandsStill { w with chunksTasks := Dict.empty } :=
    ⟨rfl, fun r i h => absurd h (by simp), rfl, rfl⟩
  unfold gathered
  dsimp only
  cases goal with
  | cancelAll => exact hclear.returned _
  | cleanup deleteFiles ofMerge =>
      cases deleteFiles with
      | true => exact hclear.suspended rfl trivial
      | false => exact hclear.settled (cleanupDone_settled params _ ofMerge)

theorem cancelEntry_standsStill (w : World) (entry : ChunkRange × TaskId) :
    w.StandsStill (w.cancelEntry entry) := by
  have hcancel := w.cancelTask_standsStill entry.2
  unfold cancelEntry
  dsimp only
  split
  · exact hcancel
  · split
    · exact hcancel.trans ⟨rfl, fun _ _ h => h, rfl, rfl⟩
    · exact hcancel

theorem cancelEntries_standsStill (entries : List (ChunkRange × TaskId)) (w : World) :
    w.StandsStill (entries.foldl cancelEntry w) := by
  induction entries generalizing w with
  | nil => exact .refl w
  | cons entry rest ih => exact (w.cancelEntry_standsStill entry).trans (ih _)

theorem cancelAllChunks_settled (params : ChunkManagerParams)
    (hentry : ∀ r i, w.chunksTasks.get? r = some i → i < w.tasks.length) (goal : GatherGoal) :
    w.Settled (w.cancelAllChunks params goal) 0 := by
  have hcancel := cancelEntries_standsStill w.chunksTasks.entries w
  unfold cancelAllChunks
  dsimp only
  split
  · exact hcancel.settled (gathered_settled params _ goal)
  · refine hcancel.suspended rfl fun t ht => ?_
    obtain ⟨r, hr⟩ := Dict.mem_values_iff.mp ht
    exact hentry r t (hcancel.entry r t hr)

theorem cleanup_settled (params : ChunkManagerParams)
    (hentry : ∀ r i, w.chunksTasks.get? r = some i → i < w.tasks.length)
    (deleteFiles ofMerge : Bool) : w.Settled (w.cleanup params deleteFiles ofMerge) 0 := by
  unfold cleanup
  split
  · exact (StandsStill.refl w).returned _
  · have hset : w.StandsStill { w with cleanedUp := true } := ⟨rfl, fun _ _ h => h, rfl, rfl⟩
    exact hset.settled
      (cancelAllChunks_settled (w := { w with cleanedUp := true }) params hentry _)

theorem removeListed_settled (params : ChunkManagerParams) (w : World) (files : List String)
    (failed ofMerge : Bool) : w.Settled (w.removeListed params files failed ofMerge) 0 := by
  unfold removeListed
  split
  · split
    · exact (StandsStill.refl w).returned _
    · exact cleanupDone_settled params w ofMerge
  · exact (StandsStill.refl w).suspended rfl trivial

theorem mergeChunks_settled (params : ChunkManagerParams) (w : World) (cleanup : Bool) :
    w.Settled (w.mergeChunks params cleanup) 0 := by
  unfold mergeChunks
  split
  · exact (StandsStill.refl w).returned _
  · exact (StandsStill.refl w).suspended rfl trivial

theorem mergeRound_settled (params : ChunkManagerParams)
    (hentry : ∀ r i, w.chunksTasks.get? r = some i → i < w.tasks.length) (stage : MergeStage)
    (cleanup ok : Bool) : w.Settled (w.mergeRound params stage cleanup ok) 0 := by
  unfold mergeRound
  split
  · exact (w.files_standsStill _).suspended rfl trivial
  · exact (w.files_standsStill _).returned _
  · rename_i files _
    split
    · exact (w.files_standsStill files).settled
        (cleanup_settled (w := { w with files }) params hentry true true)
    · exact (w.files_standsStill _).returned _

/-- A call that goes on. -/
theorem resume_settled (hentry : ∀ r i, w.chunksTasks.get? r = some i → i < w.tasks.length)
    {f : Frame} (hknown : f.Known w.tasks.length) (hlock : f.holds ≤ w.lock) {ok : Bool}
    {result : World × Progress} (h : w.resume params f ok = some result) :
    w.Settled result f.holds := by
  unfold resume at h
  cases f with
  | cancelInit r t thenDelete =>
      dsimp only at h
      split at h
      · obtain rfl := Option.some.inj h
        exact w.cancelSignalled_settled r hknown thenDelete
      · cases h
  | cancelJoin r t thenDelete =>
      dsimp only at h
      split at h
      · obtain rfl := Option.some.inj h
        exact w.cancelJoined_settled r thenDelete
      · cases h
  | deleting name =>
      obtain rfl := Option.some.inj h
      exact (w.files_standsStill _).returned _
  | lockWait timed returnWhen =>
      dsimp only at h
      split at h
      · cases h
      · rename_i hfree
        obtain rfl := Option.some.inj h
        exact waitEntered_settled hentry (Bool.eq_false_iff.mpr hfree) timed returnWhen
  | waiting allTasks timed returnWhen =>
      dsimp only at h
      split at h
      · obtain rfl := Option.some.inj h
        have hone : w.lock = 1 := by
          have hle : w.lock ≤ 1 := Bool.toNat_le w.waitLocked
          have hge : 1 ≤ w.lock := hlock
          omega
        exact waitCollects_settled hone allTasks
      · cases h
  | gathering allTasks goal =>
      dsimp only at h
      split at h
      · obtain rfl := Option.some.inj h
        exact gathered_settled params w goal
      · cases h
  | listing files ofMerge =>
      dsimp only at h
      split at h
      · obtain rfl := Option.some.inj h
        exact removeListed_settled params w _ false ofMerge
      · obtain rfl := Option.some.inj h
        exact (StandsStill.refl w).returned _
  | removing files failed ofMerge =>
      cases files with
      | nil =>
          obtain rfl := Option.some.inj h
          exact removeListed_settled params w [] failed ofMerge
      | cons file files =>
          dsimp only at h
          split at h
          · obtain rfl := Option.some.inj h
            exact (w.files_standsStill _).settled
              (removeListed_settled params _ files failed ofMerge)
          · obtain rfl := Option.some.inj h
            exact removeListed_settled params w files true ofMerge
  | merging stage cleanup =>
      obtain rfl := Option.some.inj h
      exact mergeRound_settled params hentry stage cleanup ok

/-! ### The invariant -/

/-- Tasks stand where they can, entries and suspended calls know their tasks, and the lock is held
by as many calls as it says. -/
structure Alive (w : World) : Prop where
  fits : ∀ (i : TaskId) (t : Task), w.tasks[i]? = some t → t.Fits i
  entry : ∀ r i, w.chunksTasks.get? r = some i → i < w.tasks.length
  known : ∀ f ∈ w.calls, f.Known w.tasks.length
  lock : (w.calls.map Frame.holds).sum = w.lock

/-- Tasks that stand where others do fit if these do. -/
theorem fits_of_unasked {tasks tasks' : List Task}
    (h : tasks'.map Task.unasked = tasks.map Task.unasked)
    (hfits : ∀ (i : TaskId) (t : Task), tasks[i]? = some t → t.Fits i) :
    ∀ (i : TaskId) (t : Task), tasks'[i]? = some t → t.Fits i := by
  intro i t' ht'
  have hget := congrArg (·[i]?) h
  simp only [List.getElem?_map, ht', Option.map_some] at hget
  obtain ⟨t, ht, heq⟩ := Option.map_eq_some_iff.mp hget.symm
  exact (hfits i t ht).of_unasked heq.symm

namespace Alive

/-- The lock is held at least as often as one call holds it. -/
theorem holds_le (h : w.Alive) {i : Nat} {f : Frame} (hf : w.calls[i]? = some f) :
    f.holds ≤ w.lock := by
  have hsum := sum_map_eraseIdx (f := Frame.holds) hf
  have hlock := h.lock
  omega

/-- A method settles, before it joins or leaves the suspended calls. -/
theorem settles (h : w.Alive) {result : World × Progress} {held : Nat}
    (hs : w.Settled result held) :
    (∀ (i : TaskId) (t : Task), result.1.tasks[i]? = some t → t.Fits i) ∧
      (∀ r i, result.1.chunksTasks.get? r = some i → i < result.1.tasks.length) ∧
      result.1.tasks.length = w.tasks.length := by
  have hlen := congrArg List.length hs.tasks
  rw [List.length_map, List.length_map] at hlen
  refine ⟨fits_of_unasked hs.tasks h.fits, fun r i hi => ?_, hlen⟩
  rw [hlen]
  exact h.entry r i (hs.entry r i hi)

theorem called {result : World × Progress} (h : w.Alive) (hs : w.Settled result 0) :
    (called result).1.Alive := by
  obtain ⟨w', progress⟩ := result
  obtain ⟨hfits, hentry, hlen⟩ := h.settles hs
  have hcalls : w'.calls = w.calls := hs.calls
  have hlock : w'.lock = w.lock + progress.holds := hs.lock
  have hlen' : w'.tasks.length = w.tasks.length := hlen
  cases progress with
  | suspended f =>
      refine ⟨hfits, hentry, fun f' hf' => ?_, ?_⟩
      · show f'.Known w'.tasks.length
        rw [hlen']
        rcases List.mem_append.mp (show f' ∈ w'.calls ++ [f] from hf') with hf' | hf'
        · exact h.known f' (hcalls ▸ hf')
        · exact List.mem_singleton.mp hf' ▸ hs.frame f rfl
      · show ((w'.calls ++ [f]).map Frame.holds).sum = w'.lock
        rw [hlock, hcalls, List.map_append, List.sum_append, h.lock]
        rfl
  | returned rs =>
      refine ⟨hfits, hentry, fun f' hf' => ?_, ?_⟩
      · show f'.Known w'.tasks.length
        rw [hlen']
        exact h.known f' (hcalls ▸ hf')
      · show (w'.calls.map Frame.holds).sum = w'.lock
        rw [hlock, hcalls, h.lock]
        rfl

theorem resumed {result : World × Progress} {i : Nat} {f : Frame} (h : w.Alive)
    (hf : w.calls[i]? = some f) (hs : w.Settled result f.holds) : (resumed i result).1.Alive := by
  obtain ⟨w', progress⟩ := result
  obtain ⟨hfits, hentry, hlen⟩ := h.settles hs
  have hcalls : w'.calls = w.calls := hs.calls
  have hlock : w'.lock + f.holds = w.lock + progress.holds := hs.lock
  have hlen' : w'.tasks.length = w.tasks.length := hlen
  have hheld := h.lock
  cases progress with
  | suspended f' =>
      refine ⟨hfits, hentry, fun g hg => ?_, ?_⟩
      · show g.Known w'.tasks.length
        rw [hlen']
        rcases List.mem_or_eq_of_mem_set (show g ∈ w'.calls.set i f' from hg) with hg | rfl
        · exact h.known g (hcalls ▸ hg)
        · exact hs.frame g rfl
      · show ((w'.calls.set i f').map Frame.holds).sum = w'.lock
        have hsum := sum_map_set (f := Frame.holds) hf f'
        rw [hcalls]
        simp only [Progress.holds] at hlock
        omega
  | returned rs =>
      refine ⟨hfits, hentry, fun g hg => ?_, ?_⟩
      · show g.Known w'.tasks.length
        rw [hlen']
        exact h.known g (hcalls ▸ List.mem_of_mem_eraseIdx
          (show g ∈ w'.calls.eraseIdx i from hg))
      · show ((w'.calls.eraseIdx i).map Frame.holds).sum = w'.lock
        have hsum := sum_map_eraseIdx (f := Frame.holds) hf
        rw [hcalls]
        simp only [Progress.holds] at hlock
        omega

/-- A new task is registered. -/
theorem creates {r : ChunkRange} {job : Job} (h : w.Alive) (hc : w.Creates params w' r job)
    (hfits : ∀ (i : TaskId) (t : Task), w'.tasks[i]? = some t → t.Fits i) : w'.Alive where
  fits := hfits
  entry r' i hi := by
    rw [hc.numTasks]
    rw [hc.chunksTasks, Dict.get?_set] at hi
    split at hi
    · obtain rfl := Option.some.inj hi
      exact Nat.lt_succ_self _
    · exact Nat.lt_succ_of_lt (h.entry r' i hi)
  known f hf := by
    rw [hc.numTasks]
    exact (h.known f (hc.calls ▸ hf)).mono (Nat.le_succ _)
  lock := by
    rw [hc.calls, h.lock, World.lock, World.lock, hc.waitLocked]

end Alive

/-- A turn of a task moves this task and may ask others to stop. -/
theorem taskStep_moves {i : TaskId} {e : TaskEvent} (h : w.taskStep i e = some w') :
    ∃ t t', w.tasks[i]? = some t ∧
      w'.tasks.map Task.unasked = (w.tasks.set i t').map Task.unasked ∧ (t.Fits i → t'.Fits i) := by
  unfold taskStep at h
  split at h
  · cases h
  · rename_i t ht
    split at h
    · rename_i hjob
      split at h
      · cases h
      · rename_i d callback hstep
        obtain rfl := Option.some.inj h
        have hproceeds := DownloadState.proceeds_step hstep
        have hlater := (DownloadState.step_later hstep).task
        refine ⟨t, d.task, ht, ?_, fun hfits => ⟨fun _ => hproceeds.phase, ?_, fun hs => ?_⟩⟩
        · cases callback with
          | none => rfl
          | some cb => exact (stopPredecessor_standsStill _ cb).tasks
        · intro p k hsucc
          have hdownload : d.task.job = .download := hlater.job.trans hjob
          rw [hdownload] at hsucc
          cases hsucc
        · obtain ⟨hs, hcreated⟩ := hproceeds.signals hs
          rcases hfits.signal hs with hphase | hphase
          · exact Or.inr (hcreated hphase)
          · exact Or.inr (hlater.done _ hphase)
    · rename_i p predecessorTask hjob
      split at h
      · cases h
      · rename_i u stops hstep
        obtain rfl := Option.some.inj h
        have hproceeds := SuccessionState.proceeds_step hstep
        have hlater := (SuccessionState.step_later hstep).task
        have hsucc : u.task.job = .succession p predecessorTask := hlater.job.trans hjob
        refine ⟨t, u.task, ht, ?_, fun hfits => ⟨fun hdownload => ?_, ?_, fun hs => ?_⟩⟩
        · cases stops with
          | false => rfl
          | true =>
              cases predecessorTask with
              | none => rfl
              | some j => exact (cancelTask_standsStill _ j).tasks
        · rw [hsucc] at hdownload
          cases hdownload
        · rintro p' k hjob'
          rw [hsucc] at hjob'
          obtain ⟨rfl, rfl⟩ := Job.succession.inj hjob'
          exact ⟨hproceeds.phase, (hfits.succession p predecessorTask hjob).2.1, hproceeds.awaits⟩
        · obtain ⟨hs, hcreated⟩ := hproceeds.signals hs
          rcases hfits.signal hs with hphase | hphase
          · exact Or.inr (hcreated hphase)
          · exact Or.inr (hlater.done _ hphase)

/-- A new task has not begun, and its predecessor's task is an earlier one. -/
theorem fits_append {tasks : List Task} {r : ChunkRange} {s : StatsId} {job : Job}
    (hfits : ∀ (i : TaskId) (t : Task), tasks[i]? = some t → t.Fits i)
    (hjob : ∀ p k, job = .succession p k → ∀ j ∈ k, j < tasks.length) :
    ∀ (i : TaskId) (t : Task),
      (tasks ++ [{ range := r, stats := s, job }])[i]? = some t → t.Fits i := by
  intro i t ht
  rcases Nat.lt_or_ge i tasks.length with hlt | hge
  · rw [List.getElem?_append_left hlt] at ht
    exact hfits i t ht
  · rw [List.getElem?_append_right hge] at ht
    obtain ⟨hzero, hget⟩ := List.getElem?_eq_some_iff.mp ht
    have hi : i = tasks.length :=
      Nat.le_antisymm (Nat.le_of_sub_eq_zero (Nat.lt_one_iff.mp hzero)) hge
    subst hi
    simp only [Nat.sub_self, List.getElem_cons_zero] at hget
    subst hget
    exact ⟨fun _ => rfl, fun p k h => ⟨rfl, hjob p k h, nofun⟩, fun _ => Or.inl rfl⟩

theorem Alive.startChunk (h : w.Alive) (params : ChunkManagerParams) (r : ChunkRange)
    (speed : Option Int) : (w.startChunk params r speed).Alive := by
  rcases startChunk_cases params w r speed with ⟨hsame, -⟩ | ⟨hnew, hkey, hcreates⟩
  · rw [hsame]
    exact h
  · refine h.creates hcreates ?_
    have htasks : (w.startChunk params r speed).tasks =
        w.tasks ++ [{ range := r, stats := w.stats.length, job := .download }] := by
      unfold World.startChunk
      rw [if_neg (Bool.eq_false_iff.mp hnew), if_neg hkey]
      rfl
    rw [htasks]
    exact fits_append h.fits nofun

/-- Observing a limit may ask a task to stop. -/
theorem observing_same (w : World) (currentRange newRange : ChunkRange) (a : StatsId)
    (w₂ : World) : (w.observing currentRange newRange a w₂).files = w₂.files ∧
      (w.observing currentRange newRange a w₂).tasks.map Task.unasked =
        w₂.tasks.map Task.unasked := by
  unfold observing
  split
  · exact ⟨rfl, rfl⟩
  · split
    · unfold addLimitObserver
      dsimp only
      cases ((World.record _ a).addLimitObserver _ _).2 with
      | none => exact ⟨rfl, rfl⟩
      | some cb =>
          exact ⟨(stopPredecessor_asks _ cb).files, (stopPredecessor_standsStill _ cb).tasks⟩
    · exact ⟨rfl, rfl⟩

theorem Alive.resizeChunk (h : w.Alive) {currentRange newRange : ChunkRange}
    (hok : w.resizeChunk params currentRange newRange = .ok w') : w'.Alive := by
  rcases resizeChunk_cases hok with ⟨rfl, -⟩ | ⟨hresizes, a, ha, hcreates⟩
  · exact h
  · refine h.creates hcreates ?_
    rw [resizeChunk_eq params hresizes ha] at hok
    obtain rfl := Except.ok.inj hok
    have hobserved := (observing_same w currentRange newRange a
      (w.awaiting params newRange (w.record a).targetSpeedBps)).2
    have hlen := congrArg List.length hobserved
    rw [List.length_map, List.length_map] at hlen
    refine fits_append (fits_of_unasked hobserved h.fits) fun p k hjob j hj => ?_
    obtain ⟨rfl, rfl⟩ := Job.succession.inj hjob
    rw [hlen]
    exact h.entry currentRange j hj

theorem alive_init (files : Files) (recoveredStats : List Stats) :
    (World.init files recoveredStats).Alive where
  fits i t ht := by cases ht
  entry r i hi := by cases hi
  known f hf := by cases hf
  lock := rfl

/-- **One step.** -/
theorem Alive.step {e : Event} {out : List Returned} (h : w.Alive)
    (hstep : step params w e = some (w', out)) : w'.Alive := by
  cases e with
  | startChunk r speed =>
      obtain ⟨rfl, -⟩ := Prod.mk.inj (Option.some.inj hstep)
      exact h.startChunk params r speed
  | resizeChunk currentRange newRange =>
      obtain ⟨e, -, rfl, -⟩ | ⟨hok, -⟩ := step_resizeChunk hstep
      · exact h
      · exact h.resizeChunk hok
  | cancelChunk r =>
      obtain ⟨rfl, -⟩ := Prod.mk.inj (Option.some.inj hstep)
      exact h.called (cancelChunk_settled h.entry r false)
  | deleteChunkData r =>
      obtain ⟨rfl, -⟩ := Prod.mk.inj (Option.some.inj hstep)
      exact h.called (deleteChunkData_settled h.entry r)
  | wait timed returnWhen =>
      obtain ⟨rfl, -⟩ := Prod.mk.inj (Option.some.inj hstep)
      exact h.called (waitForChunks_settled h.entry timed returnWhen)
  | cancelAllChunks =>
      obtain ⟨rfl, -⟩ := Prod.mk.inj (Option.some.inj hstep)
      exact h.called (cancelAllChunks_settled params h.entry .cancelAll)
  | cleanup deleteFiles =>
      obtain ⟨rfl, -⟩ := Prod.mk.inj (Option.some.inj hstep)
      exact h.called (cleanup_settled params h.entry deleteFiles false)
  | mergeChunks cleanup =>
      obtain ⟨rfl, -⟩ := Prod.mk.inj (Option.some.inj hstep)
      exact h.called (mergeChunks_settled params w cleanup)
  | resume i ok =>
      obtain ⟨f, result, hf, hresume, heq⟩ := step_resume hstep
      have hmem := List.mem_of_getElem? hf
      have halive := h.resumed hf (resume_settled h.entry (h.known f hmem) (h.holds_le hf) hresume)
      rw [heq] at halive
      exact halive
  | task i e =>
      obtain ⟨hturn, -⟩ := step_task hstep
      obtain ⟨t, t', ht, htasks, hfits⟩ := taskStep_moves hturn
      have hev := taskStep_evolves hturn
      refine ⟨fits_of_unasked htasks fun j u hu => ?_, fun r j hj => ?_, fun f hf => ?_, ?_⟩
      · rcases task_of_set ht hu with ⟨rfl, rfl⟩ | ⟨-, hu⟩
        · exact hfits (h.fits _ t ht)
        · exact h.fits j u hu
      · rw [hev.numTasks]
        exact h.entry r j (hev.chunksTasks ▸ hj)
      · rw [hev.numTasks]
        exact h.known f (hev.calls ▸ hf)
      · rw [hev.calls, h.lock, World.lock, World.lock, hev.waitLocked]

theorem Alive.of_reaches {files : Files} {recoveredStats : List Stats}
    {allowed : World → Event → Prop}
    (h : Reaches (SDownload.step params) allowed (World.init files recoveredStats) w) : w.Alive :=
  h.invariant (alive_init files recoveredStats) fun hw _ hstep => hw.step hstep

/-! ### Who has a turn -/

/-- **Of the tasks that run one has a turn**, and needs no piece for it. -/
theorem Alive.exists_turn (h : w.Alive) {i : TaskId} {t : Task} (ht : w.tasks[i]? = some t)
    (hlive : ¬ t.Done) :
    ∃ (j : TaskId) (e : TaskEvent), e.isPiece = false ∧ (w.taskStep j e).isSome = true := by
  induction i using Nat.strong_induction_on generalizing t with
  | h i ih =>
      cases hjob : t.job with
      | download =>
          have hphase := (h.fits i t ht).download hjob
          obtain ⟨e, hpiece, hstep⟩ :=
            DownloadState.exists_step (d := ⟨t, w.record t.stats, w.files⟩) hphase hlive
          obtain ⟨⟨d, callback⟩, hstep⟩ := Option.isSome_iff_exists.mp hstep
          refine ⟨i, e, hpiece, ?_⟩
          unfold taskStep
          simp only [ht, hjob, hstep, Option.isSome_some]
      | succession p k =>
          obtain ⟨hphase, hearlier, hawaits⟩ := (h.fits i t ht).succession p k hjob
          by_cases hended :
              t.phase.awaitsPredecessor = true → (k.bind w.taskResult).isSome = true
          · obtain ⟨e, hpiece, hstep⟩ := SuccessionState.exists_step
              (u := ⟨t, w.record t.stats, w.record p, w.files⟩) k.isSome
              hphase hlive hended
            obtain ⟨⟨u, stops⟩, hstep⟩ := Option.isSome_iff_exists.mp hstep
            refine ⟨i, e, hpiece, ?_⟩
            unfold taskStep
            simp only [ht, hjob, hstep, Option.isSome_some]
          · -- the predecessor runs, and was created before
            obtain ⟨hwaits, hruns⟩ := Classical.not_imp.mp hended
            obtain ⟨j, rfl⟩ := Option.isSome_iff_exists.mp (hawaits hwaits)
            have hj : j < i := hearlier j rfl
            have hlen : j < w.tasks.length :=
              Nat.lt_trans hj (List.getElem?_eq_some_iff.mp ht).1
            have hget := List.getElem?_eq_getElem hlen
            refine ih j hj hget fun hdone => hruns ?_
            show (w.taskResult j).isSome = true
            exact taskDone_iff.mpr ⟨_, hget, hdone⟩

/-- A task that is done has no turn. -/
theorem taskStep_of_done {i : TaskId} {t : Task} (ht : w.tasks[i]? = some t) (hdone : t.Done)
    (e : TaskEvent) : w.taskStep i e = none := by
  obtain ⟨r, hphase⟩ := Task.done_iff.mp hdone
  unfold taskStep
  rw [ht]
  cases hjob : t.job with
  | download =>
      have hstep := DownloadState.step_of_done (d := ⟨t, w.record t.stats, w.files⟩) hphase e
      simp only [hjob, hstep]
  | succession p k =>
      have hstep := SuccessionState.step_of_done
        (u := ⟨t, w.record t.stats, w.record p, w.files⟩) hphase k.isSome (k.bind w.taskResult) e
      simp only [hjob, hstep]

/-- A task that is done takes no turn. -/
theorem AllDone.taskStep_none (h : w.AllDone) (i : TaskId) (e : TaskEvent) :
    w.taskStep i e = none := by
  cases ht : w.tasks[i]? with
  | none => simp only [taskStep, ht]
  | some t => exact taskStep_of_done ht (h t (List.mem_of_getElem? ht)) e

/-- The call waits for the init signal of a task that was cancelled before its first turn. -/
def Abandoned (w : World) (f : Frame) : Prop :=
  ∃ r i thenDelete t, f = .cancelInit r i thenDelete ∧ w.tasks[i]? = some t ∧
    t.phase = .done .cancelled ∧ t.initSignal = false

/-- Such a call does not go on. -/
theorem Abandoned.resume_none {f : Frame} (h : w.Abandoned f) (ok : Bool) :
    w.resume params f ok = none := by
  obtain ⟨r, i, thenDelete, t, rfl, ht, -, hsignal⟩ := h
  simp [World.resume, World.initSignal, ht, hsignal]

/-- No task has a turn, and no suspended call goes on. -/
def AtRest (params : ChunkManagerParams) (w : World) : Prop :=
  ∀ e : Event, e.ofProgram = true → SDownload.step params w e = none

/-- Once all tasks are done, a call goes on if no other one has the lock it waits for. -/
theorem Alive.exists_resume (h : w.Alive) (hall : w.AllDone) {f : Frame} (hf : f ∈ w.calls)
    (hsignal : ¬ w.Abandoned f) (hlock : ∀ timed returnWhen, f = .lockWait timed returnWhen →
      w.waitLocked = false) : (w.resume params f true).isSome = true := by
  have hdone : ∀ i : TaskId, i < w.tasks.length → w.TaskDone i := fun i hi =>
    taskDone_iff.mpr ⟨_, List.getElem?_eq_getElem hi, hall _ (List.getElem_mem hi)⟩
  have hknown := h.known f hf
  cases f with
  | cancelInit r i thenDelete =>
      have hi : i < w.tasks.length := hknown
      have hget := List.getElem?_eq_getElem hi
      have hset : w.tasks[i].initSignal = true := by
        by_contra hunset
        rw [Bool.not_eq_true] at hunset
        refine hsignal ⟨r, i, thenDelete, _, rfl, hget, ?_, hunset⟩
        rcases (h.fits i _ hget).signal hunset with hcreated | hcancelled
        · obtain ⟨e, he⟩ := Task.done_iff.mp (hall _ (List.getElem_mem hi))
          rw [hcreated] at he
          cases he
        · exact hcancelled
      simp [resume, World.initSignal, hget, hset]
  | cancelJoin r i thenDelete => simp [resume, hdone i hknown]
  | deleting name => rfl
  | lockWait timed returnWhen => simp [resume, hlock timed returnWhen rfl]
  | waiting allTasks timed returnWhen =>
      obtain ⟨hne, hmem⟩ := hknown
      have hover : w.WaitOver allTasks timed returnWhen := by
        refine Or.inr ?_
        cases returnWhen with
        | allCompleted => exact fun t ht => hdone t (hmem t ht)
        | firstCompleted =>
            obtain ⟨t, ht⟩ := List.exists_mem_of_ne_nil allTasks hne
            exact ⟨t, ht, hdone t (hmem t ht)⟩
      simp [resume, hover]
  | gathering allTasks goal =>
      have hover : ∀ t ∈ allTasks, w.TaskDone t := fun t ht => hdone t (hknown t ht)
      simp only [resume, if_pos hover, Option.isSome_some]
  | listing files ofMerge => rfl
  | removing files failed ofMerge =>
      cases files with
      | nil => rfl
      | cons file files =>
          unfold resume
          dsimp only
          split <;> rfl
  | merging stage cleanup => rfl

/-- A call waits for the lock only while another one waits inside. -/
theorem Alive.exists_waiting (h : w.Alive) (hlocked : w.waitLocked = true) :
    ∃ allTasks timed returnWhen, Frame.waiting allTasks timed returnWhen ∈ w.calls := by
  by_contra hnone
  have hzero : ∀ f ∈ w.calls, f.holds = 0 := by
    intro f hf
    cases f with
    | waiting allTasks timed returnWhen => exact absurd ⟨_, _, _, hf⟩ hnone
    | _ => rfl
  have hsum : (w.calls.map Frame.holds).sum = 0 := by
    rw [List.sum_eq_zero]
    intro n hn
    obtain ⟨f, hf, rfl⟩ := List.mem_map.mp hn
    exact hzero f hf
  have hlock := h.lock
  rw [hsum, World.lock, hlocked] at hlock
  cases hlock

/-- **Something goes on** until then, and needs no piece for it. -/
theorem Alive.exists_event (params : ChunkManagerParams) (h : w.Alive)
    (hgoes : ¬ (w.AllDone ∧ ∀ f ∈ w.calls, w.Abandoned f)) :
    ∃ e : Event, e.ofProgram = true ∧ e.isPiece = false ∧ (∀ i, e ≠ .resume i false) ∧
      (SDownload.step params w e).isSome = true := by
  have hresume : ∀ {f : Frame}, f ∈ w.calls → (w.resume params f true).isSome = true →
      ∃ e : Event, e.ofProgram = true ∧ e.isPiece = false ∧ (∀ i, e ≠ .resume i false) ∧
        (SDownload.step params w e).isSome = true := by
    intro f hf hsome
    obtain ⟨i, hi⟩ := List.mem_iff_getElem?.mp hf
    refine ⟨.resume i true, rfl, rfl, nofun, ?_⟩
    unfold SDownload.step
    simpa only [hi, Option.isSome_map] using hsome
  by_cases hall : w.AllDone
  · by_cases hlocked : w.waitLocked = true
    · obtain ⟨allTasks, timed, returnWhen, hf⟩ := h.exists_waiting hlocked
      exact hresume hf (h.exists_resume hall hf (by simp [Abandoned]) nofun)
    · have hcalls : ¬ ∀ f ∈ w.calls, w.Abandoned f := fun hcalls => hgoes ⟨hall, hcalls⟩
      push Not at hcalls
      obtain ⟨f, hf, hwaits⟩ := hcalls
      exact hresume hf
        (h.exists_resume hall hf hwaits fun _ _ _ => Bool.eq_false_iff.mpr hlocked)
  · rw [allDone_iff] at hall
    push Not at hall
    obtain ⟨i, t, ht, hruns⟩ := hall
    obtain ⟨j, e, hpiece, hturn⟩ := h.exists_turn ht hruns
    refine ⟨.task j e, rfl, hpiece, nofun, ?_⟩
    show ((w.taskStep j e).map fun w' => (w', [])).isSome = true
    rwa [Option.isSome_map]

theorem Alive.atRest_iff (h : w.Alive) :
    w.AtRest params ↔ w.AllDone ∧ ∀ f ∈ w.calls, w.Abandoned f := by
  constructor
  · intro hrest
    by_contra hgoes
    obtain ⟨e, hprogram, -, -, hsome⟩ := h.exists_event params hgoes
    rw [hrest e hprogram] at hsome
    cases hsome
  · rintro ⟨hall, hstuck⟩ e he
    cases e with
    | resume i ok =>
        unfold SDownload.step
        dsimp only
        split
        · rfl
        · rename_i f hf
          rw [(hstuck f (List.mem_of_getElem? hf)).resume_none ok, Option.map_none]
    | task i e =>
        refine Option.map_eq_none_iff.mpr ?_
        cases ht : w.tasks[i]? with
        | none => simp only [taskStep, ht]
        | some t => exact taskStep_of_done ht (hall t (List.mem_of_getElem? ht)) e
    | _ => cases he

/-! ### A call that waits forever -/

/-- The tasks there were stand where they did, asked to stop perhaps; new ones come after them. -/
theorem startChunk_unasked (params : ChunkManagerParams) (w : World) (r : ChunkRange)
    (speed : Option Int) :
    w.tasks.map Task.unasked <+: (w.startChunk params r speed).tasks.map Task.unasked := by
  unfold World.startChunk
  split
  · exact List.prefix_rfl
  · split
    · exact List.prefix_rfl
    · exact (List.prefix_append _ _).map Task.unasked

theorem resizeChunk_unasked {currentRange newRange : ChunkRange}
    (hok : w.resizeChunk params currentRange newRange = .ok w') :
    w.tasks.map Task.unasked <+: w'.tasks.map Task.unasked := by
  rcases resizeChunk_cases hok with ⟨rfl, -⟩ | ⟨hresizes, a, ha, -⟩
  · exact List.prefix_rfl
  · rw [resizeChunk_eq params hresizes ha] at hok
    obtain rfl := Except.ok.inj hok
    have hobserved := (observing_same w currentRange newRange a
      (w.awaiting params newRange (w.record a).targetSpeedBps)).2
    have hsame : w.tasks.map Task.unasked = (w.observing currentRange newRange a
        (w.awaiting params newRange (w.record a).targetSpeedBps)).tasks.map Task.unasked :=
      hobserved.symm
    rw [hsame]
    exact (List.prefix_append _ _).map Task.unasked

/-- A task that is done stays as it is, up to requests to stop. -/
def KeepsDone (w w' : World) : Prop :=
  ∀ (i : TaskId) (t : Task), w.tasks[i]? = some t → t.Done →
    ∃ t', w'.tasks[i]? = some t' ∧ t'.unasked = t.unasked

theorem keepsDone_of_front (h : w.tasks.map Task.unasked <+: w'.tasks.map Task.unasked) :
    w.KeepsDone w' := by
  intro i t ht _
  obtain ⟨new, hnew⟩ := h
  have hlt : i < (w.tasks.map Task.unasked).length := by
    rw [List.length_map]
    exact (List.getElem?_eq_some_iff.mp ht).1
  have hget : (w'.tasks.map Task.unasked)[i]? = some t.unasked := by
    rw [← hnew, List.getElem?_append_left hlt, List.getElem?_map, ht, Option.map_some]
  rw [List.getElem?_map] at hget
  exact Option.map_eq_some_iff.mp hget

theorem keepsDone_of_turn {i : TaskId} {e : TaskEvent} (h : w.taskStep i e = some w') :
    w.KeepsDone w' := by
  intro j t ht hdone
  obtain ⟨-, t', -, htasks, -⟩ := taskStep_moves h
  have hne : i ≠ j := by
    rintro rfl
    rw [taskStep_of_done ht hdone] at h
    cases h
  have hget : (w'.tasks.map Task.unasked)[j]? = some t.unasked := by
    rw [htasks, List.getElem?_map, List.getElem?_set_ne hne, ht, Option.map_some]
  rw [List.getElem?_map] at hget
  exact Option.map_eq_some_iff.mp hget

/-- A call that is abandoned stays so where tasks that are done stay as they are. -/
theorem Abandoned.keepsDone {f : Frame} (h : w.Abandoned f) (hkeeps : w.KeepsDone w') :
    w'.Abandoned f := by
  obtain ⟨r, i, thenDelete, t, rfl, ht, hphase, hsignal⟩ := h
  obtain ⟨t', ht', heq⟩ := hkeeps i t ht (Task.done_iff.mpr ⟨_, hphase⟩)
  exact ⟨r, i, thenDelete, t', rfl, ht', (congrArg Task.phase heq).trans hphase,
    (congrArg Task.initSignal heq).trans hsignal⟩

section

variable {result : World × Progress} {held : Nat} {f : Frame}

/-- It is still suspended when another method is called. -/
theorem Abandoned.called (h : w.Abandoned f) (hf : f ∈ w.calls) (hsettled : w.Settled result held) :
    f ∈ (called result).1.calls ∧ (called result).1.Abandoned f := by
  have hkeeps : w.KeepsDone result.1 := keepsDone_of_front (hsettled.tasks ▸ List.prefix_rfl)
  obtain ⟨w₁, progress⟩ := result
  have hcalls : w₁.calls = w.calls := hsettled.calls
  cases progress with
  | suspended g => exact ⟨List.mem_append_left _ (hcalls ▸ hf), h.keepsDone hkeeps⟩
  | returned replies => exact ⟨hcalls ▸ hf, h.keepsDone hkeeps⟩

/-- It is still suspended when another call has gone on. -/
theorem Abandoned.resumed {i : Nat} {g : Frame} (h : w.Abandoned f) (hf : f ∈ w.calls)
    (hg : w.calls[i]? = some g) (hne : f ≠ g) (hsettled : w.Settled result held) :
    f ∈ (resumed i result).1.calls ∧ (resumed i result).1.Abandoned f := by
  have hkeeps : w.KeepsDone result.1 := keepsDone_of_front (hsettled.tasks ▸ List.prefix_rfl)
  obtain ⟨w₁, progress⟩ := result
  have hcalls : w₁.calls = w.calls := hsettled.calls
  obtain ⟨j, hj⟩ := List.mem_iff_getElem?.mp hf
  have hji : i ≠ j := by
    rintro rfl
    exact hne (Option.some.inj (hj.symm.trans hg))
  cases progress with
  | suspended g' =>
      refine ⟨?_, h.keepsDone hkeeps⟩
      show f ∈ w₁.calls.set i g'
      rw [hcalls]
      exact List.mem_of_getElem? ((List.getElem?_set_ne hji).trans hj)
  | returned replies =>
      refine ⟨?_, h.keepsDone hkeeps⟩
      show f ∈ w₁.calls.eraseIdx i
      rw [hcalls]
      exact List.mem_eraseIdx_iff_getElem?.mpr ⟨j, hji.symm, hj⟩

/-- **A step.** Whatever is called and whoever goes on, an abandoned call stays abandoned. -/
theorem Abandoned.step {e : Event} {out : List Returned} (halive : w.Alive) (h : w.Abandoned f)
    (hf : f ∈ w.calls) (hstep : SDownload.step params w e = some (w', out)) :
    f ∈ w'.calls ∧ w'.Abandoned f := by
  cases e with
  | startChunk r speed =>
      obtain ⟨rfl, -⟩ := Prod.mk.inj (Option.some.inj hstep)
      refine ⟨?_, h.keepsDone (keepsDone_of_front (startChunk_unasked params w r speed))⟩
      rcases startChunk_cases params w r speed with ⟨hsame, -⟩ | ⟨-, -, hcreates⟩
      · rw [hsame]
        exact hf
      · rw [hcreates.calls]
        exact hf
  | resizeChunk currentRange newRange =>
      obtain ⟨e, -, rfl, -⟩ | ⟨hok, -⟩ := step_resizeChunk hstep
      · exact ⟨hf, h⟩
      · refine ⟨?_, h.keepsDone (keepsDone_of_front (resizeChunk_unasked hok))⟩
        rcases resizeChunk_cases hok with ⟨rfl, -⟩ | ⟨-, a, -, hcreates⟩
        · exact hf
        · rw [hcreates.calls]
          exact hf
  | cancelChunk r =>
      obtain ⟨rfl, -⟩ := Prod.mk.inj (Option.some.inj hstep)
      exact h.called hf (cancelChunk_settled halive.entry r false)
  | deleteChunkData r =>
      obtain ⟨rfl, -⟩ := Prod.mk.inj (Option.some.inj hstep)
      exact h.called hf (deleteChunkData_settled halive.entry r)
  | wait timed returnWhen =>
      obtain ⟨rfl, -⟩ := Prod.mk.inj (Option.some.inj hstep)
      exact h.called hf (waitForChunks_settled halive.entry timed returnWhen)
  | cancelAllChunks =>
      obtain ⟨rfl, -⟩ := Prod.mk.inj (Option.some.inj hstep)
      exact h.called hf (cancelAllChunks_settled params halive.entry .cancelAll)
  | cleanup deleteFiles =>
      obtain ⟨rfl, -⟩ := Prod.mk.inj (Option.some.inj hstep)
      exact h.called hf (cleanup_settled params halive.entry deleteFiles false)
  | mergeChunks cleanup =>
      obtain ⟨rfl, -⟩ := Prod.mk.inj (Option.some.inj hstep)
      exact h.called hf (mergeChunks_settled params w cleanup)
  | resume i ok =>
      obtain ⟨g, result, hg, hresume, heq⟩ := step_resume hstep
      have hne : f ≠ g := by
        rintro rfl
        rw [h.resume_none ok] at hresume
        cases hresume
      have hsettled := resume_settled halive.entry (halive.known g (List.mem_of_getElem? hg))
        (halive.holds_le hg) hresume
      have hstays := h.resumed hf hg hne hsettled
      rw [heq] at hstays
      exact hstays
  | task i e =>
      obtain ⟨hturn, -⟩ := step_task hstep
      rw [(taskStep_evolves hturn).calls]
      exact ⟨hf, h.keepsDone (keepsDone_of_turn hturn)⟩

/-- **It waits forever.** -/
theorem Abandoned.of_reaches (halive : w.Alive) (h : w.Abandoned f) (hf : f ∈ w.calls)
    (hlater : Reaches (SDownload.step params) (fun _ _ => True) w w') : f ∈ w'.calls := by
  have hinv : w'.Alive ∧ f ∈ w'.calls ∧ w'.Abandoned f := by
    induction hlater with
    | start => exact ⟨halive, hf, h⟩
    | step _ _ hstep ih =>
        obtain ⟨halive, hf, h⟩ := ih
        exact ⟨halive.step hstep, h.step halive hf hstep⟩
  exact hinv.2.1

end

/-- **When a manager rests.** Whatever was called and in whatever order the program went on, it has
nothing left to do exactly when all its tasks are done, and the calls that are still suspended are
those that wait for the init signal of a task that was cancelled before its first turn. Such a call
is suspended in every later state, whatever is called then. -/
theorem rests_iff {files : Files} {recoveredStats : List Stats}
    (h : Reaches (SDownload.step params) (fun _ _ => True) (World.init files recoveredStats) w) :
    (w.AtRest params ↔ w.AllDone ∧ ∀ f ∈ w.calls, w.Abandoned f) ∧
      ∀ f ∈ w.calls, w.Abandoned f → ∀ w',
        Reaches (SDownload.step params) (fun _ _ => True) w w' → f ∈ w'.calls :=
  ⟨(Alive.of_reaches h).atRest_iff,
    fun _ hf habandoned _ hlater => habandoned.of_reaches (Alive.of_reaches h) hf hlater⟩

/-- A chunk is cancelled before its task had a turn, and then everything is. -/
def abandonedRun : List Event :=
  [.startChunk ⟨0, some 3⟩ none, .cancelChunk ⟨0, some 3⟩, .cancelAllChunks,
    .task 0 (.cancelled none), .resume 1 true]

theorem rests_iff_abandoned :
    let w := runTo (SDownload.step ⟨"f", some 4, 1⟩) (fun _ _ => True)
      (World.init FileSystem.empty []) abandonedRun
    w.calls = [.cancelInit ⟨0, some 3⟩ 0 false] ∧ w.AtRest ⟨"f", some 4, 1⟩ := by
  refine ⟨by decide, (rests_iff (reaches_runTo _ _ _ _)).1.mpr ⟨by decide, fun f hf => ?_⟩⟩
  obtain rfl := List.mem_singleton.mp hf
  exact ⟨⟨0, some 3⟩, 0, false,
    { range := ⟨0, some 3⟩, stats := 0, job := .download, phase := .done .cancelled },
    by decide, by decide, by decide, by decide⟩

end World

end SDownload
