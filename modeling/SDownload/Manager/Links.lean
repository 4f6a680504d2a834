import SDownload.Manager.Registry
import SDownload.Manager.Successions
import SDownload.Manager.Tables
import SDownload.Manager.Waits

/-!
# SDownload.Manager.Links

What holds between tasks, records and tables in every run with resizes, when the
server honours ranges, storage operations succeed and nobody cancels
(`UsedHonestly`): which task owns which record, that a succession past its first wait
has a predecessor that is done, that nothing stops a succession, and that a range a
succession is about has no second record while the succession runs or has completed.

`Linked.honestStep` turns a step of such a run into one of the four things it can be.
-/

namespace SDownload

theorem ChunkRange.nil_prefix_bytesOf (r : ChunkRange) (source : Bytes) :
    [] <+: r.bytesOf source :=
  List.nil_prefix

/-- A server that honours ranges, over a storage whose operations succeed. -/
def honestService (source : Bytes) (r : ChunkRange) : Service where
  sent bytes := bytes <+: r.bytesOf source
  whole bytes := bytes = r.bytesOf source
  fails := False
  sent_nil := r.nil_prefix_bytesOf source

instance (source : Bytes) (r : ChunkRange) (d : DownloadState) (e : TaskEvent) :
    Decidable (d.Allowed (honestService source r) e) := by
  delta DownloadState.Allowed honestService
  generalize d.task.phase = phase
  induction phase using Phase.casesOn <;> induction e using TaskEvent.casesOn <;> infer_instance

/-- A turn of a task under that server and that storage. -/
def HonestTurn (source : Bytes) (w : World) (t : Task) (e : TaskEvent) : Prop :=
  match t.job with
  | .download =>
      DownloadState.Allowed (honestService source t.range) ⟨t, w.record t.stats, w.files⟩ e
  | .succession _ _ => ∀ effect, e ≠ .fails effect

instance (source : Bytes) (w : World) (t : Task) (e : TaskEvent) :
    Decidable (HonestTurn source w t e) := by
  delta HonestTurn
  generalize t.job = job
  induction job using Job.casesOn with
  | download => infer_instance
  | succession predecessor predecessorTask =>
      induction e using TaskEvent.casesOn with
      | fails effect => exact isFalse fun h => h effect rfl
      | _ => exact isTrue fun _ => nofun

/-- The steps of a manager that nobody tells to cancel, over that server and that storage. The new
range of a resize is bounded and not registered. -/
def UsedHonestly (source : Bytes) (w : World) : Event → Prop
  | .startChunk r _ => r.InFile source.length
  | .resizeChunk _ newRange =>
      newRange.endByte.isSome = true ∧ newRange ∉ w.chunksStats.keys
  | .wait _ _ | .resume _ _ => True
  | .task i e => ∀ t ∈ w.tasks[i]?, HonestTurn source w t e
  | _ => False

instance (source : Bytes) (w : World) (e : Event) : Decidable (UsedHonestly source w e) := by
  delta UsedHonestly
  induction e using Event.casesOn <;> infer_instance

/-! ### Links -/

/-- The task is between the end of its predecessor and its own. -/
def Task.PastPredecessor (t : Task) : Prop :=
  match t.phase with
  | .cropping _ _ | .moving _ _ => True
  | _ => False

theorem Task.pastPredecessor_of_cropping {t : Task} {startCrop endCrop : Int}
    (h : t.phase = .cropping startCrop endCrop) : t.PastPredecessor := by
  unfold Task.PastPredecessor
  rw [h]
  trivial

theorem Task.pastPredecessor_of_moving {t : Task} {startCrop endCrop : Int}
    (h : t.phase = .moving startCrop endCrop) : t.PastPredecessor := by
  unfold Task.PastPredecessor
  rw [h]
  trivial

namespace World

/-- What holds of a succession, its predecessor's record `p` and task. -/
structure SuccessionLinked (w : World) (t : Task) (p : StatsId) (predecessorTask : Option TaskId) :
    Prop where
  predecessor : p < w.stats.length
  inside : (w.record p).range.contains t.range = true
  proper : t.range ≠ (w.record p).range
  bounded : t.range.endByte.isSome = true
  task : ∀ j ∈ predecessorTask, ∃ t', w.tasks[j]? = some t' ∧ t'.stats = p
  ended : predecessorTask = none ∨ t.PastPredecessor →
    ∀ (j : TaskId) (t' : Task), w.tasks[j]? = some t' → t'.stats = p → t'.Done
  only : ¬ t.Done ∨ (w.record t.stats).status = .completed →
    ∀ s < w.stats.length, (w.record s).range = t.range → s = t.stats
  unstopped : t.cancelRequested = false ∧ t.phase ≠ .cancellingPredecessor
  status : (w.record t.stats).status ∉ [EDownloadStatus.pending, .downloading]

/-- Records and tasks, and what a succession knows of its predecessor. -/
structure Linked (source : Bytes) (params : ChunkManagerParams) (w : World) : Prop where
  registered : w.Registered
  calls : w.ChunkCalls
  waits : ∀ f ∈ w.calls, f.ofWait = true
  stats : ∀ s < w.stats.length, SameRecord (freshRecord params (w.record s).range) (w.record s) ∧
    (w.record s).range ∈ w.chunksStats.keys ∧ 0 ≤ (w.record s).range.start
  task : ∀ (i : TaskId) (t : Task), w.tasks[i]? = some t →
    t.stats < w.stats.length ∧ (w.record t.stats).range = t.range
  own : ∀ (i j : TaskId) (t t' : Task), w.tasks[i]? = some t → w.tasks[j]? = some t' →
    t.stats = t'.stats → i = j
  entry : ∀ (i : TaskId) (t : Task), w.tasks[i]? = some t →
    w.chunksTasks.get? t.range = some i → w.chunksStats.get? t.range = some t.stats
  download : ∀ (i : TaskId) (t : Task), w.tasks[i]? = some t → t.job = .download →
    t.range.InFile source.length
  succession : ∀ (i : TaskId) (t : Task) (p : StatsId) (predecessorTask : Option TaskId),
    w.tasks[i]? = some t → t.job = .succession p predecessorTask →
      w.SuccessionLinked t p predecessorTask
  callbacks : ∀ s cb, (w.record s).onLimit = some cb → w.Downloads cb.predecessorTask

variable {source : Bytes} {params : ChunkManagerParams} {w w' : World}

theorem linked_init (source : Bytes) (params : ChunkManagerParams) (files : Files) :
    (World.init files []).Linked source params where
  registered := registered_init files []
  calls := chunkCalls_init files []
  waits := by simp [World.init]
  stats := by simp [World.init]
  task := by simp [World.init]
  own := by simp [World.init]
  entry := by simp [World.init]
  download := by simp [World.init]
  succession := by simp [World.init]
  callbacks := by
    intro s cb hcb
    simp [World.init, record, default] at hcb

/-- The name in a record is that of its range. -/
theorem Linked.chunkFileName (h : w.Linked source params) {s : StatsId} (hs : s < w.stats.length) :
    (w.record s).chunkFileName = formatChunkFileName (w.record s).range params.fileName :=
  (h.stats s hs).1.chunkFileName

theorem Downloads.evolves {k : Option TaskId} (h : w.Downloads k) (hev : w.Evolves w') :
    w'.Downloads k := by
  intro i hi
  obtain ⟨t, ht, hjob⟩ := h i hi
  obtain ⟨t', ht', hl⟩ := hev.task i t ht
  exact ⟨t', ht', hl.job.trans hjob⟩

/-- What a turn of a task has to leave alone in the successions. -/
structure KeepsSuccession (w w' : World) (t t' : Task) (p : StatsId) : Prop where
  past : t'.PastPredecessor → t.PastPredecessor ∨
    ∀ (j : TaskId) (t' : Task), w.tasks[j]? = some t' → t'.stats = p → t'.Done
  completed : (w'.record t.stats).status = .completed →
    ¬ t.Done ∨ (w.record t.stats).status = .completed
  unstopped : t'.cancelRequested = false ∧ t'.phase ≠ .cancellingPredecessor
  status : (w'.record t.stats).status ∉ [EDownloadStatus.pending, .downloading]

/-- A turn of a task keeps `Linked` if it keeps the successions. -/
theorem Linked.evolves (h : w.Linked source params) (hev : w.Evolves w')
    (hsuccession : ∀ (i : TaskId) (t t' : Task) (p : StatsId) (predecessorTask : Option TaskId),
      w.tasks[i]? = some t → w'.tasks[i]? = some t' → t.job = .succession p predecessorTask →
        w.KeepsSuccession w' t t' p)
    (hcallbacks : ∀ s cb, (w'.record s).onLimit = some cb → (w.record s).onLimit = some cb) :
    w'.Linked source params where
  registered := h.registered.evolves hev
  calls := h.calls.evolves hev
  waits := by rw [hev.calls]; exact h.waits
  stats := by
    intro s hs
    rw [hev.numStats] at hs
    obtain ⟨hfresh, hkey, hstart⟩ := h.stats s hs
    rw [(hev.record s).range, hev.chunksStats]
    exact ⟨hfresh.trans (hev.record s), hkey, hstart⟩
  task := hev.taskRanges h.task
  own := hev.ownRecords h.own
  entry := by
    intro i t' ht' hentry
    obtain ⟨t, ht, hl⟩ := hev.task_of ht'
    rw [hl.range, hev.chunksTasks] at hentry
    rw [hl.range, hl.stats, hev.chunksStats]
    exact h.entry i t ht hentry
  download := by
    intro i t' ht' hjob
    obtain ⟨t, ht, hl⟩ := hev.task_of ht'
    rw [hl.range]
    exact h.download i t ht (hl.job ▸ hjob)
  succession := by
    intro i t' p predecessorTask ht' hjob
    obtain ⟨t, ht, hl⟩ := hev.task_of ht'
    rw [hl.job] at hjob
    have hlinked := h.succession i t p predecessorTask ht hjob
    have hkeeps := hsuccession i t t' p predecessorTask ht ht' hjob
    -- what has got past its predecessor either was past it before, or sees it ended now
    have hended : predecessorTask = none ∨ t'.PastPredecessor → w.Ended p := by
      rintro (hnone | hpast)
      · exact hlinked.ended (Or.inl hnone)
      · rcases hkeeps.past hpast with hpast | hdone
        · exact hlinked.ended (Or.inr hpast)
        · exact hdone
    constructor
    · exact hev.numStats ▸ hlinked.predecessor
    · rw [hl.range, (hev.record p).range]
      exact hlinked.inside
    · rw [hl.range, (hev.record p).range]
      exact hlinked.proper
    · rw [hl.range]
      exact hlinked.bounded
    · exact fun j hj => hev.task_stats (hlinked.task j hj)
    · exact fun hor => (hended hor).evolves hev
    · intro hor s hs hrange
      rw [hev.numStats] at hs
      rw [(hev.record s).range, hl.range] at hrange
      rw [hl.stats] at hor ⊢
      refine hlinked.only ?_ s hs hrange
      rcases hor with hlive | hcompleted
      · exact Or.inl fun hd => hlive (hl.done_of hd)
      · exact hkeeps.completed hcompleted
    · exact hkeeps.unstopped
    · rw [hl.stats]
      exact hkeeps.status
  callbacks := fun s cb hcb => (h.callbacks s cb (hcallbacks s cb hcb)).evolves hev

/-- **A turn of a download**, with whom it asks to stop. -/
theorem Linked.downloadTurn (h : w.Linked source params) {i : TaskId} {t : Task} {e : TaskEvent}
    (ht : w.tasks[i]? = some t) (hjob : t.job = .download) (hstep : w.taskStep i e = some w') :
    ∃ d called, DownloadState.step ⟨t, w.record t.stats, w.files⟩ e = some (d, called) ∧
      w.DownloadTurn w' i d ∧ w.Downloads (called.bind (·.predecessorTask)) ∧
      ∀ (j : TaskId) (t' : Task), w'.tasks[j]? = some t' →
        ∃ t₀, (w.tasks.set i d.task)[j]? = some t₀ ∧
          (t' = t₀ ∨ called.bind (·.predecessorTask) = some j ∧ t₀.Asked t') := by
  obtain ⟨d, called, hturn, hput⟩ := taskStep_download ht hjob hstep
  obtain ⟨d', called', hturn', hdownload⟩ := World.downloadTurn ht hjob hstep
  obtain ⟨rfl, rfl⟩ := Prod.mk.inj (Option.some.inj (hturn.symm.trans hturn'))
  have hcalled : w.Downloads (called.bind (·.predecessorTask)) := by
    cases called with
    | none => exact fun i hi => by cases hi
    | some cb => exact h.callbacks _ cb (DownloadState.step_onLimit hturn (Or.inr rfl))
  refine ⟨d, called, hturn, hdownload, hcalled, fun j t' ht' => ?_⟩
  rw [hput] at ht'
  cases called with
  | none => exact ⟨t', ht', Or.inl rfl⟩
  | some cb =>
      have hlater := (DownloadState.step_later hturn).task
      have hputs : (w.putDownload i d).Downloads cb.predecessorTask := by
        intro k hk
        obtain ⟨tk, htk, hkjob⟩ := hcalled k hk
        by_cases hki : k = i
        · subst hki
          refine ⟨d.task, ?_, hlater.job.trans hjob⟩
          exact List.getElem?_set_self (List.getElem?_eq_some_iff.mp ht).1
        · refine ⟨tk, ?_, hkjob⟩
          exact (List.getElem?_set_ne (Ne.symm hki)).trans htk
      exact (stopPredecessor_asksOnly hputs).task j t' ht'

/-- What a turn of a download leaves, by task, record and file. -/
structure TurnOf (w w' : World) (i : TaskId) (t : Task)
    (d : DownloadState) : Prop where
  task : ∀ (j : TaskId) (t' : Task), w'.tasks[j]? = some t' → j = i ∧ d.task.Asked t' ∨
    j ≠ i ∧ ∃ t₀, w.tasks[j]? = some t₀ ∧ t₀.Asked t'
  old : ∀ (j : TaskId) (t₀ : Task), w.tasks[j]? = some t₀ → j ≠ i →
    ∃ t', w'.tasks[j]? = some t' ∧ t₀.Asked t'
  self : w'.record t.stats = d.stats
  other : ∀ s, s ≠ t.stats → w'.record s = w.record s
  files : w'.files = d.files

theorem Linked.turnOf (h : w.Linked source params) {i : TaskId} {t : Task} {e : TaskEvent}
    {d : DownloadState} {called : Option StopCallback} (ht : w.tasks[i]? = some t)
    (hstep : w.taskStep i e = some w')
    (hturn : DownloadState.step ⟨t, w.record t.stats, w.files⟩ e = some (d, called))
    (hdownload : w.DownloadTurn w' i d) : w.TurnOf w' i t d := by
  have hlater := DownloadState.step_later hturn
  have htask : ∀ (j : TaskId) (t' : Task), w'.tasks[j]? = some t' → j = i ∧ d.task.Asked t' ∨
      j ≠ i ∧ ∃ t₀, w.tasks[j]? = some t₀ ∧ t₀.Asked t' := fun j t' ht' => by
    by_cases hji : j = i
    · exact Or.inl ⟨hji, hdownload.self t' (hji ▸ ht')⟩
    · exact Or.inr ⟨hji, hdownload.other j t' hji ht'⟩
  refine ⟨htask, fun j t₀ ht₀ hji => ?_, ?_, fun s hs => ?_, hdownload.files⟩
  · obtain ⟨t', ht', -⟩ := (taskStep_evolves hstep).task j t₀ ht₀
    obtain ⟨rfl, -⟩ | ⟨-, t₁, ht₁, hasked⟩ := htask j t' ht'
    · exact absurd rfl hji
    · exact ⟨t', ht', Option.some.inj (ht₁.symm.trans ht₀) ▸ hasked⟩
  · rw [hdownload.record, if_pos ⟨hlater.task.stats.symm, hlater.task.stats ▸ (h.task i t ht).1⟩]
  · rw [hdownload.record, if_neg fun hand => hs (hand.1.trans hlater.task.stats)]

/-- Where the record of another task than the one that had a turn is. -/
theorem Linked.record_ne (h : w.Linked source params) {i j : TaskId} {t t' : Task}
    (ht : w.tasks[i]? = some t) (ht' : w.tasks[j]? = some t') (hne : j ≠ i) : t'.stats ≠ t.stats :=
  fun he => hne (h.own j i t' t ht' ht he)

/-- A turn of a download places no callback. -/
theorem Linked.onLimit_download (h : w.Linked source params) {i : TaskId} {t : Task} {e : TaskEvent}
    (ht : w.tasks[i]? = some t) (hjob : t.job = .download) (hstep : w.taskStep i e = some w')
    {s : StatsId} {cb : StopCallback} (hcb : (w'.record s).onLimit = some cb) :
    (w.record s).onLimit = some cb := by
  obtain ⟨d, called, hturn, hdownload, -, -⟩ := h.downloadTurn ht hjob hstep
  rw [hdownload.record] at hcb
  split at hcb
  · rename_i hs
    rw [hs.1, (DownloadState.step_later hturn).task.stats]
    exact DownloadState.step_onLimit hturn (Or.inl hcb)
  · exact hcb

theorem Linked.turn_download (h : w.Linked source params) {i : TaskId} {t : Task} {e : TaskEvent}
    (ht : w.tasks[i]? = some t) (hjob : t.job = .download) (hstep : w.taskStep i e = some w') :
    w'.Linked source params := by
  obtain ⟨d, called, hturn, hdownload, hcalled, htasks⟩ := h.downloadTurn ht hjob hstep
  have hlater := DownloadState.step_later hturn
  refine h.evolves (taskStep_evolves hstep) (fun j t₁ t₁' p predecessorTask ht₁ ht₁' hj => ?_) ?_
  · -- a succession is another task, and is asked nothing
    have hne : j ≠ i := by
      rintro rfl
      obtain rfl := Option.some.inj (ht.symm.trans ht₁)
      rw [hjob] at hj
      cases hj
    obtain ⟨t₀, ht₀, hsame⟩ := htasks j t₁' ht₁'
    rw [List.getElem?_set_ne (Ne.symm hne)] at ht₀
    obtain rfl := Option.some.inj (ht₀.symm.trans ht₁)
    obtain rfl : t₁' = t₀ := hsame.resolve_right fun ⟨hasked, _⟩ => by
      obtain ⟨t₂, ht₂, hjob₂⟩ := hcalled j hasked
      obtain rfl := Option.some.inj (ht₂.symm.trans ht₁)
      rw [hj] at hjob₂
      cases hjob₂
    have hrecord : w'.record t₁'.stats = w.record t₁'.stats := by
      rw [hdownload.record, if_neg]
      exact fun hs => h.record_ne ht ht₁ hne (hs.1.trans hlater.task.stats)
    have hlinked := h.succession j t₁' p predecessorTask ht₁ hj
    exact ⟨Or.inl, fun hs => Or.inr (hrecord ▸ hs), hlinked.unstopped, hrecord ▸ hlinked.status⟩
  · exact fun s cb hcb => h.onLimit_download ht hjob hstep hcb

/-- **A turn of a succession** is one of `Turns`; its predecessor has ended when it goes on. -/
theorem Linked.turns (h : w.Linked source params) {i : TaskId} {t : Task} {e : TaskEvent}
    {p : StatsId} {predecessorTask : Option TaskId} (ht : w.tasks[i]? = some t)
    (hjob : t.job = .succession p predecessorTask) (he : ∀ effect, e ≠ .fails effect)
    (hstep : w.taskStep i e = some w') :
    ∃ u ended, SuccessionState.Turns ⟨t, w.record t.stats, w.record p, w.files⟩ ended u ∧
      w.SuccessionTurn w' i t p u ∧ t.stats ≠ p ∧ ¬ t.Done ∧
      (ended = true → ∀ (j : TaskId) (t' : Task), w.tasks[j]? = some t' → t'.stats = p →
        t'.Done) := by
  have hlinked := h.succession i t p predecessorTask ht hjob
  obtain ⟨u, hrun, hturn⟩ := successionTurn ht hjob hlinked.unstopped.1 hstep
  refine ⟨u, _, SuccessionState.turns_of_run hlinked.unstopped.2 he hrun, hturn, ?_,
    SuccessionState.not_done_of_run hrun, fun hended => ?_⟩
  · intro heq
    refine hlinked.proper ?_
    rw [← heq]
    exact (h.task i t ht).2.symm
  · cases predecessorTask with
    | none => exact hlinked.ended (Or.inl rfl)
    | some k =>
        intro j t' ht' hstats
        obtain ⟨t₁, ht₁, hstats₁⟩ := hlinked.task k rfl
        obtain rfl := h.own j k t' t₁ ht' ht₁ (hstats.trans hstats₁.symm)
        have hdone : w.TaskDone j := by simpa [TaskDone] using hended
        obtain ⟨t₂, ht₂, hd⟩ := taskDone_iff.mp hdone
        exact Option.some.inj (ht₂.symm.trans ht') ▸ hd

/-- Nor does a turn of a succession. -/
theorem Linked.onLimit_succession (h : w.Linked source params) {i : TaskId} {t : Task}
    {e : TaskEvent} {p : StatsId} {predecessorTask : Option TaskId} (ht : w.tasks[i]? = some t)
    (hjob : t.job = .succession p predecessorTask) (he : ∀ effect, e ≠ .fails effect)
    (hstep : w.taskStep i e = some w') {s : StatsId} {cb : StopCallback}
    (hcb : (w'.record s).onLimit = some cb) : (w.record s).onLimit = some cb := by
  obtain ⟨u, ended, hturns, hturn, -, -, -⟩ := h.turns ht hjob he hstep
  obtain ⟨hsuccessor, hpredecessor⟩ := hturns.onLimit
  rw [hturn.record] at hcb
  split at hcb
  · rename_i hs
    rw [hs.1]
    exact hpredecessor.symm.trans hcb
  · split at hcb
    · rename_i hs
      rw [hs.1]
      exact hsuccessor.symm.trans hcb
    · exact hcb

theorem Linked.turn_succession (h : w.Linked source params) {i : TaskId} {t : Task} {e : TaskEvent}
    {p : StatsId} {predecessorTask : Option TaskId} (ht : w.tasks[i]? = some t)
    (hjob : t.job = .succession p predecessorTask) (he : ∀ effect, e ≠ .fails effect)
    (hstep : w.taskStep i e = some w') : w'.Linked source params := by
  obtain ⟨u, ended, hturns, hturn, hown, hlive, hended⟩ := h.turns ht hjob he hstep
  have hlinked := h.succession i t p predecessorTask ht hjob
  have hlt := (h.task i t ht).1
  have hrecord : w'.record t.stats = u.successor := by
    rw [hturn.record, if_neg fun hs => hown hs.1, if_pos ⟨rfl, hlt⟩]
  refine h.evolves (taskStep_evolves hstep) (fun j t₁ t₁' q k ht₁ ht₁' hj => ?_) ?_
  · rw [hturn.tasks] at ht₁'
    by_cases hji : j = i
    · subst hji
      obtain rfl := Option.some.inj (ht.symm.trans ht₁)
      obtain ⟨rfl, rfl⟩ := Job.succession.inj (hjob.symm.trans hj)
      rw [List.getElem?_set_self (List.getElem?_eq_some_iff.mp ht).1] at ht₁'
      obtain rfl := Option.some.inj ht₁'
      obtain ⟨hunstopped, hstatus⟩ := hturns.unstopped hlinked.unstopped.1 hlinked.status
      refine ⟨fun hpast => ?_, fun _ => Or.inl hlive, hunstopped, hrecord ▸ hstatus⟩
      cases hturns with
      | failed hfailed _ =>
          obtain ⟨_, hphase⟩ := hfailed.phase
          simp [Task.PastPredecessor, hphase] at hpast
      | waits _ hwaits => simp [Task.PastPredecessor, hwaits.phase] at hpast
      | crops hended' _ _ => exact Or.inr (hended hended')
      | cropped hphase _ => exact Or.inl (Task.pastPredecessor_of_cropping hphase)
      | moved _ _ =>
          simp [Task.PastPredecessor, SuccessionState.complete, SuccessionState.enter] at hpast
    · -- another succession: at most its record was deprecated
      rw [List.getElem?_set_ne (Ne.symm hji)] at ht₁'
      obtain rfl := Option.some.inj (ht₁.symm.trans ht₁')
      have hlinked₁ := h.succession j t₁ q k ht₁ hj
      have hne := h.record_ne ht ht₁ hji
      have hrecord₁ : w'.record t₁.stats = w.record t₁.stats ∨
          w'.record t₁.stats = (w.record t₁.stats).setStatus .deprecated := by
        rw [hturn.record]
        split
        · rename_i hs
          rw [hs.1]
          exact hturns.predecessor
        · rw [if_neg fun hs => hne hs.1]
          exact Or.inl rfl
      refine ⟨Or.inl, ?_, hlinked₁.unstopped, ?_⟩
      · rcases hrecord₁ with heq | heq <;> rw [heq]
        · exact Or.inr
        · simp [ChunkDownloadStats.setStatus]
      · rcases hrecord₁ with heq | heq <;> rw [heq]
        · exact hlinked₁.status
        · simp [ChunkDownloadStats.setStatus]
  · exact fun s cb hcb => h.onLimit_succession ht hjob he hstep hcb

/-- What a new succession is to know. -/
structure NewSuccession (w : World) (r : ChunkRange) (p : StatsId)
    (predecessorTask : Option TaskId) : Prop where
  predecessor : p < w.stats.length
  inside : (w.record p).range.contains r = true
  proper : r ≠ (w.record p).range
  bounded : r.endByte.isSome = true
  task : ∀ j ∈ predecessorTask, ∃ t', w.tasks[j]? = some t' ∧ t'.stats = p
  ended : predecessorTask = none →
    ∀ (j : TaskId) (t' : Task), w.tasks[j]? = some t' → t'.stats = p → t'.Done
  unregistered : r ∉ w.chunksStats.keys

/-- It is told the record of the current range, and the task of it that may still run. -/
theorem Registered.newSuccession (h : w.Registered) {currentRange newRange : ChunkRange}
    {a : StatsId}
    (htask : ∀ (j : TaskId) (t : Task), w.tasks[j]? = some t → (w.record t.stats).range = t.range)
    (hentry : ∀ j, w.chunksTasks.get? currentRange = some j →
      ∃ t, w.tasks[j]? = some t ∧ t.stats = a)
    (hbounded : newRange.endByte.isSome = true) (hnew : newRange ∉ w.chunksStats.keys)
    (hresizes : w.Resizes currentRange newRange)
    (ha : w.chunksStats.get? currentRange = some a) :
    w.NewSuccession newRange a (w.chunksTasks.get? currentRange) := by
  obtain ⟨hlt, hrange⟩ := h.stats _ _ ha
  constructor
  · exact hlt
  · exact hrange ▸ hresizes.1
  · exact hrange ▸ hresizes.2.1
  · exact hbounded
  · exact hentry
  · intro hnone j t ht hstats
    by_contra hlive
    have hregistered := h.live j t ht hlive
    rw [← htask j t ht, hstats, hrange, hnone] at hregistered
    cases hregistered
  · exact hnew

/-- The record of a succession that runs or has completed is the one its range has in the table. -/
theorem Linked.table (h : w.Linked source params) {i : TaskId} {t : Task} {p : StatsId}
    {predecessorTask : Option TaskId} (ht : w.tasks[i]? = some t)
    (hjob : t.job = .succession p predecessorTask)
    (hor : ¬ t.Done ∨ (w.record t.stats).status = .completed) :
    w.chunksStats.get? t.range = some t.stats := by
  obtain ⟨hlt, hrange⟩ := h.task i t ht
  have hkey := (h.stats _ hlt).2.1
  rw [hrange] at hkey
  obtain ⟨s, hs⟩ := Dict.mem_keys_iff.mp hkey
  obtain ⟨hslt, hsrange⟩ := h.registered.stats _ _ hs
  rw [hs, (h.succession i t p predecessorTask ht hjob).only hor s hslt hsrange]

/-- The task that `resize_chunk` creates is linked to its predecessor. -/
theorem NewSuccession.linked {r : ChunkRange} {p : StatsId} {predecessorTask : Option TaskId}
    {job : Job} (h : w.NewSuccession r p predecessorTask) (hcreates : w.Creates params w' r job)
    (hkeys : ∀ s < w.stats.length, (w.record s).range ∈ w.chunksStats.keys)
    (hstatus : (w'.record w.stats.length).status = .awaitingSuccession) :
    w'.SuccessionLinked { range := r, stats := w.stats.length, job } p predecessorTask := by
  have hplt := h.predecessor
  have hrange := hcreates.range hplt
  constructor
  · exact hcreates.lt_succ hplt
  · rw [hrange]
    exact h.inside
  · rw [hrange]
    exact h.proper
  · exact h.bounded
  · exact fun j hj => hcreates.task_stats (h.task j hj)
  · rintro (hnone | hpast)
    · exact Ended.creates (h.ended hnone) hplt hcreates
    · exact hpast.elim
  · intro _ s hs hsame
    rcases hcreates.lt_or_eq hs with hs | rfl
    · have hin := hkeys s hs
      rw [← hcreates.range hs, hsame] at hin
      exact absurd hin h.unregistered
    · rfl
  · exact ⟨rfl, by simp⟩
  · show (w'.record w.stats.length).status ∉ _
    rw [hstatus]
    simp

/-- A succession that is there already stays linked when a range is registered that is not its own,
or if it is, after it has ended without completing. -/
theorem SuccessionLinked.creates {t : Task} {p : StatsId} {predecessorTask : Option TaskId}
    {r : ChunkRange} {job : Job} (h : w.SuccessionLinked t p predecessorTask)
    (hcreates : w.Creates params w' r job)
    (hstatus : (w'.record t.stats).status = (w.record t.stats).status)
    (hne : ¬ t.Done ∨ (w.record t.stats).status = .completed → r ≠ t.range) :
    w'.SuccessionLinked t p predecessorTask := by
  have hplt := h.predecessor
  have hrange := hcreates.range hplt
  constructor
  · exact hcreates.lt_succ hplt
  · rw [hrange]
    exact h.inside
  · rw [hrange]
    exact h.proper
  · exact h.bounded
  · exact fun j hj => hcreates.task_stats (h.task j hj)
  · exact fun hpast => Ended.creates (h.ended hpast) hplt hcreates
  · rw [hstatus]
    intro hor s hs hsame
    rcases hcreates.lt_or_eq hs with hs | rfl
    · exact h.only hor s hs (hcreates.range hs ▸ hsame)
    · exact absurd (hcreates.newRecord.range.symm.trans hsame) (hne hor)
  · exact h.unstopped
  · rw [hstatus]
    exact h.status

/-- Registering a chunk that has no entry and is not completed. -/
theorem Linked.grows (h : w.Linked source params) (hr' : w'.Registered) (hc' : w'.ChunkCalls)
    {r : ChunkRange} {job : Job} {status : EDownloadStatus} (hcreates : w.Creates params w' r job)
    (hgrows : w.Grows params w' r status) (hkey : r ∉ w.chunksTasks.keys)
    (hfree : (w.statsOf r).any (·.status = .completed) = false) (hstart : 0 ≤ r.start)
    (hasked : ∀ (i : TaskId) (t' : Task), i ≠ w.tasks.length → w'.tasks[i]? = some t' →
      ∃ t, w.tasks[i]? = some t ∧ (t' = t ∨ t.job = .download ∧ t.Asked t'))
    (hcallbacks : ∀ s < w.stats.length, ∀ cb, (w'.record s).onLimit = some cb →
      w.Downloads cb.predecessorTask)
    (hdownload : job = .download → r.InFile source.length)
    (hsuccession : ∀ p predecessorTask, job = .succession p predecessorTask →
      status = .awaitingSuccession ∧ w.NewSuccession r p predecessorTask) :
    w'.Linked source params := by
  obtain ⟨speed, hfresh⟩ := hgrows.fresh
  -- a task is the new one or was there before, and then only a stop may have been asked of it
  have hold : ∀ (i : TaskId) (t' : Task), w'.tasks[i]? = some t' →
      (i = w.tasks.length ∧ t' = { range := r, stats := w.stats.length, job }) ∨
        i ≠ w.tasks.length ∧ ∃ t, w.tasks[i]? = some t ∧ t.Later t' ∧
          (t' = t ∨ t.job = .download ∧ t.Asked t') := by
    intro i t' ht'
    by_cases hi : i = w.tasks.length
    · refine Or.inl ⟨hi, ?_⟩
      rw [hi, hcreates.newTask] at ht'
      exact (Option.some.inj ht').symm
    · obtain ⟨t, ht, hor⟩ := hasked i t' hi ht'
      obtain ⟨t₁, ht₁, hl⟩ := hcreates.task i t ht
      obtain rfl := Option.some.inj (ht₁.symm.trans ht')
      exact Or.inr ⟨hi, t, ht, hl, hor⟩
  have hkeys : ∀ r', r' ∈ w'.chunksStats.keys ↔ r' = r ∨ r' ∈ w.chunksStats.keys := fun r' => by
    rw [hcreates.chunksStats, Dict.mem_keys_set]
  have hnew : (w'.record w.stats.length).range = r := by rw [hfresh]; rfl
  refine ⟨hr', hc', by rw [hcreates.calls]; exact h.waits, ?_, ?_, ?_, ?_, ?_, ?_, ?_⟩
  · intro s hs
    rcases hcreates.lt_or_eq hs with hs | rfl
    · obtain ⟨hsame, hin, hnonneg⟩ := h.stats s hs
      rw [hcreates.range hs, hkeys]
      exact ⟨hsame.trans (hcreates.record s hs), Or.inr hin, hnonneg⟩
    · rw [hnew, hkeys, hfresh]
      exact ⟨⟨rfl, rfl, rfl⟩, Or.inl rfl, hstart⟩
  · exact hcreates.taskRanges h.task
  · exact hcreates.ownRecords h.own fun i t ht => (h.task i t ht).1
  · intro i t' ht' hentry
    rw [hcreates.chunksTasks, Dict.get?_set] at hentry
    rw [hcreates.chunksStats, Dict.get?_set]
    obtain ⟨-, rfl⟩ | ⟨hi, t, ht, hl, -⟩ := hold i t' ht'
    · rw [if_pos rfl]
    · split at hentry
      · exact absurd (Option.some.inj hentry).symm hi
      · rename_i hne
        rw [if_neg hne, hl.stats]
        rw [hl.range] at hentry ⊢
        exact h.entry i t ht hentry
  · intro i t' ht' hjob
    obtain ⟨-, rfl⟩ | ⟨-, t, ht, hl, -⟩ := hold i t' ht'
    · exact hdownload hjob
    · rw [hl.range]
      exact h.download i t ht (hl.job ▸ hjob)
  · intro i t' p predecessorTask ht' hjob
    obtain ⟨hi, rfl⟩ | ⟨-, t, ht, hl, hor⟩ := hold i t' ht'
    · obtain ⟨rfl, hnewSuccession⟩ := hsuccession p predecessorTask hjob
      exact hnewSuccession.linked hcreates (fun s hs => (h.stats s hs).2.1) (by rw [hfresh])
    · rw [hl.job] at hjob
      obtain rfl : t' = t := hor.resolve_right fun hdl => by
        rw [hjob] at hdl
        cases hdl.1
      have hlinked := h.succession i t' p predecessorTask ht hjob
      refine hlinked.creates hcreates (hgrows.counts _ (h.task i t' ht).1).2 fun hor he => ?_
      -- the range that is registered is not that of a running or completed succession
      subst he
      rcases hor with hlive | hcompleted
      · exact hkey (Dict.mem_keys_iff.mpr ⟨i, h.registered.live i t' ht hlive⟩)
      · simp [statsOf, h.table ht hjob (Or.inr hcompleted), hcompleted] at hfree
  · intro s cb hcb
    have hdownloads : ∀ k, w.Downloads k → w'.Downloads k := fun k hk i hi => by
      obtain ⟨t, ht, hjob⟩ := hk i hi
      obtain ⟨t', ht', hl⟩ := hcreates.task i t ht
      exact ⟨t', ht', hl.job.trans hjob⟩
    rcases Nat.lt_or_ge s w'.stats.length with hs | hs
    · rcases hcreates.lt_or_eq hs with hs | rfl
      · exact hdownloads _ (hcallbacks s hs cb hcb)
      · rw [hfresh] at hcb
        cases hcb
    · rw [record, List.getD_eq_getElem?_getD, List.getElem?_eq_none hs] at hcb
      cases hcb

/-! ### Each step -/

/-- Collecting entries keeps `Linked`. -/
theorem Linked.collects (h : w.Linked source params) (hr' : w'.Registered) (hc' : w'.ChunkCalls)
    (hwaits : ∀ f ∈ w'.calls, f.ofWait = true) (hcollects : w.Collects w') :
    w'.Linked source params := by
  have hrecord : ∀ s, w'.record s = w.record s := fun s => by
    rw [record, record, hcollects.stats]
  constructor
  · exact hr'
  · exact hc'
  · exact hwaits
  · simp only [hcollects.stats, hrecord, hcollects.chunksStats]
    exact h.stats
  · simp only [hcollects.stats, hrecord, hcollects.tasks]
    exact h.task
  · rw [hcollects.tasks]
    exact h.own
  · simp only [hcollects.tasks, hcollects.chunksStats]
    exact fun i t ht hentry => h.entry i t ht (hcollects.chunksTasks _ _ hentry)
  · rw [hcollects.tasks]
    exact h.download
  · intro i t p k ht hjob
    rw [hcollects.tasks] at ht
    obtain ⟨h₁, h₂, h₃, h₄, h₅, h₆, h₇, h₈, h₉⟩ := h.succession i t p k ht hjob
    constructor <;> first
      | assumption
      | simp only [hcollects.stats, hcollects.tasks, hrecord]; assumption
  · simp only [hrecord, Downloads, hcollects.tasks]
    exact h.callbacks

/-- What a step of an honest run can be. -/
inductive HonestStep (source : Bytes) (params : ChunkManagerParams) (w : World) :
    Event → World → Prop
  | collects {e : Event} {w' : World} (h : w.Collects w') : HonestStep source params w e w'
  | started {r : ChunkRange} {speed : Option Int} {w' : World} (inFile : r.InFile source.length)
      (free : (w.statsOf r).any (·.status = .completed) = false) (key : r ∉ w.chunksTasks.keys)
      (h : w.Started params w' r) : HonestStep source params w (.startChunk r speed) w'
  | resized {currentRange newRange : ChunkRange} {e : Int} {a : StatsId} {w' : World}
      (bounded : newRange.endByte = some e) (unregistered : newRange ∉ w.chunksStats.keys)
      (resizes : w.Resizes currentRange newRange)
      (table : w.chunksStats.get? currentRange = some a)
      (h : w.Resized params w' currentRange newRange a (e - currentRange.start + 1)) :
      HonestStep source params w (.resizeChunk currentRange newRange) w'
  | turn {i : TaskId} {t : Task} {e : TaskEvent} {w' : World} (task : w.tasks[i]? = some t)
      (honest : HonestTurn source w t e) (h : w.taskStep i e = some w') :
      HonestStep source params w (.task i e) w'

/-- Where all that is suspended are waits, nothing is being gathered. -/
theorem not_gathers_of_waits (h : ∀ f ∈ w.calls, f.ofWait = true) : ¬ w.Gathers := by
  rintro ⟨f, hf, hgathers⟩
  have hwait := h f hf
  cases f <;> first | cases hwait; done | cases hgathers

/-- Going on with a wait meets the conditions on tasks. -/
theorem keepsTasks_of_waits (h : ∀ f ∈ w.calls, f.ofWait = true) (i : Nat) (ok : Bool) :
    KeepsTasks w (.resume i ok) := by
  unfold KeepsTasks
  dsimp only
  split
  all_goals first | trivial | rename_i hf
  all_goals cases h _ (List.mem_of_getElem? hf)

theorem Linked.keepsTasks (h : w.Linked source params) {e : Event}
    (hused : UsedHonestly source w e) : KeepsTasks w e := by
  cases e with
  | startChunk r speed => exact fun _ => not_gathers_of_waits h.waits
  | resizeChunk currentRange newRange =>
      obtain ⟨-, hnew⟩ := hused
      refine fun _ => ⟨not_gathers_of_waits h.waits, ?_, entryDone_of_not_mem fun hkey =>
        hnew (h.calls.tables _ hkey)⟩
      rw [statsOf, Dict.get?_eq_none_iff.mpr hnew]
      rfl
  | resume i ok => exact keepsTasks_of_waits h.waits i ok
  | wait timed returnWhen => trivial
  | task i e => trivial
  | _ => exact hused.elim

theorem Linked.keepsTables (h : w.Linked source params) {e : Event}
    (hused : UsedHonestly source w e) : e.ofChunks = true ∧ KeepsTables w e := by
  cases e with
  | resume i ok =>
      refine ⟨rfl, ?_⟩
      unfold KeepsTables
      dsimp only
      split
      all_goals first | trivial | rename_i hf
      all_goals cases h.waits _ (List.mem_of_getElem? hf)
  | startChunk r speed => exact ⟨rfl, trivial⟩
  | resizeChunk currentRange newRange => exact ⟨rfl, trivial⟩
  | wait timed returnWhen => exact ⟨rfl, trivial⟩
  | task i e => exact ⟨rfl, trivial⟩
  | _ => exact hused.elim

/-- The task in the table of a chunk that is being downloaded is a download. -/
theorem Linked.downloads (h : w.Linked source params) {r : ChunkRange} {a : StatsId}
    (ha : w.chunksStats.get? r = some a)
    (hstatus : (w.record a).status ∈ [EDownloadStatus.pending, .downloading]) :
    w.Downloads (w.chunksTasks.get? r) := by
  intro i hi
  obtain ⟨t, ht, rfl⟩ := h.registered.entry r i hi
  have hentry := h.entry i t ht hi
  obtain rfl := Option.some.inj (ha.symm.trans hentry)
  refine ⟨t, ht, ?_⟩
  cases hjob : t.job with
  | download => rfl
  | succession p k => exact absurd hstatus (h.succession i t p k ht hjob).status

/-- **Every step** of an honest run is one of `HonestStep`, or changes nothing. -/
theorem Linked.honestStep (h : w.Linked source params) {e : Event} {out : List Returned}
    (hused : UsedHonestly source w e) (hstep : step params w e = some (w', out)) :
    HonestStep source params w e w' ∧ ∀ f ∈ w'.calls, f.ofWait = true := by
  have hsame : w.Collects w := ⟨rfl, rfl, rfl, rfl, fun _ _ => id⟩
  cases e with
  | startChunk r speed =>
      obtain ⟨rfl, rfl⟩ := Prod.mk.inj (Option.some.inj hstep)
      obtain heq | ⟨hfree, hkey, hstarted⟩ := startChunk_started params w r speed
      · rw [heq]
        exact ⟨.collects hsame, h.waits⟩
      · exact ⟨.started hused hfree hkey hstarted, by rw [hstarted.calls]; exact h.waits⟩
  | resizeChunk currentRange newRange =>
      obtain ⟨hbounded, hnew⟩ := hused
      obtain ⟨e, he⟩ := Option.isSome_iff_exists.mp hbounded
      obtain ⟨-, -, rfl, -⟩ | ⟨hok, -⟩ := step_resizeChunk hstep
      · exact ⟨.collects hsame, h.waits⟩
      · obtain rfl | ⟨hresizes, a, ha, hresized⟩ := resizeChunk_resized he
          (fun r s hs => (h.registered.stats r s hs).1) (fun a ha => h.downloads ha) hok
        · exact ⟨.collects hsame, h.waits⟩
        · exact ⟨.resized he hnew hresizes ha hresized, by rw [hresized.calls]; exact h.waits⟩
  | wait timed returnWhen =>
      obtain ⟨hcollects, hwaits⟩ := ((waitForChunks_turn w timed returnWhen).ok.step h.waits 0).1
      have hw' : w' = (called (w.waitForChunks timed returnWhen)).1 :=
        (congrArg Prod.fst (Option.some.inj hstep)).symm
      rw [hw']
      exact ⟨.collects hcollects, hwaits⟩
  | resume i ok =>
      obtain ⟨f, result, hf, hresume, heq⟩ := step_resume hstep
      obtain ⟨hcollects, hwaits⟩ :=
        ((resume_turn (h.waits f (List.mem_of_getElem? hf)) hresume).ok.step h.waits i).2
      have hw' : w' = (resumed i result).1 := (congrArg Prod.fst heq).symm
      rw [hw']
      exact ⟨.collects hcollects, hwaits⟩
  | task i e =>
      obtain ⟨hturn, rfl⟩ := step_task hstep
      refine ⟨?_, by rw [(taskStep_evolves hturn).calls]; exact h.waits⟩
      cases ht : w.tasks[i]? with
      | none => simp [taskStep, ht] at hturn
      | some t => exact .turn ht (hused t ht) hturn
  | _ => exact hused.elim

/-- What `resize_chunk` tells the succession it creates. -/
theorem Linked.newSuccession (h : w.Linked source params) {currentRange newRange : ChunkRange}
    {a : StatsId} (hbounded : newRange.endByte.isSome = true)
    (hnew : newRange ∉ w.chunksStats.keys) (hresizes : w.Resizes currentRange newRange)
    (ha : w.chunksStats.get? currentRange = some a) :
    w.NewSuccession newRange a (w.chunksTasks.get? currentRange) := by
  refine h.registered.newSuccession (fun j t ht => (h.task j t ht).2) ?_ hbounded hnew hresizes ha
  intro j hj
  obtain ⟨t, ht, rfl⟩ := h.registered.entry _ _ hj
  exact ⟨t, ht, Option.some.inj ((h.entry j t ht hj).symm.trans ha)⟩

/-- A step of an honest run keeps `Linked`. -/
theorem Linked.step (h : w.Linked source params) {e : Event} {out : List Returned}
    (hused : UsedHonestly source w e) (hstep : step params w e = some (w', out)) :
    w'.Linked source params := by
  have hr' := (h.registered.step (h.keepsTasks hused) hstep).1
  have hc' := (h.calls.step (h.keepsTables hused).1 (h.keepsTables hused).2 hstep).1
  obtain ⟨hhonest, hwaits⟩ := h.honestStep hused hstep
  cases hhonest with
  | collects hcollects => exact h.collects hr' hc' hwaits hcollects
  | @started r _ _ hin hfree hkey hstarted =>
      refine h.grows hr' hc' hstarted.toCreates hstarted.toGrows hkey hfree hin.start_nonneg
        (fun i t' hi ht' => ⟨t', hstarted.tasks i hi ▸ ht', Or.inl rfl⟩) (fun s hs cb hcb => ?_)
        (fun _ => hin) (fun p k hjob => by cases hjob)
      rw [hstarted.same s hs] at hcb
      exact h.callbacks s cb hcb
  | @resized currentRange newRange e a _ hbounded hnew hresizes htable hresized =>
      obtain ⟨hlt, hrange⟩ := h.registered.stats _ _ htable
      have hkey : newRange ∉ w.chunksTasks.keys := fun hkey => hnew (h.calls.tables _ hkey)
      have hfree : (w.statsOf newRange).any (·.status = .completed) = false := by
        rw [statsOf, Dict.get?_eq_none_iff.mpr hnew]
        rfl
      have hnonneg := (h.stats a hlt).2.2
      have hstart : 0 ≤ newRange.start :=
        (hrange ▸ hnonneg).trans (ChunkRange.of_contains hbounded hresizes.1).1
      have honLimit := observed_onLimit w a (e - currentRange.start + 1)
        ⟨a, w.chunksTasks.get? currentRange⟩
      refine h.grows hr' hc' hresized.toCreates hresized.toGrows hkey hfree hstart
        (fun i t' hi ht' => ?_) (fun s hs cb hcb => ?_) (fun hjob => by cases hjob)
        (fun p k hjob => ?_)
      · obtain ⟨t, ht, hor⟩ := hresized.asked i t' hi ht'
        refine ⟨t, ht, hor.imp_right fun hstopped => ⟨?_, hstopped.2.2⟩⟩
        obtain ⟨hcalled, hentry, -⟩ := hstopped
        obtain ⟨-, hnone⟩ | ⟨hstatus, -⟩ := honLimit
        · simp [hnone] at hcalled
        · obtain ⟨t₁, ht₁, hjob⟩ := h.downloads htable hstatus i hentry
          exact Option.some.inj (ht₁.symm.trans ht) ▸ hjob
      · by_cases hsa : s = a
        · subst hsa
          rw [hresized.predecessor] at hcb
          obtain ⟨heq, -⟩ | ⟨hstatus, heq | heq⟩ := honLimit <;> rw [heq] at hcb
          · exact h.callbacks s cb hcb
          · exact h.callbacks s cb hcb
          · rw [← Option.some.inj hcb]
            exact h.downloads htable hstatus
        · rw [hresized.other s hs hsa] at hcb
          exact h.callbacks s cb hcb
      · obtain ⟨rfl, rfl⟩ := Job.succession.inj hjob
        exact ⟨rfl, h.newSuccession (by rw [hbounded]; rfl) hnew hresizes htable⟩
  | @turn i t e _ ht hhonest hturn =>
      cases hjob : t.job with
      | download => exact h.turn_download ht hjob hturn
      | succession p k =>
          simp only [HonestTurn, hjob] at hhonest
          exact h.turn_succession ht hjob hhonest hturn

end World

end SDownload
