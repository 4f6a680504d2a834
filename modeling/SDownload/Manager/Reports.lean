import SDownload.Lib.Except
import SDownload.Lib.Run
import SDownload.Manager.Registry
import SDownload.Manager.Waits

/-!
# SDownload.Manager.Reports

What the waits return.

`wait_for_completed_chunks`, `wait_for_first_completed_chunk` and `as_stream` all
come down to `_wait_for_chunks`: it takes a snapshot of the tasks, suspends, and
reports and drops the entries of the live table whose task is in the snapshot and
done by then. An entry that is reported is gone, and an entry registered for the
same range later has another task and another record, so nothing is reported
twice (`Reporting`). `as_stream` yields the batches of waits that it makes until
the table is empty.
-/

namespace SDownload

/-- The records that a wait has returned. -/
def Returned.reports : Returned → List StatsId
  | ⟨.wait, .batch completed⟩ => completed
  | _ => []

/-- The records that the waits of a run have returned. -/
def reports (outs : List Returned) : List StatsId := outs.flatMap Returned.reports

theorem reports_append (outs outs' : List Returned) :
    reports (outs ++ outs') = reports outs ++ reports outs' :=
  List.flatMap_append

/-- The steps of a run in which chunks are started and waited for. -/
def StartsAndWaits (_ : World) : Event → Prop
  | .startChunk .. | .wait .. | .resume .. | .task .. => True
  | _ => False

instance (w : World) (e : Event) : Decidable (StartsAndWaits w e) := by
  delta StartsAndWaits
  induction e using Event.casesOn <;> infer_instance

namespace World

/-- The turn of `as_stream` when its batch is used up: it waits again, or ends. -/
def asStream (w : World) : Option Event :=
  if w.chunksTasks.keys = [] then none else some (.wait false .firstCompleted)

/-- Task `i` is not in `_chunks_tasks`. -/
def Dropped (w : World) (i : TaskId) : Prop := ∀ r, w.chunksTasks.get? r ≠ some i

/-- The invariant, of a world and what the waits of the run so far have returned: records and tasks
belong together; what was returned are the records of tasks that are done and dropped, each once,
and of all that are dropped. -/
structure Reporting (w : World) (reported : List StatsId) : Prop where
  bound : ∀ (i : TaskId) (t : Task), w.tasks[i]? = some t → t.stats < w.stats.length
  unique : ∀ (i j : TaskId) (t t' : Task), w.tasks[i]? = some t → w.tasks[j]? = some t' →
    t'.stats = t.stats → j = i
  entry : ∀ r i, w.chunksTasks.get? r = some i → ∃ t, w.tasks[i]? = some t ∧ t.range = r ∧
    w.chunksStats.get? r = some t.stats
  stats : ∀ r s, w.chunksStats.get? r = some s → s < w.stats.length ∧ (w.record s).range = r
  frames : ∀ f ∈ w.calls, f.ofWait = true
  nodup : reported.Nodup
  sound : ∀ s ∈ reported, ∃ (i : TaskId) (t : Task), w.tasks[i]? = some t ∧ t.stats = s ∧
    t.Done ∧ w.Dropped i
  complete : ∀ (i : TaskId) (t : Task), w.tasks[i]? = some t → w.Dropped i → t.stats ∈ reported

variable {w w' : World} {reported : List StatsId}

theorem Reporting.ownRecords (h : w.Reporting reported) : w.OwnRecords :=
  fun i j t t' ht ht' hsame => h.unique j i t' t ht' ht hsame

theorem Reporting.evolves (h : w.Reporting reported) (hev : w.Evolves w') :
    w'.Reporting reported where
  bound := by
    intro i t' ht'
    obtain ⟨t, ht, hl⟩ := hev.task_of ht'
    rw [hev.numStats, hl.stats]
    exact h.bound i t ht
  unique := fun i j t t' ht ht' hsame => hev.ownRecords h.ownRecords j i t' t ht' ht hsame
  entry := by
    intro r i hi
    rw [hev.chunksTasks] at hi
    obtain ⟨t, ht, hrange, hs⟩ := h.entry r i hi
    obtain ⟨t', ht', hl⟩ := hev.task i t ht
    exact ⟨t', ht', hl.range.trans hrange, by rw [hev.chunksStats, hl.stats, hs]⟩
  stats := by
    intro r s hs
    rw [hev.chunksStats] at hs
    rw [hev.numStats, (hev.record s).range]
    exact h.stats r s hs
  frames := by
    rw [hev.calls]
    exact h.frames
  nodup := h.nodup
  sound := by
    intro s hs
    obtain ⟨i, t, ht, hstats, hdone, hdropped⟩ := h.sound s hs
    obtain ⟨t', ht', hl⟩ := hev.task i t ht
    refine ⟨i, t', ht', hl.stats.trans hstats, hl.done_of hdone, fun r => ?_⟩
    rw [hev.chunksTasks]
    exact hdropped r
  complete := by
    intro i t' ht' hdropped
    obtain ⟨t, ht, hl⟩ := hev.task_of ht'
    rw [hl.stats]
    refine h.complete i t ht fun r => ?_
    rw [← hev.chunksTasks]
    exact hdropped r

/-- Registering a range that has no entry: the new task has a record of its own. -/
theorem Reporting.creates {params : ChunkManagerParams} {r : ChunkRange} {job : Job}
    (h : w.Reporting reported) (hr : r ∉ w.chunksTasks.keys)
    (hc : w.Creates params w' r job) : w'.Reporting reported where
  bound := by
    intro i t' ht'
    rw [hc.numStats]
    rcases hc.task_of ht' with ⟨t, ht, hl⟩ | ⟨-, rfl⟩
    · rw [hl.stats]
      exact Nat.lt_succ_of_lt (h.bound i t ht)
    · exact Nat.lt_succ_self _
  unique := fun i j t t' ht ht' hsame =>
    hc.ownRecords h.ownRecords h.bound j i t' t ht' ht hsame
  entry := by
    intro r' i hi
    rw [hc.chunksTasks, Dict.get?_set] at hi
    rw [hc.chunksStats, Dict.get?_set]
    split at hi
    · rename_i hr'
      obtain rfl := Option.some.inj hi
      exact ⟨_, hc.newTask, hr'.symm, if_pos hr'⟩
    · rename_i hr'
      obtain ⟨t, ht, hrange, hs⟩ := h.entry r' i hi
      obtain ⟨t', ht', hl⟩ := hc.task i t ht
      exact ⟨t', ht', hl.range.trans hrange, by rw [if_neg hr', hl.stats, hs]⟩
  stats := by
    intro r' s hs
    rw [hc.chunksStats, Dict.get?_set] at hs
    rw [hc.numStats]
    split at hs
    · rename_i hr'
      obtain rfl := Option.some.inj hs
      exact ⟨Nat.lt_succ_self _, hc.newRecord.range.trans hr'.symm⟩
    · obtain ⟨hlt, hrange⟩ := h.stats r' s hs
      exact ⟨Nat.lt_succ_of_lt hlt, (hc.record s hlt).range.trans hrange⟩
  frames := by
    rw [hc.calls]
    exact h.frames
  nodup := h.nodup
  sound := by
    intro s hs
    obtain ⟨i, t, ht, hstats, hdone, hdropped⟩ := h.sound s hs
    obtain ⟨t', ht', hl⟩ := hc.task i t ht
    refine ⟨i, t', ht', hl.stats.trans hstats, hl.done_of hdone, fun r' hi => ?_⟩
    rw [hc.chunksTasks, Dict.get?_set] at hi
    split at hi
    · obtain rfl := Option.some.inj hi
      exact absurd (List.getElem?_eq_some_iff.mp ht).1 (lt_irrefl _)
    · exact hdropped r' hi
  complete := by
    intro i t' ht' hdropped
    rcases hc.task_of ht' with ⟨t, ht, hl⟩ | ⟨rfl, -⟩
    · rw [hl.stats]
      refine h.complete i t ht fun r' hi => hdropped r' ?_
      have hne : r' ≠ r := by
        rintro rfl
        exact hr (Dict.mem_keys_iff.mpr ⟨i, hi⟩)
      rw [hc.chunksTasks, Dict.get?_set_of_ne _ _ hne, hi]
    · refine absurd ?_ (hdropped r)
      rw [hc.chunksTasks, Dict.get?_set_self]

/-! ### The waits -/

/-- The entries a wait reports. -/
def finished (w : World) (allTasks : List TaskId) : List (ChunkRange × TaskId) :=
  w.chunksTasks.entries.filter fun e => e.2 ∈ allTasks ∧ w.TaskDone e.2

theorem mem_finished {allTasks : List TaskId} {r : ChunkRange} {i : TaskId} :
    (r, i) ∈ w.finished allTasks ↔
      w.chunksTasks.get? r = some i ∧ i ∈ allTasks ∧ w.TaskDone i := by
  simp only [finished, List.mem_filter, decide_eq_true_eq, Dict.get?_eq_some_iff]

/-- The record of an entry. -/
def recordOf (w : World) (entry : ChunkRange × TaskId) : StatsId :=
  (w.chunksStats.get? entry.1).getD 0

/-- A wait finds all records, and drops just the entries it reports. -/
theorem Reporting.waitCollects_eq (h : w.Reporting reported) (allTasks : List TaskId) :
    ∃ w', w.waitCollects allTasks =
        (w', .returned [⟨.wait, .batch ((w.finished allTasks).map w.recordOf)⟩]) ∧
      w'.tasks = w.tasks ∧ w'.stats = w.stats ∧ w'.chunksStats = w.chunksStats ∧
      w'.calls = w.calls ∧ ∀ r i, w'.chunksTasks.get? r = some i ↔
        w.chunksTasks.get? r = some i ∧ (r, i) ∉ w.finished allTasks := by
  have hrecord : ∀ entry ∈ w.finished allTasks, w.chunksStats.get? entry.1 =
      some (w.recordOf entry) := by
    intro entry hentry
    obtain ⟨t, -, -, hs⟩ := h.entry entry.1 entry.2 (mem_finished.mp hentry).1
    rw [recordOf, hs, Option.getD_some]
  have hok : (w.finished allTasks).mapM (finishedStats { w with waitLocked := false }) =
      .ok ((w.finished allTasks).map w.recordOf) := by
    refine Except.mapM_ok_of_forall fun entry hentry => ?_
    unfold finishedStats
    dsimp only
    rw [hrecord entry hentry]
  have hrange : ((w.finished allTasks).map w.recordOf).map (fun s => (w.record s).range) =
      (w.finished allTasks).map Prod.fst := by
    rw [List.map_map]
    exact List.map_congr_left fun entry hentry =>
      (h.stats entry.1 (w.recordOf entry) (hrecord entry hentry)).2
  refine ⟨{ w with
    waitLocked := false
    chunksTasks := ((w.finished allTasks).map w.recordOf).foldl
      (fun tasks s => tasks.erase (w.record s).range) w.chunksTasks }, ?_, rfl, rfl, rfl, rfl, ?_⟩
  · unfold waitCollects
    dsimp only
    rw [show w.chunksTasks.entries.filter (fun e => e.2 ∈ allTasks ∧ w.TaskDone e.2) =
      w.finished allTasks from rfl, hok]
    rfl
  · intro r i
    dsimp only
    rw [Dict.get?_foldl_erase, hrange]
    split
    · rename_i hmem
      refine iff_of_false nofun ?_
      rintro ⟨hi, hnot⟩
      obtain ⟨⟨r', j⟩, hentry, rfl⟩ := List.mem_map.mp hmem
      obtain rfl : j = i := Option.some.inj ((mem_finished.mp hentry).1.symm.trans hi)
      exact hnot hentry
    · rename_i hmem
      exact ⟨fun hi => ⟨hi, fun hentry =>
        hmem (List.mem_map.mpr ⟨(r, i), hentry, rfl⟩)⟩, And.left⟩

/-- **A batch.** What a wait returns is added to what was reported, and dropped. -/
theorem Reporting.collects (h : w.Reporting reported) (allTasks : List TaskId)
    (htasks : w'.tasks = w.tasks) (hstats : w'.stats = w.stats)
    (hchunksStats : w'.chunksStats = w.chunksStats) (hcalls : w'.calls = w.calls)
    (hchunksTasks : ∀ r i, w'.chunksTasks.get? r = some i ↔
      w.chunksTasks.get? r = some i ∧ (r, i) ∉ w.finished allTasks) :
    w'.Reporting (reported ++ (w.finished allTasks).map w.recordOf) := by
  -- an entry that is reported: its task, with the record, is done and in the table
  have hfinished : ∀ entry ∈ w.finished allTasks, ∃ t, w.tasks[entry.2]? = some t ∧
      t.range = entry.1 ∧ t.stats = w.recordOf entry ∧ t.Done := by
    rintro ⟨r, i⟩ hentry
    obtain ⟨hi, -, hdone⟩ := mem_finished.mp hentry
    obtain ⟨t, ht, hrange, hs⟩ := h.entry r i hi
    obtain ⟨t', ht', hdone'⟩ := taskDone_iff.mp hdone
    obtain rfl : t' = t := Option.some.inj (ht'.symm.trans ht)
    exact ⟨t', ht, hrange, by rw [recordOf, hs, Option.getD_some], hdone'⟩
  refine ⟨?_, ?_, ?_, ?_, ?_, ?_, ?_, ?_⟩
  · rw [htasks, hstats]
    exact h.bound
  · rw [htasks]
    exact h.unique
  · intro r i hi
    rw [htasks, hchunksStats]
    exact h.entry r i ((hchunksTasks r i).mp hi).1
  · unfold record
    rw [hchunksStats, hstats]
    exact h.stats
  · rw [hcalls]
    exact h.frames
  · refine List.nodup_append.mpr ⟨h.nodup, ?_, ?_⟩
    · refine List.Nodup.map_on ?_ (List.Nodup.filter _ (List.Nodup.of_map _ w.chunksTasks.nodup))
      intro e he e' he' hsame
      obtain ⟨t, ht, hrange, hs, -⟩ := hfinished e he
      obtain ⟨t', ht', hrange', hs', -⟩ := hfinished e' he'
      have hindex := h.unique e.2 e'.2 t t' ht ht' (hs'.trans (hsame.symm.trans hs.symm))
      rw [hindex] at ht'
      obtain rfl := Option.some.inj (ht'.symm.trans ht)
      exact Prod.ext (hrange.symm.trans hrange') hindex.symm
    · intro s hs s' hs' hsame
      subst hsame
      obtain ⟨e, he, rfl⟩ := List.mem_map.mp hs'
      obtain ⟨i, t, ht, hstats, -, hdropped⟩ := h.sound _ hs
      obtain ⟨t', ht', -, hs'', -⟩ := hfinished e he
      obtain rfl := h.unique i e.2 t t' ht ht' (hs''.trans hstats.symm)
      exact hdropped e.1 (mem_finished.mp he).1
  · intro s hs
    rw [htasks]
    rcases List.mem_append.mp hs with hs | hs
    · obtain ⟨i, t, ht, hstats, hdone, hdropped⟩ := h.sound s hs
      exact ⟨i, t, ht, hstats, hdone, fun r hi => hdropped r ((hchunksTasks r i).mp hi).1⟩
    · obtain ⟨⟨r, i⟩, he, rfl⟩ := List.mem_map.mp hs
      obtain ⟨t, ht, hrange, hs, hdone⟩ := hfinished _ he
      refine ⟨i, t, ht, hs, hdone, fun r' hi => ?_⟩
      obtain ⟨hi, hnot⟩ := (hchunksTasks r' i).mp hi
      obtain ⟨t', ht', hrange', -⟩ := h.entry r' i hi
      obtain rfl := Option.some.inj (ht'.symm.trans ht)
      exact hnot (hrange'.symm.trans hrange ▸ he)
  · intro i t ht hdropped
    rw [htasks] at ht
    by_cases hentry : ∃ r, (r, i) ∈ w.finished allTasks
    · obtain ⟨r, he⟩ := hentry
      obtain ⟨t', ht', -, hs, -⟩ := hfinished _ he
      obtain rfl := Option.some.inj (ht'.symm.trans ht)
      exact List.mem_append_right _ (List.mem_map.mpr ⟨_, he, hs.symm⟩)
    · refine List.mem_append_left _ (h.complete i t ht fun r hi => hdropped r ?_)
      exact (hchunksTasks r i).mpr ⟨hi, fun he => hentry ⟨r, he⟩⟩

/-- What a wait that was called, or goes on, keeps: the invariant with what it returns, and calls of
its own kind. -/
structure KeepsReporting (w : World) (reported : List StatsId) (result : World × Progress) :
    Prop where
  calls : result.1.calls = w.calls
  frame : ∀ f, result.2 = .suspended f → f.ofWait = true ∧ result.1.Reporting reported
  replies : ∀ rs, result.2 = .returned rs → result.1.Reporting (reported ++ reports rs)

theorem Reporting.waitEntered (h : w.Reporting reported) (timed : Bool) (returnWhen : ReturnWhen) :
    w.KeepsReporting reported (w.waitEntered timed returnWhen) := by
  unfold World.waitEntered
  split
  · refine ⟨rfl, nofun, ?_⟩
    rintro _ ⟨rfl⟩
    rw [show reports [⟨.wait, .batch []⟩] = [] from rfl, List.append_nil]
    exact h
  · refine ⟨rfl, ?_, nofun⟩
    rintro _ ⟨rfl⟩
    exact ⟨rfl, h.bound, h.unique, h.entry, h.stats, h.frames, h.nodup, h.sound, h.complete⟩

theorem Reporting.waitCollects (h : w.Reporting reported) (allTasks : List TaskId) :
    w.KeepsReporting reported (w.waitCollects allTasks) := by
  obtain ⟨w', heq, htasks, hstats, hchunksStats, hcalls, hchunksTasks⟩ :=
    h.waitCollects_eq allTasks
  rw [heq]
  refine ⟨hcalls, nofun, ?_⟩
  rintro _ ⟨rfl⟩
  rw [show reports [⟨.wait, .batch ((w.finished allTasks).map w.recordOf)⟩] =
    (w.finished allTasks).map w.recordOf from List.append_nil _]
  exact h.collects allTasks htasks hstats hchunksStats hcalls hchunksTasks

theorem Reporting.turn {result : World × Progress} (h : w.Reporting reported)
    (hturn : w.WaitTurn result) : w.KeepsReporting reported result := by
  cases hturn with
  | queues timed returnWhen =>
      refine ⟨rfl, ?_, nofun⟩
      rintro _ ⟨rfl⟩
      exact ⟨rfl, h⟩
  | enters timed returnWhen => exact h.waitEntered timed returnWhen
  | collects allTasks => exact h.waitCollects allTasks

/-- The invariant does not depend on which waits are suspended. -/
theorem Reporting.of_calls (h : w.Reporting reported) {calls : List Frame}
    (hcalls : ∀ f ∈ calls, f.ofWait = true) : Reporting { w with calls } reported :=
  ⟨h.bound, h.unique, h.entry, h.stats, hcalls, h.nodup, h.sound, h.complete⟩

theorem KeepsReporting.called {result : World × Progress}
    (hkeeps : w.KeepsReporting reported result) :
    (called result).1.Reporting (reported ++ reports (called result).2) := by
  obtain ⟨w', progress⟩ := result
  cases progress with
  | suspended f =>
      obtain ⟨hf, h'⟩ := hkeeps.frame f rfl
      rw [show (SDownload.called (w', .suspended f)).2 = [] from rfl,
        show reports [] = [] from rfl, List.append_nil]
      refine h'.of_calls fun f' hf' => ?_
      rcases List.mem_append.mp hf' with hf' | hf'
      · exact h'.frames f' hf'
      · rw [List.mem_singleton.mp hf']
        exact hf
  | returned rs => exact hkeeps.replies rs rfl

theorem KeepsReporting.resumed {result : World × Progress} (i : Nat)
    (hkeeps : w.KeepsReporting reported result) :
    (resumed i result).1.Reporting (reported ++ reports (resumed i result).2) := by
  obtain ⟨w', progress⟩ := result
  cases progress with
  | suspended f =>
      obtain ⟨hf, h'⟩ := hkeeps.frame f rfl
      rw [show (SDownload.resumed i (w', .suspended f)).2 = [] from rfl,
        show reports [] = [] from rfl, List.append_nil]
      refine h'.of_calls fun f' hf' => ?_
      rcases List.mem_or_eq_of_mem_set hf' with hf' | rfl
      · exact h'.frames f' hf'
      · exact hf
  | returned rs =>
      have h' := hkeeps.replies rs rfl
      exact h'.of_calls fun f' hf' => h'.frames f' (List.mem_of_mem_eraseIdx hf')

/-- **A step** keeps the invariant, with what it reports. -/
theorem Reporting.step {params : ChunkManagerParams} {e : Event} {out : List Returned}
    (h : w.Reporting reported) (hok : StartsAndWaits w e)
    (hstep : step params w e = some (w', out)) : w'.Reporting (reported ++ reports out) := by
  cases e with
  | startChunk r speed =>
      obtain ⟨rfl, rfl⟩ := Prod.mk.inj (Option.some.inj hstep)
      rw [show reports [⟨.startChunk, .none⟩] = [] from rfl, List.append_nil]
      rcases startChunk_cases params w r speed with ⟨hsame, -⟩ | ⟨-, hkey, hcreates⟩
      · rw [hsame]
        exact h
      · exact h.creates hkey hcreates
  | wait timed returnWhen =>
      obtain ⟨rfl, rfl⟩ := Prod.mk.inj (Option.some.inj hstep)
      exact (h.turn (waitForChunks_turn w timed returnWhen)).called
  | resume i ok =>
      obtain ⟨f, result, hf, hresume, heq⟩ := step_resume hstep
      have hturn := resume_turn (h.frames f (List.mem_of_getElem? hf)) hresume
      have hresult := (h.turn hturn).resumed i
      rw [heq] at hresult
      exact hresult
  | task i e =>
      obtain ⟨hturn, rfl⟩ := step_task hstep
      rw [show reports [] = [] from rfl, List.append_nil]
      exact h.evolves (taskStep_evolves hturn)
  | _ => exact hok.elim

theorem reporting_init (files : Files) (recoveredStats : List Stats) :
    (World.init files recoveredStats).Reporting [] := by
  have hnone : ∀ (i : TaskId) (t : Task),
      (World.init files recoveredStats).tasks[i]? = some t → False := by
    intro i t ht
    cases (List.getElem?_nil (i := i)).symm.trans ht
  refine ⟨fun i t ht => (hnone i t ht).elim, fun i _ t _ ht => (hnone i t ht).elim,
    fun r i hi => ?_, (registered_init files recoveredStats).stats,
    fun f hf => absurd hf List.not_mem_nil, List.nodup_nil, fun s hs => absurd hs List.not_mem_nil,
    fun i t ht => (hnone i t ht).elim⟩
  cases hi

/-- The invariant of every run. -/
theorem reporting_of_produces {params : ChunkManagerParams} {files : Files}
    {recoveredStats : List Stats} {outs : List Returned}
    (h : Produces (SDownload.step params) StartsAndWaits (World.init files recoveredStats) w outs) :
    w.Reporting (reports outs) := by
  refine @Produces.invariant _ _ _ _ _ _ _ _ (fun w outs => w.Reporting (reports outs))
    (reporting_init files recoveredStats) (fun hinv hok hstep => ?_) h
  rw [reports_append]
  exact hinv.step hok hstep

end World

/-- **Completion is reported exactly once.** In every run of starts and waits, from recovered chunks
or none: no two tasks have a record in common; what the waits have returned are records of tasks
that are done, each once; and a task that is done and not in `_chunks_tasks` was returned exactly
once. -/
theorem reported_once (params : ChunkManagerParams) (files : Files) (recoveredStats : List Stats)
    {w : World} {outs : List Returned}
    (h : Produces (step params) StartsAndWaits (World.init files recoveredStats) w outs) :
    (w.tasks.map Task.stats).Nodup ∧
      (∀ s ∈ reports outs, ∃ t ∈ w.tasks, t.stats = s ∧ t.Done) ∧
      (∀ t ∈ w.tasks, (reports outs).count t.stats ≤ 1) ∧
      ∀ (i : TaskId) (t : Task), w.tasks[i]? = some t → t.Done → i ∉ w.chunksTasks.values →
        (reports outs).count t.stats = 1 := by
  have hinv := World.reporting_of_produces h
  refine ⟨?_, ?_, fun t _ => List.nodup_iff_count_le_one.mp hinv.nodup _, ?_⟩
  · refine List.nodup_iff_getElem?_ne_getElem?.mpr fun i j hij hj hsame => ?_
    rw [List.length_map] at hj
    rw [List.getElem?_map, List.getElem?_map, List.getElem?_eq_getElem hj,
      List.getElem?_eq_getElem (hij.trans hj)] at hsame
    exact Nat.ne_of_gt hij (hinv.unique i j _ _ (List.getElem?_eq_getElem _)
      (List.getElem?_eq_getElem _) (Option.some.inj hsame).symm)
  · intro s hs
    obtain ⟨i, t, ht, hstats, hdone, -⟩ := hinv.sound s hs
    exact ⟨t, List.mem_of_getElem? ht, hstats, hdone⟩
  · intro i t ht _ hdropped
    refine List.count_eq_one_of_mem hinv.nodup (hinv.complete i t ht fun r hi => hdropped ?_)
    exact Dict.mem_values_iff.mpr ⟨r, hi⟩

/-- When `as_stream` ends, everything was returned: by it or by other waits, each task once. -/
theorem reported_of_asStream_ends (params : ChunkManagerParams) (files : Files)
    (recoveredStats : List Stats) {w : World} {outs : List Returned}
    (h : Produces (step params) StartsAndWaits (World.init files recoveredStats) w outs)
    (hends : w.asStream = none) {t : Task} (ht : t ∈ w.tasks) :
    t.Done ∧ (reports outs).count t.stats = 1 := by
  have hinv := World.reporting_of_produces h
  have hempty : w.chunksTasks.keys = [] := by
    by_contra hne
    rw [World.asStream, if_neg hne] at hends
    cases hends
  obtain ⟨i, hi⟩ := List.mem_iff_getElem?.mp ht
  have hmem : t.stats ∈ reports outs := hinv.complete i t hi fun r hr => by
    have hkey := Dict.mem_keys_iff.mpr ⟨i, hr⟩
    rw [hempty] at hkey
    cases hkey
  obtain ⟨j, t', ht', hstats, hdone, -⟩ := hinv.sound _ hmem
  obtain rfl := hinv.unique i j t t' hi ht' hstats
  obtain rfl := Option.some.inj (ht'.symm.trans hi)
  exact ⟨hdone, List.count_eq_one_of_mem hinv.nodup hmem⟩

/-- Two chunks of one byte and two callers. The first caller's wait times out when one chunk has
failed; that chunk is started again, and the second caller gets the lock and takes the other. -/
def twoCallersRun : List Event :=
  [.startChunk ⟨0, some 0⟩ none, .startChunk ⟨1, some 1⟩ none, .wait true .allCompleted,
    .wait false .firstCompleted, .task 0 .begins, .task 0 .opened, .task 0 .eof, .task 0 .closed,
    .resume 0 true, .startChunk ⟨0, some 0⟩ none, .resume 0 true, .task 1 .begins, .task 1 .opened,
    .task 1 (.piece [7]), .task 1 .written, .task 1 .eof, .task 1 .closed, .resume 0 true]

theorem reported_once_twoCallers :
    let start := World.init FileSystem.empty []
    let w := runTo (step ⟨"f", some 2, 1⟩) StartsAndWaits start twoCallersRun
    let outs := runOuts (step ⟨"f", some 2, 1⟩) StartsAndWaits start twoCallersRun
    (reports outs = [0, 1] ∧ w.chunksTasks.values = [2]) ∧
      ∀ t ∈ w.tasks, (reports outs).count t.stats ≤ 1 :=
  ⟨by decide, (reported_once _ _ _ (produces_runTo _ _ _ _)).2.2.1⟩

end SDownload
