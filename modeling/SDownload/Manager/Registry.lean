import SDownload.Lib.Except
import SDownload.Lib.Run
import SDownload.Manager.Evolution

/-!
# SDownload.Manager.Registry

No task is lost: a task that still runs is the one registered under its range, and
`cancel_all_chunks` and `cleanup` return when nothing runs any more.

Four kinds of step lose one. A chunk may be registered while a gather is in flight,
and the table is cleared under it; `resize_chunk` may be aimed at a range whose own
task still runs; `cancel_chunk` may delete an entry that was replaced while it
waited; and a second `cleanup` returns at once. `KeepsTasks` says of a step that it
is none of these.
-/

namespace SDownload

/-- The suspended calls that have asked every registered task to stop. -/
def Frame.gathers : Frame → Bool
  | .gathering .. | .listing .. | .removing .. => true
  | _ => false

/-- The methods whose return promises that nothing runs. -/
def Operation.stopsAll : Operation → Bool
  | .cancelAllChunks | .cleanup => true
  | _ => false

namespace World

/-- Every task has ended. -/
def AllDone (w : World) : Prop := ∀ t ∈ w.tasks, t.Done

instance (w : World) : Decidable w.AllDone := inferInstanceAs (Decidable (∀ t ∈ w.tasks, _))

/-- A `cancel_all_chunks` or a `cleanup` is in flight. -/
def Gathers (w : World) : Prop := ∃ f ∈ w.calls, f.gathers = true

instance (w : World) : Decidable w.Gathers := inferInstanceAs (Decidable (∃ f ∈ w.calls, _))

/-- `start_chunk` would register the range. -/
def Starts (w : World) (r : ChunkRange) : Prop :=
  (w.statsOf r).any (·.status = .completed) = false ∧ r ∉ w.chunksTasks.keys

instance (w : World) (r : ChunkRange) : Decidable (w.Starts r) :=
  inferInstanceAs (Decidable (_ ∧ _))

/-- The task registered under a range, if any, has ended. -/
def EntryDone (w : World) (r : ChunkRange) : Prop := ∀ t ∈ w.chunksTasks.get? r, w.TaskDone t

instance (w : World) (r : ChunkRange) : Decidable (w.EntryDone r) := by
  unfold EntryDone
  cases w.chunksTasks.get? r with
  | none => exact isTrue (by simp)
  | some t => exact decidable_of_iff (w.TaskDone t) (by simp)

end World

/-- A step that is none of those that lose a task. -/
def KeepsTasks (w : World) : Event → Prop
  | .startChunk r _ => w.Starts r → ¬ w.Gathers
  | .resizeChunk currentRange newRange =>
      w.Resizes currentRange newRange →
        ¬ w.Gathers ∧ (w.statsOf newRange).any (·.status = .completed) = false ∧
          w.EntryDone newRange
  | .cleanup _ => w.cleanedUp = true → w.AllDone
  | .resume i ok =>
      match w.calls[i]? with
      | some (.cancelInit r t _) | some (.cancelJoin r t _) => w.TaskDone t → w.EntryDone r
      -- the last round of the merge, after which `merge_chunks` calls `cleanup`
      | some (.merging (.closing none) true) => ok = true → w.cleanedUp = true → w.AllDone
      | _ => True
  | _ => True

instance (w : World) (e : Event) : Decidable (KeepsTasks w e) := by
  delta KeepsTasks
  induction e using Event.casesOn with
  | resume i ok =>
      dsimp only
      generalize w.calls[i]? = frame
      induction frame using Option.casesOn with
      | none => infer_instance
      | some frame =>
          induction frame using Frame.casesOn with
          | merging stage cleanup =>
              induction stage using MergeStage.casesOn with
              | closing error =>
                  induction error using Option.casesOn <;>
                    induction cleanup using Bool.casesOn <;> infer_instance
              | _ => infer_instance
          | _ => infer_instance
  | _ => infer_instance

namespace World

/-- What a suspended gather knows: it has every task that runs. What follows a gather knows that
none does. -/
def FrameKnows (w : World) : Frame → Prop
  | .gathering allTasks _ => ∀ (i : TaskId) (t : Task), w.tasks[i]? = some t → ¬ t.Done →
      i ∈ allTasks
  | .listing _ _ | .removing _ _ _ => w.AllDone
  | _ => True

/-- The invariant: entries point to tasks of their range, tasks that run are registered, records
are about their key. -/
structure Registered (w : World) : Prop where
  entry : ∀ r i, w.chunksTasks.get? r = some i → ∃ t, w.tasks[i]? = some t ∧ t.range = r
  live : ∀ (i : TaskId) (t : Task), w.tasks[i]? = some t → ¬ t.Done →
    w.chunksTasks.get? t.range = some i
  stats : ∀ r s, w.chunksStats.get? r = some s → s < w.stats.length ∧ (w.record s).range = r
  frames : ∀ f ∈ w.calls, w.FrameKnows f

/-! ### Worlds further on -/

theorem allDone_iff {w : World} : w.AllDone ↔ ∀ (i : TaskId) (t : Task), w.tasks[i]? = some t →
    t.Done := by
  unfold AllDone
  constructor
  · intro h i t ht
    exact h t (List.mem_of_getElem? ht)
  · intro h t ht
    obtain ⟨i, hi⟩ := List.mem_iff_getElem?.mp ht
    exact h i t hi

theorem Evolves.allDone {w w' : World} (h : w.Evolves w') (hd : w.AllDone) : w'.AllDone := by
  rw [allDone_iff] at hd ⊢
  intro i t' ht'
  obtain ⟨t, ht, hl⟩ := h.task_of ht'
  exact hl.done_of (hd i t ht)

theorem Evolves.frameKnows {w w' : World} (h : w.Evolves w') {f : Frame} (hf : w.FrameKnows f) :
    w'.FrameKnows f := by
  unfold FrameKnows at hf ⊢
  split
  · intro i t' ht' hlive
    obtain ⟨t, ht, hl⟩ := h.task_of ht'
    exact hf i t ht fun hd => hlive (hl.done_of hd)
  · exact h.allDone hf
  · exact h.allDone hf
  · trivial

theorem Registered.evolves {w w' : World} (hr : w.Registered) (h : w.Evolves w') :
    w'.Registered where
  entry := by
    intro r i hi
    rw [h.chunksTasks] at hi
    obtain ⟨t, ht, hrange⟩ := hr.entry r i hi
    obtain ⟨t', ht', hl⟩ := h.task i t ht
    exact ⟨t', ht', hl.range.trans hrange⟩
  live := by
    intro i t' ht' hlive
    obtain ⟨t, ht, hl⟩ := h.task_of ht'
    rw [h.chunksTasks, hl.range]
    exact hr.live i t ht fun hd => hlive (hl.done_of hd)
  stats := by
    intro r s hs
    rw [h.chunksStats] at hs
    rw [h.numStats, (h.record s).range]
    exact hr.stats r s hs
  frames := by
    intro f hf
    rw [h.calls] at hf
    exact h.frameKnows (hr.frames f hf)

/-- No task that runs has the range of an entry that is absent or done. -/
theorem Registered.range_ne {w : World} (hr : w.Registered) {r : ChunkRange} (hd : w.EntryDone r)
    {i : TaskId} {t : Task} (ht : w.tasks[i]? = some t) (hlive : ¬ t.Done) : t.range ≠ r := by
  intro he
  obtain ⟨t', ht', hdone⟩ := taskDone_iff.mp (hd i (he ▸ hr.live i t ht hlive))
  obtain rfl : t' = t := Option.some.inj (ht'.symm.trans ht)
  exact hlive hdone

/-- The range of a running task is nobody else's. -/
theorem Registered.live_inj {w : World} (hr : w.Registered) {i j : TaskId} {t t' : Task}
    (ht : w.tasks[i]? = some t) (ht' : w.tasks[j]? = some t') (hlive : ¬ t.Done)
    (hlive' : ¬ t'.Done) (hrange : t'.range = t.range) : j = i := by
  have hi := hr.live i t ht hlive
  have hj := hr.live j t' ht' hlive'
  rw [hrange, hi] at hj
  exact (Option.some.inj hj).symm

theorem entryDone_of_not_mem {w : World} {r : ChunkRange} (h : r ∉ w.chunksTasks.keys) :
    w.EntryDone r := by
  intro t ht
  rw [Dict.get?_eq_none_iff.mpr h] at ht
  cases ht

/-- Registering a range no running task has, with no gather in flight. -/
theorem Registered.creates {params : ChunkManagerParams} {w w' : World} {r : ChunkRange}
    {job : Job} (hr : w.Registered) (hd : w.EntryDone r) (hg : ¬ w.Gathers)
    (h : w.Creates params w' r job) : w'.Registered where
  entry := by
    intro r' i hi
    rw [h.chunksTasks, Dict.get?_set] at hi
    split at hi
    · rename_i hr'
      obtain rfl := Option.some.inj hi
      exact ⟨_, h.newTask, hr'.symm⟩
    · obtain ⟨t, ht, hrange⟩ := hr.entry r' i hi
      obtain ⟨t', ht', hl⟩ := h.task i t ht
      exact ⟨t', ht', hl.range.trans hrange⟩
  live := by
    intro i t' ht' hlive
    rw [h.chunksTasks, Dict.get?_set]
    rcases h.task_of ht' with ⟨t, ht, hl⟩ | ⟨rfl, rfl⟩
    · have hlive₀ : ¬ t.Done := fun hd => hlive (hl.done_of hd)
      rw [hl.range, if_neg (hr.range_ne hd ht hlive₀)]
      exact hr.live i t ht hlive₀
    · rw [if_pos rfl]
  stats := by
    intro r' s hs
    rw [h.chunksStats, Dict.get?_set] at hs
    rw [h.numStats]
    split at hs
    · rename_i hr'
      obtain rfl := Option.some.inj hs
      exact ⟨Nat.lt_succ_self _, h.newRecord.range.trans hr'.symm⟩
    · obtain ⟨hlt, hrange⟩ := hr.stats r' s hs
      exact ⟨Nat.lt_succ_of_lt hlt, (h.record s hlt).range.trans hrange⟩
  frames := by
    intro f hf
    rw [h.calls] at hf
    have hfree : f.gathers = false := Bool.eq_false_iff.mpr fun hf' => hg ⟨f, hf, hf'⟩
    cases f <;> trivial

/-! ### Each method -/

/-- A method that loses no task. -/
structure KeepsRegistered (w : World) (result : World × Progress) : Prop where
  registered : result.1.Registered
  calls : result.1.calls = w.calls
  frame : ∀ f, result.2 = .suspended f → result.1.FrameKnows f
  replies : ∀ rs, result.2 = .returned rs → (∃ r ∈ rs, r.operation.stopsAll = true) →
    result.1.AllDone

theorem KeepsRegistered.suspended {w w' : World} {f : Frame} (h : w'.Registered)
    (hcalls : w'.calls = w.calls) (hf : w'.FrameKnows f) :
    w.KeepsRegistered (w', .suspended f) where
  registered := h
  calls := hcalls
  frame := by
    rintro _ ⟨rfl⟩
    exact hf
  replies := by
    rintro _ ⟨⟩

theorem KeepsRegistered.returned {w w' : World} {rs : List Returned} (h : w'.Registered)
    (hcalls : w'.calls = w.calls)
    (hall : (∃ r ∈ rs, r.operation.stopsAll = true) → w'.AllDone) :
    w.KeepsRegistered (w', .returned rs) where
  registered := h
  calls := hcalls
  frame := by
    rintro _ ⟨⟩
  replies := by
    rintro _ ⟨rfl⟩
    exact hall

/-- Through a world further on with the same calls. -/
theorem KeepsRegistered.of_calls {w w₁ : World} {result : World × Progress}
    (h : w₁.KeepsRegistered result) (hcalls : w₁.calls = w.calls) : w.KeepsRegistered result :=
  ⟨h.registered, h.calls.trans hcalls, h.frame, h.replies⟩

/-- An entry that is absent or done can be dropped. -/
theorem Registered.eraseTask {w : World} {r : ChunkRange} (hr : w.Registered)
    (hd : w.EntryDone r) : Registered { w with chunksTasks := w.chunksTasks.erase r } where
  entry := fun r' i hi => hr.entry r' i (Dict.get?_erase_eq_some.mp hi).2
  live := fun i t ht hlive =>
    Dict.get?_erase_eq_some.mpr ⟨hr.range_ne hd ht hlive, hr.live i t ht hlive⟩
  stats := hr.stats
  frames := hr.frames

theorem Registered.eraseStats {w : World} (hr : w.Registered) (r : ChunkRange) :
    Registered { w with chunksStats := w.chunksStats.erase r } :=
  ⟨hr.entry, hr.live, fun r' s hs => hr.stats r' s (Dict.get?_erase_eq_some.mp hs).2, hr.frames⟩

theorem Registered.clearTasks {w : World} (hr : w.Registered) (hall : w.AllDone) :
    Registered { w with chunksTasks := Dict.empty } where
  entry := by
    rintro _ _ ⟨⟩
  live := fun i t ht hlive => absurd (allDone_iff.mp hall i t ht) hlive
  stats := hr.stats
  frames := hr.frames

/-- Neither the files nor the lock nor the flag are part of it. -/
theorem Registered.of_tables {w w' : World} (hr : w.Registered) (htasks : w'.tasks = w.tasks)
    (hstats : w'.stats = w.stats) (hchunksTasks : w'.chunksTasks = w.chunksTasks)
    (hchunksStats : w'.chunksStats = w.chunksStats) (hcalls : w'.calls = w.calls) :
    w'.Registered := by
  obtain ⟨h1, h2, h3, h4⟩ := hr
  refine ⟨?_, ?_, ?_, ?_⟩
  · rw [hchunksTasks, htasks]
    exact h1
  · rw [hchunksTasks, htasks]
    exact h2
  · unfold record
    rw [hchunksStats, hstats]
    exact h3
  · intro f hf
    have hknows := h4 f (hcalls ▸ hf)
    cases f with
    | gathering allTasks goal =>
        show ∀ i t, w'.tasks[i]? = some t → _
        rw [htasks]
        exact hknows
    | listing files ofMerge =>
        show ∀ t ∈ w'.tasks, _
        rw [htasks]
        exact hknows
    | removing files failed ofMerge =>
        show ∀ t ∈ w'.tasks, _
        rw [htasks]
        exact hknows
    | _ => trivial

theorem popAndDelete_registered {w : World} (hr : w.Registered) (r : ChunkRange) :
    w.KeepsRegistered (w.popAndDelete r) := by
  unfold popAndDelete
  split
  · exact .returned hr rfl (by simp [Operation.stopsAll])
  · exact .suspended (hr.eraseStats r) rfl trivial

theorem cancelReturns_registered {w : World} (hr : w.Registered) (r : ChunkRange)
    (thenDelete b : Bool) : w.KeepsRegistered (w.cancelReturns r thenDelete b) := by
  unfold cancelReturns
  split
  · exact popAndDelete_registered hr r
  · exact .returned hr rfl (by simp [Operation.stopsAll])

theorem cancelRaises_registered {w : World} (hr : w.Registered) (r : ChunkRange)
    (thenDelete : Bool) : w.KeepsRegistered (w.cancelRaises r thenDelete) := by
  refine .returned hr rfl ?_
  cases thenDelete <;> simp [Operation.stopsAll]

theorem cancelJoined_registered {w : World} {r : ChunkRange} (hr : w.Registered)
    (thenDelete : Bool) (hd : w.EntryDone r) :
    w.KeepsRegistered (w.cancelJoined r thenDelete) := by
  unfold cancelJoined
  split
  · exact (cancelReturns_registered (hr.eraseTask hd) r thenDelete true).of_calls rfl
  · exact cancelRaises_registered hr r thenDelete

theorem cancelSignalled_registered {w : World} {r : ChunkRange} {t : TaskId} (hr : w.Registered)
    (thenDelete : Bool) (hd : w.TaskDone t → w.EntryDone r) :
    w.KeepsRegistered (w.cancelSignalled r t thenDelete) := by
  have hr' := hr.evolves (w.cancelTask_evolves t)
  unfold cancelSignalled
  dsimp only
  split
  · rename_i hdone
    refine (cancelJoined_registered hr' thenDelete fun i hi => ?_).of_calls rfl
    exact (w.taskDone_cancelTask t i).mpr (hd ((w.taskDone_cancelTask t t).mp hdone) i hi)
  · exact .suspended hr' rfl trivial

theorem cancelChunk_registered {w : World} (hr : w.Registered) (r : ChunkRange)
    (thenDelete : Bool) : w.KeepsRegistered (w.cancelChunk r thenDelete) := by
  unfold cancelChunk
  split
  · exact cancelReturns_registered hr r thenDelete _
  · rename_i t ht
    split
    · exact cancelRaises_registered hr r thenDelete
    · split
      · split
        · refine cancelSignalled_registered hr thenDelete fun hdone i hi => ?_
          obtain rfl : t = i := Option.some.inj (ht.symm.trans hi)
          exact hdone
        · exact .suspended hr rfl trivial
      · exact cancelReturns_registered hr r thenDelete _

theorem deleteChunkData_registered {w : World} (hr : w.Registered) (r : ChunkRange) :
    w.KeepsRegistered (w.deleteChunkData r) := by
  unfold deleteChunkData
  split
  · exact cancelChunk_registered hr r true
  · exact popAndDelete_registered hr r

theorem waitEntered_registered {w : World} (hr : w.Registered) (timed : Bool)
    (returnWhen : ReturnWhen) : w.KeepsRegistered (w.waitEntered timed returnWhen) := by
  unfold waitEntered
  split
  · exact .returned hr rfl (by simp [Operation.stopsAll])
  · exact .suspended (hr.of_tables rfl rfl rfl rfl rfl) rfl trivial

theorem waitForChunks_registered {w : World} (hr : w.Registered) (timed : Bool)
    (returnWhen : ReturnWhen) : w.KeepsRegistered (w.waitForChunks timed returnWhen) := by
  unfold waitForChunks
  split
  · exact .suspended hr rfl trivial
  · exact waitEntered_registered hr timed returnWhen

/-- Dropping entries whose tasks have ended. -/
theorem Registered.eraseTasks {w : World} (hr : w.Registered) {α : Type} (f : α → ChunkRange)
    (l : List α) (hd : ∀ a ∈ l, w.EntryDone (f a)) :
    Registered { w with chunksTasks := l.foldl (fun d a => d.erase (f a)) w.chunksTasks } where
  entry := by
    intro r i hi
    rw [Dict.get?_foldl_erase] at hi
    split at hi
    · cases hi
    · exact hr.entry r i hi
  live := by
    intro i t ht hlive
    rw [Dict.get?_foldl_erase, if_neg]
    · exact hr.live i t ht hlive
    · intro hmem
      obtain ⟨a, ha, hrange⟩ := List.mem_map.mp hmem
      exact hr.range_ne (hd a ha) ht hlive hrange.symm
  stats := hr.stats
  frames := hr.frames

/-- A wait drops the entries whose tasks it found ended. -/
theorem waitCollects_registered {w : World} (hr : w.Registered) (allTasks : List TaskId) :
    w.KeepsRegistered (w.waitCollects allTasks) := by
  have hr' : Registered { w with waitLocked := false } := hr.of_tables rfl rfl rfl rfl rfl
  unfold waitCollects
  dsimp only
  split
  · exact .returned hr' rfl (by simp [Operation.stopsAll])
  · rename_i completed hok
    refine .returned (hr'.eraseTasks _ completed fun s hs => ?_) rfl (by simp [Operation.stopsAll])
    -- the record collected for an entry is about the entry's range
    obtain ⟨⟨r, t⟩, hmem, hfound⟩ := Except.exists_of_mapM_ok hok hs
    obtain ⟨hentry, hfinished⟩ := List.mem_filter.mp hmem
    have hstats : w.chunksStats.get? r = some s := by
      unfold finishedStats at hfound
      dsimp only at hfound
      cases hget : w.chunksStats.get? r with
      | none => simp [hget] at hfound
      | some s' =>
          simp only [hget] at hfound
          rw [Except.ok.inj hfound]
    intro i hi
    replace hi : w.chunksTasks.get? (w.record s).range = some i := hi
    rw [(hr.stats r s hstats).2] at hi
    have hget : w.chunksTasks.get? r = some t := Dict.get?_eq_some_iff.mpr hentry
    obtain rfl : t = i := Option.some.inj (hget.symm.trans hi)
    exact (of_decide_eq_true hfinished).2

/-! ### Stopping everything -/

theorem cleanupDone_registered (params : ChunkManagerParams) {w : World} (hr : w.Registered)
    (hall : w.AllDone) (ofMerge : Bool) :
    w.KeepsRegistered (w.cleanupDone params ofMerge) := by
  refine .returned ⟨hr.entry, hr.live, ?_, hr.frames⟩ rfl fun _ => hall
  rintro _ _ ⟨⟩

theorem cleanupRaises_registered (params : ChunkManagerParams) {w : World} (hr : w.Registered)
    (hall : w.AllDone) (ofMerge : Bool) :
    w.KeepsRegistered (w.cleanupRaises params ofMerge) :=
  .returned hr rfl fun _ => hall

theorem gathered_registered (params : ChunkManagerParams) {w : World} (hr : w.Registered)
    (hall : w.AllDone) (goal : GatherGoal) : w.KeepsRegistered (w.gathered params goal) := by
  have hr' := hr.clearTasks hall
  unfold gathered
  dsimp only
  split
  · exact .returned hr' rfl fun _ => hall
  · exact .suspended hr' rfl hall
  · exact (cleanupDone_registered params hr' hall _).of_calls rfl

theorem cancelEntry_evolves (w : World) (entry : ChunkRange × TaskId) :
    w.Evolves (w.cancelEntry entry) := by
  have hcancel := w.cancelTask_evolves entry.2
  unfold cancelEntry
  dsimp only
  split
  · exact hcancel
  · split
    · exact hcancel.trans (setRecord_evolves _ ⟨rfl, rfl, rfl⟩)
    · exact hcancel

theorem cancelEntries_evolves (entries : List (ChunkRange × TaskId)) (w : World) :
    w.Evolves (entries.foldl cancelEntry w) := by
  induction entries generalizing w with
  | nil => exact .refl w
  | cons entry rest ih => exact (w.cancelEntry_evolves entry).trans (ih _)

/-- Every task that runs is among those a gather awaits. -/
theorem Registered.mem_values {w : World} (hr : w.Registered) {i : TaskId} {t : Task}
    (ht : w.tasks[i]? = some t) (hlive : ¬ t.Done) : i ∈ w.chunksTasks.values :=
  Dict.mem_values_iff.mpr ⟨t.range, hr.live i t ht hlive⟩

theorem Registered.allDone_of_empty {w : World} (hr : w.Registered)
    (hempty : w.chunksTasks.keys = []) : w.AllDone := by
  rw [allDone_iff]
  intro i t ht
  by_contra hlive
  have hkey : t.range ∈ w.chunksTasks.keys := Dict.mem_keys_iff.mpr ⟨i, hr.live i t ht hlive⟩
  rw [hempty] at hkey
  cases hkey

theorem cancelAllChunks_registered (params : ChunkManagerParams) {w : World} (hr : w.Registered)
    (goal : GatherGoal) : w.KeepsRegistered (w.cancelAllChunks params goal) := by
  have hev := cancelEntries_evolves w.chunksTasks.entries w
  have hr' := hr.evolves hev
  unfold cancelAllChunks
  dsimp only
  split
  · rename_i hempty
    exact (gathered_registered params hr' (hr'.allDone_of_empty hempty) goal).of_calls hev.calls
  · exact .suspended hr' hev.calls fun i t ht hlive => hr'.mem_values ht hlive

theorem cleanup_registered (params : ChunkManagerParams) {w : World} (hr : w.Registered)
    (hall : w.cleanedUp = true → w.AllDone) (deleteFiles ofMerge : Bool) :
    w.KeepsRegistered (w.cleanup params deleteFiles ofMerge) := by
  unfold World.cleanup
  split
  · rename_i hcleaned
    exact .returned hr rfl fun _ => hall hcleaned
  · have hr' : Registered { w with cleanedUp := true } := hr.of_tables rfl rfl rfl rfl rfl
    exact (cancelAllChunks_registered params hr' _).of_calls rfl

theorem removeListed_registered (params : ChunkManagerParams) {w : World} (hr : w.Registered)
    (hall : w.AllDone) (files : List String) (failed ofMerge : Bool) :
    w.KeepsRegistered (w.removeListed params files failed ofMerge) := by
  unfold removeListed
  split
  · split
    · exact cleanupRaises_registered params hr hall ofMerge
    · exact cleanupDone_registered params hr hall ofMerge
  · exact .suspended hr rfl hall

theorem mergeChunks_registered (params : ChunkManagerParams) {w : World} (hr : w.Registered)
    (cleanup : Bool) : w.KeepsRegistered (w.mergeChunks params cleanup) := by
  unfold mergeChunks
  split
  · exact .returned hr rfl (by simp [Operation.stopsAll])
  · exact .suspended hr rfl trivial

theorem mergeRound_registered (params : ChunkManagerParams) {w : World} (hr : w.Registered)
    (stage : MergeStage) {cleanup : Bool} (ok : Bool)
    (hall : cleanup = true → stage = .closing none → ok = true → w.cleanedUp = true → w.AllDone) :
    w.KeepsRegistered (w.mergeRound params stage cleanup ok) := by
  have hr' : ∀ files, Registered { w with files } := fun files =>
    hr.of_tables rfl rfl rfl rfl rfl
  unfold mergeRound
  split
  · exact .suspended (hr' _) rfl trivial
  · exact .returned (hr' _) rfl (by simp [Operation.stopsAll])
  · rename_i files hround
    split
    · rename_i hcleanup
      obtain ⟨hstage, hok⟩ := stage_of_mergeStep_end hround
      exact (cleanup_registered params (hr' files) (hall hcleanup hstage hok) true true).of_calls
        rfl
    · exact .returned (hr' _) rfl (by simp [Operation.stopsAll])

/-- A suspended call that goes on loses no task. -/
theorem Registered.resume {params : ChunkManagerParams} {w : World} {i : Nat} {f : Frame}
    {ok : Bool} {result : World × Progress} (hr : w.Registered) (hf : w.calls[i]? = some f)
    (hkeeps : KeepsTasks w (.resume i ok)) (hresume : w.resume params f ok = some result) :
    w.KeepsRegistered result := by
  have hknows := hr.frames f (List.mem_of_getElem? hf)
  unfold KeepsTasks at hkeeps
  simp only [hf] at hkeeps
  unfold World.resume at hresume
  cases f with
  | cancelInit r t thenDelete =>
      dsimp only at hresume
      split at hresume
      · obtain rfl := Option.some.inj hresume
        exact cancelSignalled_registered hr thenDelete hkeeps
      · cases hresume
  | cancelJoin r t thenDelete =>
      dsimp only at hresume
      split at hresume
      · rename_i hdone
        obtain rfl := Option.some.inj hresume
        exact cancelJoined_registered hr thenDelete (hkeeps hdone)
      · cases hresume
  | deleting name =>
      obtain rfl := Option.some.inj hresume
      exact .returned (hr.of_tables rfl rfl rfl rfl rfl) rfl (by simp [Operation.stopsAll])
  | lockWait timed returnWhen =>
      dsimp only at hresume
      split at hresume
      · cases hresume
      · obtain rfl := Option.some.inj hresume
        exact waitEntered_registered hr timed returnWhen
  | waiting allTasks timed returnWhen =>
      dsimp only at hresume
      split at hresume
      · obtain rfl := Option.some.inj hresume
        exact waitCollects_registered hr allTasks
      · cases hresume
  | gathering allTasks goal =>
      dsimp only at hresume
      split at hresume
      · rename_i hgathered
        obtain rfl := Option.some.inj hresume
        -- a task that is still live was among those gathered, and they have all ended
        refine gathered_registered params hr (allDone_iff.mpr fun i t ht => ?_) goal
        by_contra hlive
        obtain ⟨t', ht', hdone⟩ := taskDone_iff.mp (hgathered i (hknows i t ht hlive))
        obtain rfl : t' = t := Option.some.inj (ht'.symm.trans ht)
        exact hlive hdone
      · cases hresume
  | listing files ofMerge =>
      dsimp only at hresume
      split at hresume
      · obtain rfl := Option.some.inj hresume
        exact removeListed_registered params hr hknows _ false ofMerge
      · obtain rfl := Option.some.inj hresume
        exact cleanupRaises_registered params hr hknows ofMerge
  | removing files failed ofMerge =>
      cases files with
      | nil =>
          obtain rfl := Option.some.inj hresume
          exact removeListed_registered params hr hknows [] failed ofMerge
      | cons file files =>
          dsimp only at hresume
          split at hresume
          · obtain rfl := Option.some.inj hresume
            have hr' : Registered { w with files := w.files.unlink file } :=
              hr.of_tables rfl rfl rfl rfl rfl
            exact (removeListed_registered params hr' hknows files failed ofMerge).of_calls rfl
          · obtain rfl := Option.some.inj hresume
            exact removeListed_registered params hr hknows files true ofMerge
  | merging stage cleanup =>
      obtain rfl := Option.some.inj hresume
      refine mergeRound_registered params hr stage ok fun hcleanup hstage => ?_
      subst hcleanup hstage
      exact hkeeps

/-! ### Each step -/

/-- A method that was just called joins the suspended calls, or returns. -/
theorem KeepsRegistered.called {w : World} {result : World × Progress}
    (hkeeps : w.KeepsRegistered result) :
    (called result).1.Registered ∧
      ((∃ r ∈ (called result).2, r.operation.stopsAll = true) → (called result).1.AllDone) := by
  obtain ⟨w', progress⟩ := result
  have hr' : w'.Registered := hkeeps.registered
  cases progress with
  | suspended f =>
      refine ⟨⟨hr'.entry, hr'.live, hr'.stats, fun f' hf' => ?_⟩, by simp [SDownload.called]⟩
      rcases List.mem_append.mp hf' with hf' | hf'
      · exact hr'.frames f' hf'
      · obtain rfl := List.mem_singleton.mp hf'
        exact hkeeps.frame _ rfl
  | returned rs => exact ⟨hr', hkeeps.replies rs rfl⟩

/-- A call that went on is suspended again, or returns. -/
theorem KeepsRegistered.resumed {w : World} {result : World × Progress} (i : Nat)
    (hkeeps : w.KeepsRegistered result) :
    (resumed i result).1.Registered ∧
      ((∃ r ∈ (resumed i result).2, r.operation.stopsAll = true) →
        (resumed i result).1.AllDone) := by
  obtain ⟨w', progress⟩ := result
  have hr' : w'.Registered := hkeeps.registered
  cases progress with
  | suspended f =>
      refine ⟨⟨hr'.entry, hr'.live, hr'.stats, fun f' hf' => ?_⟩, by simp [SDownload.resumed]⟩
      rcases List.mem_or_eq_of_mem_set hf' with hf' | rfl
      · exact hr'.frames f' hf'
      · exact hkeeps.frame _ rfl
  | returned rs =>
      refine ⟨⟨hr'.entry, hr'.live, hr'.stats, fun f' hf' => ?_⟩, hkeeps.replies rs rfl⟩
      exact hr'.frames f' (List.mem_of_mem_eraseIdx hf')

/-- A step that keeps the condition keeps the invariant, and what stops everything returns when
everything has stopped. -/
theorem Registered.step {params : ChunkManagerParams} {w w' : World} {e : Event}
    {out : List Returned} (hr : w.Registered) (hkeeps : KeepsTasks w e)
    (hstep : step params w e = some (w', out)) :
    w'.Registered ∧ ((∃ r ∈ out, r.operation.stopsAll = true) → w'.AllDone) := by
  cases e with
  | startChunk r speed =>
      obtain ⟨rfl, rfl⟩ := Prod.mk.inj (Option.some.inj hstep)
      refine ⟨?_, by simp [Operation.stopsAll]⟩
      rcases startChunk_cases params w r speed with ⟨hsame, -⟩ | ⟨hnew, hkey, hcreates⟩
      · rw [hsame]
        exact hr
      · exact hr.creates (entryDone_of_not_mem hkey) (hkeeps ⟨hnew, hkey⟩) hcreates
  | resizeChunk currentRange newRange =>
      obtain ⟨e, -, rfl, rfl⟩ | ⟨hok, rfl⟩ := step_resizeChunk hstep
      · exact ⟨hr, by simp [Operation.stopsAll]⟩
      · refine ⟨?_, by simp [Operation.stopsAll]⟩
        rcases resizeChunk_cases hok with ⟨rfl, -⟩ | ⟨hresizes, a, -, hcreates⟩
        · exact hr
        · obtain ⟨hg, -, hdone⟩ := hkeeps hresizes
          exact hr.creates hdone hg hcreates
  | cancelChunk r =>
      obtain ⟨rfl, rfl⟩ := Prod.mk.inj (Option.some.inj hstep)
      exact (cancelChunk_registered hr r false).called
  | deleteChunkData r =>
      obtain ⟨rfl, rfl⟩ := Prod.mk.inj (Option.some.inj hstep)
      exact (deleteChunkData_registered hr r).called
  | wait timed returnWhen =>
      obtain ⟨rfl, rfl⟩ := Prod.mk.inj (Option.some.inj hstep)
      exact (waitForChunks_registered hr timed returnWhen).called
  | cancelAllChunks =>
      obtain ⟨rfl, rfl⟩ := Prod.mk.inj (Option.some.inj hstep)
      exact (cancelAllChunks_registered params hr .cancelAll).called
  | cleanup deleteFiles =>
      obtain ⟨rfl, rfl⟩ := Prod.mk.inj (Option.some.inj hstep)
      exact (cleanup_registered params hr hkeeps deleteFiles false).called
  | mergeChunks cleanup =>
      obtain ⟨rfl, rfl⟩ := Prod.mk.inj (Option.some.inj hstep)
      exact (mergeChunks_registered params hr cleanup).called
  | resume i ok =>
      obtain ⟨f, result, hf, hresume, heq⟩ := step_resume hstep
      have hresult := (hr.resume hf hkeeps hresume).resumed i
      rw [heq] at hresult
      exact hresult
  | task i e =>
      obtain ⟨hturn, rfl⟩ := step_task hstep
      exact ⟨hr.evolves (taskStep_evolves hturn), by simp⟩

theorem registered_init (files : Files) (recoveredStats : List Stats) :
    (World.init files recoveredStats).Registered where
  entry := by
    rintro _ _ ⟨⟩
  live := by
    rintro _ _ ⟨⟩
  stats := by
    intro r s hs
    rcases Dict.get?_foldl_set (fun p : Stats × Nat => p.1.range) Prod.snd hs with h | h
    · cases h
    · obtain ⟨⟨stat, i⟩, hmem, rfl, rfl⟩ := h
      have hget : recoveredStats[i]? = some stat := List.mem_zipIdx_iff_getElem?.mp hmem
      refine ⟨(List.getElem?_eq_some_iff.mp hget).1, ?_⟩
      show (recoveredStats.getD i default).range = stat.range
      rw [List.getD_eq_getElem?_getD, hget]
      rfl
  frames := fun _ hf => absurd hf List.not_mem_nil

/-- Every task that runs is the one registered under its range. -/
def LiveRegistered (w : World) : Prop :=
  ∀ (i : TaskId) (t : Task), w.tasks[i]? = some t → ¬ t.Done →
    w.chunksTasks.get? t.range = some i

/-- From `w` to `w'`, no record was replaced that is completed or whose task still runs. -/
def RecordsKept (w w' : World) : Prop :=
  ∀ r s, w.chunksStats.get? r = some s → w'.chunksStats.get? r ≠ some s →
    (w.record s).status ≠ .completed ∧
      ∀ (i : TaskId) (t : Task), w.tasks[i]? = some t → ¬ t.Done → t.range ≠ r

/-- Registering replaces the record of one range only. -/
theorem RecordsKept.of_creates {params : ChunkManagerParams} {w w' : World} {r : ChunkRange}
    {job : Job} (hr : w.Registered) (hd : w.EntryDone r)
    (hnew : (w.statsOf r).any (·.status = .completed) = false)
    (h : w.Creates params w' r job) : w.RecordsKept w' := by
  intro r' s hs hreplaced
  rw [h.chunksStats, Dict.get?_set] at hreplaced
  split at hreplaced
  · rename_i hr'
    subst hr'
    rw [statsOf, hs] at hnew
    exact ⟨of_decide_eq_false hnew, fun i t ht hlive => hr.range_ne hd ht hlive⟩
  · exact absurd hs hreplaced

end World

/-- `start_chunk` and `resize_chunk`. -/
def Event.registers : Event → Bool
  | .startChunk .. | .resizeChunk .. => true
  | _ => false

/-- **No task is lost.** In every run whose steps keep the condition: every task that runs is
registered, `start_chunk` and `resize_chunk` replace no record that is completed or in use, and
nothing runs when `cancel_all_chunks` or `cleanup` returns. -/
theorem no_task_lost (params : ChunkManagerParams) (files : Files) (recoveredStats : List Stats)
    {w : World} (h : Reaches (step params) KeepsTasks (World.init files recoveredStats) w) :
    w.LiveRegistered ∧
      ∀ e w' out, KeepsTasks w e → step params w e = some (w', out) →
        (e.registers = true → w.RecordsKept w') ∧
          ((∃ r ∈ out, r.operation.stopsAll = true) → w'.AllDone) := by
  have hr : w.Registered := h.invariant (World.registered_init files recoveredStats)
    fun hr hkeeps hstep => (hr.step hkeeps hstep).1
  refine ⟨hr.live, fun e w' out hkeeps hstep => ⟨fun hregisters => ?_, (hr.step hkeeps hstep).2⟩⟩
  cases e with
  | startChunk r speed =>
      obtain ⟨rfl, -⟩ := Prod.mk.inj (Option.some.inj hstep)
      rcases World.startChunk_cases params w r speed with ⟨hsame, -⟩ | ⟨hnew, hkey, hcreates⟩
      · rw [hsame]
        exact fun r' s hs hreplaced => absurd hs hreplaced
      · exact .of_creates hr (World.entryDone_of_not_mem hkey) hnew hcreates
  | resizeChunk currentRange newRange =>
      obtain ⟨-, -, rfl, -⟩ | ⟨hok, -⟩ := step_resizeChunk hstep
      · exact fun r' s hs hreplaced => absurd hs hreplaced
      · rcases World.resizeChunk_cases hok with ⟨rfl, -⟩ | ⟨hresizes, a, -, hcreates⟩
        · exact fun r' s hs hreplaced => absurd hs hreplaced
        · obtain ⟨-, hnew, hdone⟩ := hkeeps hresizes
          exact .of_creates hr hdone hnew hcreates
  | _ => cases hregisters

/-- A chunk is split while it downloads, and everything is cancelled. -/
def stoppedRun : List Event :=
  [.startChunk ⟨0, some 3⟩ none, .task 0 .begins, .resizeChunk ⟨0, some 3⟩ ⟨0, some 1⟩,
    .cancelAllChunks, .task 1 (.cancelled none), .task 0 (.cancelled none), .resume 0 true]

theorem no_task_lost_stopped :
    let w := runTo (step ⟨"f", some 4, 1⟩) KeepsTasks (World.init FileSystem.empty []) stoppedRun
    (w.tasks.length = 2 ∧ w.chunksTasks.keys = []) ∧ w.LiveRegistered :=
  ⟨by decide, (no_task_lost _ _ _ (reaches_runTo _ _ _ _)).1⟩

/-- A chunk is resized onto a range that has a task of its own. -/
def overlaidRun : List Event :=
  [.startChunk ⟨0, some 3⟩ none, .startChunk ⟨0, some 1⟩ none,
    .resizeChunk ⟨0, some 3⟩ ⟨0, some 1⟩]

/-- The task that was registered there runs on, unregistered. -/
theorem task_lost :
    ¬ ∀ w, Reaches (step ⟨"f", some 4, 1⟩) (fun _ _ => True) (World.init FileSystem.empty []) w →
      w.LiveRegistered ∧
        ∀ e w' out, step ⟨"f", some 4, 1⟩ w e = some (w', out) →
          (e.registers = true → w.RecordsKept w') ∧
            ((∃ r ∈ out, r.operation.stopsAll = true) → w'.AllDone) := by
  intro h
  have hreach := reaches_runTo (step ⟨"f", some 4, 1⟩) (fun _ _ => True)
    (World.init FileSystem.empty []) overlaidRun
  exact absurd ((h _ hreach).1 1 { range := ⟨0, some 1⟩, stats := 1, job := .download }
    (by decide) (by decide)) (by decide)

end SDownload
