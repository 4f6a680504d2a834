import SDownload.Lib.Measure
import SDownload.Manager.Quiescence

/-!
# SDownload.Manager.Termination

A manager that nobody calls comes to rest.

Every turn of a task brings it closer to its end, and every suspended call that goes
on has fewer `await`s ahead. What can add to the work is a piece of a response: it has to
be written, and may reach a limit at which another task is asked to stop. A run
without calls is therefore no longer than what is left to do and a few turns for
each piece (`comes_to_rest`), and rest can be reached from wherever the program
is. A merge is bounded by the files it reads and not by what the manager knows, so
none may be under way.
-/

namespace SDownload

/-- A `merge_chunks` at work on the files. -/
def Frame.isMerge : Frame → Bool
  | .merging .. => true
  | _ => false

/-- The turns a suspended call has ahead of it, and the cancellations it asks for, if there are `n`
records to clean up. -/
def Frame.budget (n : Nat) : Frame → Nat
  | .cancelInit .. => 4
  | .cancelJoin .. | .lockWait .. => 2
  | .deleting _ | .waiting .. => 1
  | .gathering .. => n + 3
  | .listing files _ => files.length + 2
  | .removing files _ _ => files.length + 1
  | .merging .. => 0

theorem Frame.budget_mono {n m : Nat} (h : n ≤ m) (f : Frame) : f.budget n ≤ f.budget m := by
  cases f <;> simp only [budget] <;> omega

def Progress.budget (n : Nat) : Progress → Nat
  | .suspended f => f.budget n
  | .returned _ => 0

/-- The turns that a piece brings with it. -/
def Event.cost (e : Event) : Nat := if e.isPiece then 4 else 0

theorem sum_cost (events : List Event) :
    (events.map Event.cost).sum = 4 * events.countP Event.isPiece := by
  induction events with
  | nil => rfl
  | cons e rest ih =>
      rw [List.map_cons, List.sum_cons, ih, List.countP_cons, Event.cost]
      split <;> omega

namespace World

variable {params : ChunkManagerParams} {w w' w₁ : World}

/-- The turns that the tasks have ahead. -/
def turns (w : World) : Nat := (w.tasks.map Task.weight).sum

/-- How many records a cleanup goes through. -/
def numRecords (w : World) : Nat := w.chunksStats.entries.length

/-- The turns that all tasks and all suspended calls have ahead. -/
def budget (w : World) : Nat :=
  w.turns + (w.calls.map (Frame.budget w.numRecords)).sum

theorem turns_cancelTask (w : World) (i : TaskId) : (w.cancelTask i).turns ≤ w.turns + 1 := by
  refine sum_map_modify_le (fun t => ?_) _ _
  unfold requestCancel
  split
  · omega
  · have hle := Bool.toNat_le t.cancelRequested
    simp only [Task.weight, Bool.toNat_true]
    omega

theorem turns_stopPredecessor (w : World) (cb : StopCallback) :
    (w.stopPredecessor cb).turns ≤ w.turns + 1 := by
  unfold stopPredecessor
  split
  · omega
  · split
    · exact w.turns_cancelTask _
    · omega

theorem turns_stopPredecessors (w : World) (callback : Option StopCallback) :
    (callback.elim w w.stopPredecessor).turns ≤ w.turns + 1 := by
  cases callback with
  | none => exact Nat.le_succ _
  | some cb => exact w.turns_stopPredecessor cb

theorem turns_cancelTasks (w : World) (k : Option TaskId) :
    (k.elim w w.cancelTask).turns ≤ w.turns + 1 := by
  cases k with
  | none => exact Nat.le_succ _
  | some i => exact w.turns_cancelTask i

/-! ### A task takes a turn -/

theorem turns_taskStep {i : TaskId} {e : TaskEvent} (h : w.taskStep i e = some w') :
    w'.turns + 1 ≤ w.turns + (Event.task i e).cost := by
  unfold taskStep at h
  split at h
  · cases h
  · rename_i t ht
    split at h
    · rename_i hjob
      split at h
      · cases h
      · rename_i d callback hstep
        obtain rfl := Option.some.inj h
        have hproceeds := DownloadState.proceeds_step hstep
        have hset : ((w.tasks.set i d.task).map Task.weight).sum + t.weight =
            w.turns + d.task.weight := sum_map_set ht d.task
        cases hpiece : e.isPiece with
        | true =>
            have hcost : (Event.task i e).cost = 4 := if_pos hpiece
            have hmore : d.task.weight ≤ t.weight + 2 := hproceeds.piece hpiece
            refine Nat.le_trans (Nat.succ_le_succ (turns_stopPredecessors _ callback)) ?_
            show ((w.tasks.set i d.task).map Task.weight).sum + 1 + 1 ≤ _
            omega
        | false =>
            have hless : d.task.weight < t.weight := hproceeds.weight hpiece
            cases callback with
            | none =>
                show ((w.tasks.set i d.task).map Task.weight).sum + 1 ≤ _
                omega
            | some cb =>
                rw [DownloadState.isPiece_of_callback hstep] at hpiece
                cases hpiece
    · rename_i p predecessorTask hjob
      split at h
      · cases h
      · rename_i u stops hstep
        obtain rfl := Option.some.inj h
        have hless : u.task.weight + stops.toNat < t.weight :=
          (SuccessionState.proceeds_step hstep).weight
        have hset : ((w.tasks.set i u.task).map Task.weight).sum + t.weight =
            w.turns + u.task.weight := sum_map_set ht u.task
        cases stops with
        | false =>
            show ((w.tasks.set i u.task).map Task.weight).sum + 1 ≤ _
            omega
        | true =>
            have hstops : u.task.weight + 1 < t.weight := hless
            refine Nat.le_trans (Nat.succ_le_succ (turns_cancelTasks _ predecessorTask)) ?_
            show ((w.tasks.set i u.task).map Task.weight).sum + 1 + 1 ≤ _
            omega

/-! ### A call goes on -/

/-- How a method ends that may take `b` more turns: with no more ahead of it, no more records, and
not in a merge. -/
structure Spends (w : World) (result : World × Progress) (b : Nat) : Prop where
  turns : result.1.turns + result.2.budget result.1.numRecords ≤ w.turns + b
  numRecords : result.1.numRecords ≤ w.numRecords
  calls : result.1.calls = w.calls
  merge : ∀ f, result.2 = .suspended f → f.isMerge = false

theorem Spends.mono {result : World × Progress} {b c : Nat} (h : w.Spends result b)
    (hle : b ≤ c) : w.Spends result c :=
  ⟨Nat.le_trans h.turns (Nat.add_le_add_left hle _), h.numRecords, h.calls, h.merge⟩

/-- Nothing but tables and files has changed. -/
theorem spends_of_tasks {result : World × Progress} {b : Nat} (htasks : result.1.tasks = w.tasks)
    (hrecords : result.1.numRecords ≤ w.numRecords) (hcalls : result.1.calls = w.calls)
    (hbudget : result.2.budget result.1.numRecords ≤ b)
    (hmerge : ∀ f, result.2 = .suspended f → f.isMerge = false) : w.Spends result b where
  turns := by
    have hturns : result.1.turns = w.turns := by rw [World.turns, World.turns, htasks]
    omega
  numRecords := hrecords
  calls := hcalls
  merge := hmerge

theorem reproceeds_spends (w : World) (replies : List Returned) (b : Nat) :
    w.Spends (w, .returned replies) b :=
  spends_of_tasks rfl (Nat.le_refl _) rfl (Nat.zero_le _) nofun

theorem popAndDelete_spends (w : World) (r : ChunkRange) : w.Spends (w.popAndDelete r) 1 := by
  unfold popAndDelete
  split
  · exact w.reproceeds_spends _ _
  · refine spends_of_tasks rfl (List.length_filter_le _ _) rfl (Nat.le_refl _) fun f hf => ?_
    obtain rfl := Progress.suspended.inj hf
    rfl

theorem cancelJoined_spends (w : World) (r : ChunkRange) (thenDelete : Bool) :
    w.Spends (w.cancelJoined r thenDelete) 1 := by
  unfold cancelJoined
  split
  · unfold cancelReturns
    split
    · have hpop := popAndDelete_spends { w with chunksTasks := w.chunksTasks.erase r } r
      exact ⟨hpop.turns, hpop.numRecords, hpop.calls, hpop.merge⟩
    · exact spends_of_tasks rfl (Nat.le_refl _) rfl (Nat.zero_le _) nofun
  · exact w.reproceeds_spends _ _

theorem cancelSignalled_spends (w : World) (r : ChunkRange) (t : TaskId) (thenDelete : Bool) :
    w.Spends (w.cancelSignalled r t thenDelete) 3 := by
  have hcancel := w.turns_cancelTask t
  unfold cancelSignalled
  dsimp only
  split
  · have hjoined := (w.cancelTask t).cancelJoined_spends r thenDelete
    refine ⟨?_, hjoined.numRecords, hjoined.calls, hjoined.merge⟩
    have hturns := hjoined.turns
    omega
  · refine ⟨?_, Nat.le_refl _, rfl, fun f hf => ?_⟩
    · show (w.cancelTask t).turns + 2 ≤ w.turns + 3
      omega
    · obtain rfl := Progress.suspended.inj hf
      rfl

theorem waitEntered_spends (w : World) (timed : Bool) (returnWhen : ReturnWhen) :
    w.Spends (w.waitEntered timed returnWhen) 1 := by
  unfold waitEntered
  split
  · exact w.reproceeds_spends _ _
  · refine spends_of_tasks rfl (Nat.le_refl _) rfl (Nat.le_refl _) fun f hf => ?_
    obtain rfl := Progress.suspended.inj hf
    rfl

theorem waitCollects_spends (w : World) (allTasks : List TaskId) :
    w.Spends (w.waitCollects allTasks) 0 := by
  unfold waitCollects
  dsimp only
  split <;> exact spends_of_tasks rfl (Nat.le_refl _) rfl (Nat.le_refl _) nofun

theorem cleanupDone_spends (params : ChunkManagerParams) (w : World) (ofMerge : Bool) :
    w.Spends (w.cleanupDone params ofMerge) 0 :=
  spends_of_tasks rfl (Nat.zero_le _) rfl (Nat.le_refl _) nofun

theorem gathered_spends (params : ChunkManagerParams) (w : World) (goal : GatherGoal) :
    w.Spends (w.gathered params goal) (w.numRecords + 2) := by
  unfold gathered
  dsimp only
  cases goal with
  | cancelAll =>
      exact spends_of_tasks rfl (Nat.le_refl _) rfl (Nat.zero_le _) fun _ hf => by cases hf
  | cleanup deleteFiles ofMerge =>
      cases deleteFiles with
      | true =>
          refine spends_of_tasks rfl (Nat.le_refl _) rfl ?_ fun f hf => ?_
          · simp [Progress.budget, Frame.budget, numRecords, Dict.values]
          · obtain rfl := Progress.suspended.inj hf
            rfl
      | false =>
          exact spends_of_tasks rfl (Nat.zero_le _) rfl (Nat.zero_le _) fun _ hf => by cases hf

theorem removeListed_nil_spends (params : ChunkManagerParams) (w : World)
    (failed ofMerge : Bool) : w.Spends (w.removeListed params [] failed ofMerge) 0 := by
  unfold removeListed
  dsimp only
  split
  · exact w.reproceeds_spends _ _
  · exact cleanupDone_spends params w ofMerge

theorem removeListed_spends (params : ChunkManagerParams) (w : World) (files : List String)
    (failed ofMerge : Bool) :
    w.Spends (w.removeListed params files failed ofMerge) (files.length + 1) := by
  cases files with
  | nil => exact (removeListed_nil_spends params w failed ofMerge).mono (Nat.zero_le _)
  | cons file files =>
    refine spends_of_tasks rfl (Nat.le_refl _) rfl (Nat.le_refl _) fun f hf => ?_
    obtain rfl := Progress.suspended.inj hf
    rfl

/-- **A call that goes on** has less ahead of it. -/
theorem resume_spends {f : Frame} (hmerge : f.isMerge = false) {ok : Bool}
    {result : World × Progress} (h : w.resume params f ok = some result) :
    ∃ b, b < f.budget w.numRecords ∧ w.Spends result b := by
  unfold resume at h
  cases f with
  | cancelInit r t thenDelete =>
      dsimp only at h
      split at h
      · obtain rfl := Option.some.inj h
        exact ⟨3, Nat.lt_succ_self _, w.cancelSignalled_spends r t thenDelete⟩
      · cases h
  | cancelJoin r t thenDelete =>
      dsimp only at h
      split at h
      · obtain rfl := Option.some.inj h
        exact ⟨1, Nat.lt_succ_self _, w.cancelJoined_spends r thenDelete⟩
      · cases h
  | deleting name =>
      obtain rfl := Option.some.inj h
      exact ⟨0, Nat.zero_lt_one, spends_of_tasks rfl (Nat.le_refl _) rfl (Nat.le_refl _) nofun⟩
  | lockWait timed returnWhen =>
      dsimp only at h
      split at h
      · cases h
      · obtain rfl := Option.some.inj h
        exact ⟨1, Nat.lt_succ_self _, w.waitEntered_spends timed returnWhen⟩
  | waiting allTasks timed returnWhen =>
      dsimp only at h
      split at h
      · obtain rfl := Option.some.inj h
        exact ⟨0, Nat.zero_lt_one, w.waitCollects_spends allTasks⟩
      · cases h
  | gathering allTasks goal =>
      dsimp only at h
      split at h
      · obtain rfl := Option.some.inj h
        exact ⟨w.numRecords + 2, Nat.lt_succ_self _, gathered_spends params w goal⟩
      · cases h
  | listing files ofMerge =>
      dsimp only at h
      split at h
      · obtain rfl := Option.some.inj h
        have hlen := List.length_filter_le (fun f => (w.files.lookup f).isSome) files
        exact ⟨_, Nat.lt_succ_of_le (Nat.succ_le_succ hlen),
          removeListed_spends params w _ false ofMerge⟩
      · obtain rfl := Option.some.inj h
        exact ⟨0, Nat.succ_pos _, w.reproceeds_spends _ _⟩
  | removing files failed ofMerge =>
      cases files with
      | nil =>
          obtain rfl := Option.some.inj h
          exact ⟨0, Nat.succ_pos _, removeListed_nil_spends params w failed ofMerge⟩
      | cons file files =>
          dsimp only at h
          split at h
          · obtain rfl := Option.some.inj h
            have hremoved := removeListed_spends params
              { w with files := w.files.unlink file } files failed ofMerge
            exact ⟨files.length + 1, Nat.lt_succ_self _, hremoved.turns, hremoved.numRecords,
              hremoved.calls, hremoved.merge⟩
          · obtain rfl := Option.some.inj h
            exact ⟨files.length + 1, Nat.lt_succ_self _,
              removeListed_spends params w files true ofMerge⟩
  | merging stage cleanup => cases hmerge

theorem sum_budget_mono {n m : Nat} (h : n ≤ m) (calls : List Frame) :
    (calls.map (Frame.budget n)).sum ≤ (calls.map (Frame.budget m)).sum := by
  induction calls with
  | nil => exact Nat.le_refl _
  | cons f rest ih =>
      simp only [List.map_cons, List.sum_cons]
      exact Nat.add_le_add (f.budget_mono h) ih

/-- No `merge_chunks` is under way. -/
def NoMerge (w : World) : Prop := ∀ f ∈ w.calls, f.isMerge = false

instance (w : World) : Decidable w.NoMerge :=
  inferInstanceAs (Decidable (∀ f ∈ w.calls, _))

/-- **One step.** -/
theorem budget_step {e : Event} {out : List Returned} (hmerge : w.NoMerge)
    (hprogram : e.ofProgram = true) (h : SDownload.step params w e = some (w', out)) :
    w'.NoMerge ∧ w'.budget + 1 ≤ w.budget + e.cost := by
  cases e with
  | resume i ok =>
      obtain ⟨f, ⟨w₁, progress⟩, hf, hresume, heq⟩ := step_resume h
      obtain ⟨b, hb, hspends⟩ := resume_spends (hmerge f (List.mem_of_getElem? hf)) hresume
      have hcalls : w₁.calls = w.calls := hspends.calls
      have hturns : w₁.turns + progress.budget w₁.numRecords ≤ w.turns + b := hspends.turns
      have hmono := sum_budget_mono hspends.numRecords (w.calls.eraseIdx i)
      have hsum := sum_map_eraseIdx (f := Frame.budget w.numRecords) hf
      cases progress with
      | suspended f' =>
          obtain ⟨rfl, -⟩ := Prod.mk.inj heq
          refine ⟨fun g hg => ?_, ?_⟩
          · rcases List.mem_or_eq_of_mem_set (show g ∈ w₁.calls.set i f' from hg) with hg | rfl
            · exact hmerge g (hcalls ▸ hg)
            · exact hspends.merge g rfl
          · show w₁.turns + ((w₁.calls.set i f').map (Frame.budget w₁.numRecords)).sum + 1 ≤
              w.turns + (w.calls.map (Frame.budget w.numRecords)).sum + 0
            have hset := sum_map_set (f := Frame.budget w₁.numRecords) hf f'
            have herase := sum_map_eraseIdx (f := Frame.budget w₁.numRecords) hf
            have hnext : w₁.turns + f'.budget w₁.numRecords ≤ w.turns + b := hturns
            rw [hcalls]
            dsimp only at hmono hsum
            omega
      | returned rs =>
          obtain ⟨rfl, -⟩ := Prod.mk.inj heq
          refine ⟨fun g hg => ?_, ?_⟩
          · exact hmerge g (hcalls ▸ List.mem_of_mem_eraseIdx
              (show g ∈ w₁.calls.eraseIdx i from hg))
          · show w₁.turns + ((w₁.calls.eraseIdx i).map (Frame.budget w₁.numRecords)).sum + 1 ≤
              w.turns + (w.calls.map (Frame.budget w.numRecords)).sum + 0
            have hnext : w₁.turns ≤ w.turns + b := hturns
            rw [hcalls]
            dsimp only at hmono
            omega
  | task i e =>
      obtain ⟨hturn, -⟩ := step_task h
      have hev := taskStep_evolves hturn
      have hturns := turns_taskStep hturn
      refine ⟨fun f hf => hmerge f (hev.calls ▸ hf), ?_⟩
      have hrecords : w'.numRecords = w.numRecords := by
        rw [numRecords, numRecords, hev.chunksStats]
      rw [budget, budget, hev.calls, hrecords]
      omega
  | _ => cases hprogram

/-- **A manager that nobody calls comes to rest.** Whatever was called before, unless a
`merge_chunks` is under way: a run of turns is no longer than the budget and four turns for each
piece that arrives, and some run without a piece ends where nothing has a turn any more. -/
theorem comes_to_rest {files : Files} {recoveredStats : List Stats}
    (h : Reaches (SDownload.step params) (fun _ _ => True) (World.init files recoveredStats) w)
    (hmerge : w.NoMerge) :
    (∀ events last outs,
      replay (SDownload.step params) (fun _ e => e.ofProgram = true) w events = some (last, outs) →
        events.length ≤ w.budget + 4 * events.countP Event.isPiece) ∧
      ∃ events last outs, (∀ e ∈ events, e.isPiece = false) ∧
        replay (SDownload.step params) (fun _ e => e.ofProgram = true) w events =
          some (last, outs) ∧ last.AtRest params := by
  constructor
  · intro events last outs hreplay
    have hlen := length_add_le_of_replay NoMerge budget Event.cost
      (fun hs hok hmove => budget_step hs hok hmove) hmerge hreplay
    rw [sum_cost] at hlen
    omega
  · refine exists_replay_to (fun w => w.Alive ∧ w.NoMerge) budget
      (fun {s} hs hgoes => ?_) ⟨Alive.of_reaches h, hmerge⟩
    obtain ⟨e, hprogram, hpiece, -, hsome⟩ :=
      hs.1.exists_event params fun hrest => hgoes (hs.1.atRest_iff.mpr hrest)
    obtain ⟨⟨s', out⟩, hmove⟩ := Option.isSome_iff_exists.mp hsome
    obtain ⟨hmerge', hless⟩ := budget_step hs.2 hprogram hmove
    have hcost : e.cost = 0 := if_neg (by simp [hpiece])
    exact ⟨e, s', out, hpiece, hprogram, hmove, ⟨hs.1.step hmove, hmerge'⟩, by omega⟩

/-- A chunk downloads while two callers wait for it. -/
def waitedRun : List Event :=
  [.startChunk ⟨0, some 3⟩ none, .task 0 .begins, .wait false .allCompleted,
    .wait false .firstCompleted]

theorem comes_to_rest_waited :
    let params : ChunkManagerParams := ⟨"f", some 4, 1⟩
    let w := runTo (SDownload.step params) (fun _ _ => True) (World.init FileSystem.empty [])
      waitedRun
    w.budget = 13 ∧
      (∀ events last outs,
        replay (SDownload.step params) (fun _ e => e.ofProgram = true) w events =
            some (last, outs) →
          events.length ≤ w.budget + 4 * events.countP Event.isPiece) ∧
        ∃ events last outs, (∀ e ∈ events, e.isPiece = false) ∧
          replay (SDownload.step params) (fun _ e => e.ofProgram = true) w events =
            some (last, outs) ∧ last.AtRest params :=
  ⟨by decide, comes_to_rest (reaches_runTo _ _ _ _) (by decide)⟩

end World

end SDownload
