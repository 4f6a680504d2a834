import SDownload.Manager.Registry

/-!
# SDownload.Manager.Inversion

What one step can do to the tables: it registers one chunk, or it registers
nothing.

`Forgets` is what a step that registers nothing may do at most. Entries of the two
tables may go, none appears or is replaced, and tasks and records keep what they
are about. `step_cases` says that every other step is a `start_chunk` or a
`resize_chunk` that `Creates`.
-/

namespace SDownload

namespace World

/-- The second world is the first one further on, with nothing registered since. -/
structure Forgets (w w' : World) : Prop where
  chunksStats : ∀ {r s}, w'.chunksStats.get? r = some s → w.chunksStats.get? r = some s
  chunksTasks : ∀ {r i}, w'.chunksTasks.get? r = some i → w.chunksTasks.get? r = some i
  numTasks : w'.tasks.length = w.tasks.length
  numStats : w'.stats.length = w.stats.length
  task : ∀ (i : TaskId) (t : Task), w.tasks[i]? = some t →
    ∃ t', w'.tasks[i]? = some t' ∧ t.Later t'
  record : ∀ s, SameRecord (w.record s) (w'.record s)

theorem Evolves.forgets {w w' : World} (h : w.Evolves w') : w.Forgets w' where
  chunksStats := fun hs => h.chunksStats ▸ hs
  chunksTasks := fun hi => h.chunksTasks ▸ hi
  numTasks := h.numTasks
  numStats := h.numStats
  task := h.task
  record := h.record

theorem Forgets.refl (w : World) : w.Forgets w := (Evolves.refl w).forgets

theorem Forgets.trans {w w' w'' : World} (h : w.Forgets w') (h' : w'.Forgets w'') :
    w.Forgets w'' where
  chunksStats := fun hs => h.chunksStats (h'.chunksStats hs)
  chunksTasks := fun hi => h.chunksTasks (h'.chunksTasks hi)
  numTasks := h'.numTasks.trans h.numTasks
  numStats := h'.numStats.trans h.numStats
  task := by
    intro i t ht
    obtain ⟨t', ht', hl⟩ := h.task i t ht
    obtain ⟨t'', ht'', hl'⟩ := h'.task i t' ht'
    exact ⟨t'', ht'', hl.trans hl'⟩
  record := fun s => (h.record s).trans (h'.record s)

/-- Entries are dropped, and what is neither a table nor a task nor a record may be anything. -/
theorem forgets_of_tables {w w' : World} (htasks : w'.tasks = w.tasks) (hstats : w'.stats = w.stats)
    (hchunksStats : ∀ {r s}, w'.chunksStats.get? r = some s → w.chunksStats.get? r = some s)
    (hchunksTasks : ∀ {r i}, w'.chunksTasks.get? r = some i → w.chunksTasks.get? r = some i) :
    w.Forgets w' where
  chunksStats := hchunksStats
  chunksTasks := hchunksTasks
  numTasks := by rw [htasks]
  numStats := by rw [hstats]
  task := fun _ t ht => ⟨t, htasks ▸ ht, .refl t⟩
  record := by
    intro s
    unfold record
    rw [hstats]
    exact .refl _

theorem forgets_of_fields (w : World) (files : Files) (waitLocked cleanedUp : Bool)
    (calls : List Frame) : w.Forgets { w with files, waitLocked, cleanedUp, calls } :=
  forgets_of_tables rfl rfl id id

theorem eraseTask_forgets (w : World) (r : ChunkRange) :
    w.Forgets { w with chunksTasks := w.chunksTasks.erase r } :=
  forgets_of_tables rfl rfl id fun h => (Dict.get?_erase_eq_some.mp h).2

theorem eraseStats_forgets (w : World) (r : ChunkRange) :
    w.Forgets { w with chunksStats := w.chunksStats.erase r } :=
  forgets_of_tables rfl rfl (fun h => (Dict.get?_erase_eq_some.mp h).2) id

theorem clearTasks_forgets (w : World) : w.Forgets { w with chunksTasks := Dict.empty } := by
  refine forgets_of_tables rfl rfl id ?_
  intro r i h
  cases h

theorem clearStats_forgets (w : World) : w.Forgets { w with chunksStats := Dict.empty } := by
  refine forgets_of_tables rfl rfl ?_ id
  intro r s h
  cases h

/-! ### Each method -/

theorem popAndDelete_forgets (w : World) (r : ChunkRange) : w.Forgets (w.popAndDelete r).1 := by
  unfold popAndDelete
  split
  · exact .refl w
  · exact w.eraseStats_forgets r

theorem cancelReturns_forgets (w : World) (r : ChunkRange) (thenDelete cancelled : Bool) :
    w.Forgets (w.cancelReturns r thenDelete cancelled).1 := by
  unfold cancelReturns
  split
  · exact w.popAndDelete_forgets r
  · exact .refl w

theorem cancelJoined_forgets (w : World) (r : ChunkRange) (thenDelete : Bool) :
    w.Forgets (w.cancelJoined r thenDelete).1 := by
  unfold cancelJoined
  split
  · exact (w.eraseTask_forgets r).trans (cancelReturns_forgets _ r thenDelete true)
  · exact .refl w

theorem cancelSignalled_forgets (w : World) (r : ChunkRange) (t : TaskId) (thenDelete : Bool) :
    w.Forgets (w.cancelSignalled r t thenDelete).1 := by
  have hcancel := (w.cancelTask_evolves t).forgets
  unfold cancelSignalled
  dsimp only
  split
  · exact hcancel.trans (cancelJoined_forgets _ r thenDelete)
  · exact hcancel

theorem cancelChunk_forgets (w : World) (r : ChunkRange) (thenDelete : Bool) :
    w.Forgets (w.cancelChunk r thenDelete).1 := by
  unfold cancelChunk
  split
  · exact w.cancelReturns_forgets r thenDelete _
  · split
    · exact .refl w
    · split
      · split
        · exact w.cancelSignalled_forgets r _ thenDelete
        · exact .refl w
      · exact w.cancelReturns_forgets r thenDelete _

theorem deleteChunkData_forgets (w : World) (r : ChunkRange) :
    w.Forgets (w.deleteChunkData r).1 := by
  unfold deleteChunkData
  split
  · exact w.cancelChunk_forgets r true
  · exact w.popAndDelete_forgets r

theorem waitEntered_forgets (w : World) (timed : Bool) (returnWhen : ReturnWhen) :
    w.Forgets (w.waitEntered timed returnWhen).1 := by
  unfold waitEntered
  split
  · exact .refl w
  · exact w.forgets_of_fields _ _ _ _

theorem waitForChunks_forgets (w : World) (timed : Bool) (returnWhen : ReturnWhen) :
    w.Forgets (w.waitForChunks timed returnWhen).1 := by
  unfold waitForChunks
  split
  · exact .refl w
  · exact w.waitEntered_forgets timed returnWhen

theorem waitCollects_forgets (w : World) (allTasks : List TaskId) :
    w.Forgets (w.waitCollects allTasks).1 := by
  unfold waitCollects
  dsimp only
  split
  · exact w.forgets_of_fields _ _ _ _
  · refine forgets_of_tables rfl rfl id ?_
    intro r i h
    rw [Dict.get?_foldl_erase] at h
    split at h
    · cases h
    · exact h

variable (params : ChunkManagerParams)

theorem cleanupDone_forgets (w : World) (ofMerge : Bool) :
    w.Forgets (w.cleanupDone params ofMerge).1 :=
  w.clearStats_forgets

theorem gathered_forgets (w : World) (goal : GatherGoal) :
    w.Forgets (w.gathered params goal).1 := by
  have hclear := w.clearTasks_forgets
  unfold gathered
  dsimp only
  split
  · exact hclear
  · exact hclear
  · exact hclear.trans (cleanupDone_forgets params _ _)

theorem cancelAllChunks_forgets (w : World) (goal : GatherGoal) :
    w.Forgets (w.cancelAllChunks params goal).1 := by
  have hcancel := (cancelEntries_evolves w.chunksTasks.entries w).forgets
  unfold cancelAllChunks
  dsimp only
  split
  · exact hcancel.trans (gathered_forgets params _ goal)
  · exact hcancel

theorem cleanup_forgets (w : World) (deleteFiles ofMerge : Bool) :
    w.Forgets (w.cleanup params deleteFiles ofMerge).1 := by
  unfold World.cleanup
  split
  · exact .refl w
  · exact (w.forgets_of_fields w.files w.waitLocked true w.calls).trans
      (cancelAllChunks_forgets params _ _)

theorem removeListed_forgets (w : World) (files : List String) (failed ofMerge : Bool) :
    w.Forgets (w.removeListed params files failed ofMerge).1 := by
  unfold removeListed
  split
  · split
    · exact .refl w
    · exact cleanupDone_forgets params w ofMerge
  · exact .refl w

theorem mergeChunks_forgets (w : World) (cleanup : Bool) :
    w.Forgets (w.mergeChunks params cleanup).1 := by
  unfold mergeChunks
  split <;> exact .refl w

theorem mergeRound_forgets (w : World) (stage : MergeStage) (cleanup ok : Bool) :
    w.Forgets (w.mergeRound params stage cleanup ok).1 := by
  have hfiles := fun files => w.forgets_of_fields files w.waitLocked w.cleanedUp w.calls
  unfold mergeRound
  split
  · exact hfiles _
  · exact hfiles _
  · split
    · exact (hfiles _).trans (cleanup_forgets params _ true true)
    · exact hfiles _

theorem resume_forgets {w : World} {frame : Frame} {ok : Bool} {result : World × Progress}
    (h : w.resume params frame ok = some result) : w.Forgets result.1 := by
  unfold resume at h
  cases frame with
  | cancelInit r t thenDelete =>
      dsimp only at h
      split at h
      · exact Option.some.inj h ▸ w.cancelSignalled_forgets r t thenDelete
      · cases h
  | cancelJoin r t thenDelete =>
      dsimp only at h
      split at h
      · exact Option.some.inj h ▸ w.cancelJoined_forgets r thenDelete
      · cases h
  | deleting name => exact Option.some.inj h ▸ w.forgets_of_fields _ _ _ _
  | lockWait timed returnWhen =>
      dsimp only at h
      split at h
      · cases h
      · exact Option.some.inj h ▸ w.waitEntered_forgets timed returnWhen
  | waiting allTasks timed returnWhen =>
      dsimp only at h
      split at h
      · exact Option.some.inj h ▸ w.waitCollects_forgets allTasks
      · cases h
  | gathering allTasks goal =>
      dsimp only at h
      split at h
      · exact Option.some.inj h ▸ gathered_forgets params w goal
      · cases h
  | listing files ofMerge =>
      dsimp only at h
      split at h
      · exact Option.some.inj h ▸ removeListed_forgets params w _ false ofMerge
      · exact Option.some.inj h ▸ .refl w
  | removing files failed ofMerge =>
      cases files with
      | nil => exact Option.some.inj h ▸ removeListed_forgets params w [] failed ofMerge
      | cons file files =>
          dsimp only at h
          split at h
          · have hfiles := w.forgets_of_fields (w.files.unlink file) w.waitLocked w.cleanedUp
              w.calls
            exact Option.some.inj h ▸
              hfiles.trans (removeListed_forgets params _ files failed ofMerge)
          · exact Option.some.inj h ▸ removeListed_forgets params w files true ofMerge
  | merging stage cleanup => exact Option.some.inj h ▸ mergeRound_forgets params w stage cleanup ok

/-! ### Each step -/

theorem called_forgets {w : World} {result : World × Progress} (h : w.Forgets result.1) :
    w.Forgets (called result).1 := by
  obtain ⟨w', progress⟩ := result
  cases progress with
  | suspended frame => exact Forgets.trans h (w'.forgets_of_fields _ _ _ _)
  | returned replies => exact h

theorem resumed_forgets {w : World} {result : World × Progress} (i : Nat)
    (h : w.Forgets result.1) : w.Forgets (resumed i result).1 := by
  obtain ⟨w', progress⟩ := result
  cases progress with
  | suspended frame => exact Forgets.trans h (w'.forgets_of_fields _ _ _ _)
  | returned replies => exact Forgets.trans h (w'.forgets_of_fields _ _ _ _)

end World

/-- The range a call registers, if it does, and what the new task runs. -/
def Event.registering (w : World) : Event → Option (ChunkRange × Job)
  | .startChunk r _ => if w.Starts r then some (r, .download) else none
  | .resizeChunk currentRange newRange =>
      if w.Resizes currentRange newRange then
        (w.chunksStats.get? currentRange).map fun a =>
          (newRange, .succession a (w.chunksTasks.get? currentRange))
      else none
  | _ => none

/-- **Inversion.** A step registers what `Event.registering` says, or nothing. -/
theorem step_cases {params : ChunkManagerParams} {w w' : World} {e : Event} {out : List Returned}
    (h : step params w e = some (w', out)) :
    (∃ r job, e.registering w = some (r, job) ∧ w.Creates params w' r job) ∨
      e.registering w = none ∧ w.Forgets w' := by
  cases e with
  | startChunk r speed =>
      obtain ⟨rfl, -⟩ := Prod.mk.inj (Option.some.inj h)
      rcases World.startChunk_cases params w r speed with ⟨hsame, hold⟩ | ⟨hnew, hkey, hcreates⟩
      · have hnot : ¬ w.Starts r := by
          rintro ⟨hnew, hkey⟩
          rcases hold with hcompleted | hmem
          · rw [hnew] at hcompleted
            cases hcompleted
          · exact hkey hmem
        rw [hsame]
        exact Or.inr ⟨if_neg hnot, .refl w⟩
      · exact Or.inl ⟨r, .download, if_pos ⟨hnew, hkey⟩, hcreates⟩
  | resizeChunk currentRange newRange =>
      obtain ⟨e, herror, rfl, -⟩ | ⟨hok, -⟩ := step_resizeChunk h
      · refine Or.inr ⟨if_neg fun hresizes => ?_, .refl w'⟩
        obtain ⟨w₁, a, hok, -⟩ := World.resizeChunk_of_resizes params hresizes
        rw [hok] at herror
        cases herror
      · rcases World.resizeChunk_cases hok with ⟨rfl, hnot⟩ | ⟨hresizes, a, ha, hcreates⟩
        · exact Or.inr ⟨if_neg hnot, .refl w'⟩
        · refine Or.inl ⟨newRange, _, ?_, hcreates⟩
          show (if _ then _ else _) = _
          rw [if_pos hresizes, ha]
          rfl
  | cancelChunk r =>
      obtain ⟨rfl, -⟩ := Prod.mk.inj (Option.some.inj h)
      exact Or.inr ⟨rfl, World.called_forgets (w.cancelChunk_forgets r false)⟩
  | deleteChunkData r =>
      obtain ⟨rfl, -⟩ := Prod.mk.inj (Option.some.inj h)
      exact Or.inr ⟨rfl, World.called_forgets (w.deleteChunkData_forgets r)⟩
  | wait timed returnWhen =>
      obtain ⟨rfl, -⟩ := Prod.mk.inj (Option.some.inj h)
      exact Or.inr ⟨rfl, World.called_forgets (w.waitForChunks_forgets timed returnWhen)⟩
  | cancelAllChunks =>
      obtain ⟨rfl, -⟩ := Prod.mk.inj (Option.some.inj h)
      exact Or.inr ⟨rfl, World.called_forgets (World.cancelAllChunks_forgets params w .cancelAll)⟩
  | cleanup deleteFiles =>
      obtain ⟨rfl, -⟩ := Prod.mk.inj (Option.some.inj h)
      exact Or.inr ⟨rfl, World.called_forgets (World.cleanup_forgets params w deleteFiles false)⟩
  | mergeChunks cleanup =>
      obtain ⟨rfl, -⟩ := Prod.mk.inj (Option.some.inj h)
      exact Or.inr ⟨rfl, World.called_forgets (World.mergeChunks_forgets params w cleanup)⟩
  | resume i ok =>
      obtain ⟨f, result, hf, hresume, heq⟩ := step_resume h
      have hresult := World.resumed_forgets i (World.resume_forgets params hresume)
      rw [heq] at hresult
      exact Or.inr ⟨rfl, hresult⟩
  | task i e =>
      obtain ⟨hturn, -⟩ := step_task h
      exact Or.inr ⟨rfl, (World.taskStep_evolves hturn).forgets⟩

end SDownload
