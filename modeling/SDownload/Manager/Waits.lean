import SDownload.Manager.Operations

/-!
# SDownload.Manager.Waits

What a call of `_wait_for_chunks` does.

Called or going on, it queues for the lock, enters it and waits for the tasks that
are registered then, or collects those that are done (`WaitTurn`). It looks at
tasks and records and drops entries of `_chunks_tasks`; nothing else of the manager
changes, and it is suspended in a wait again or returns what a wait returns.
-/

namespace SDownload

/-- The suspended calls of the waits. -/
def Frame.ofWait : Frame → Bool
  | .lockWait .. | .waiting .. => true
  | _ => false

namespace World

variable {params : ChunkManagerParams} {w w' : World}

/-! ### A turn of a wait -/

/-- A wait that is called or goes on. -/
inductive WaitTurn (w : World) : World × Progress → Prop
  | queues (timed : Bool) (returnWhen : ReturnWhen) :
      WaitTurn w (w, .suspended (.lockWait timed returnWhen))
  | enters (timed : Bool) (returnWhen : ReturnWhen) :
      WaitTurn w (w.waitEntered timed returnWhen)
  | collects (allTasks : List TaskId) : WaitTurn w (w.waitCollects allTasks)

theorem waitForChunks_turn (w : World) (timed : Bool) (returnWhen : ReturnWhen) :
    w.WaitTurn (w.waitForChunks timed returnWhen) := by
  unfold waitForChunks
  split
  · exact .queues timed returnWhen
  · exact .enters timed returnWhen

theorem resume_turn {f : Frame} (hf : f.ofWait = true) {ok : Bool} {result : World × Progress}
    (h : w.resume params f ok = some result) : w.WaitTurn result := by
  cases f with
  | lockWait timed returnWhen =>
      unfold World.resume at h
      dsimp only at h
      split at h
      · cases h
      · obtain rfl := Option.some.inj h
        exact .enters timed returnWhen
  | waiting allTasks timed returnWhen =>
      unfold World.resume at h
      dsimp only at h
      split at h
      · obtain rfl := Option.some.inj h
        exact .collects allTasks
      · cases h
  | _ => cases hf

/-- It returns what a wait returns. -/
theorem WaitTurn.replies {result : World × Progress} (h : w.WaitTurn result) (i : Nat) :
    (∀ r ∈ (called result).2, r.operation = .wait) ∧
      ∀ r ∈ (resumed i result).2, r.operation = .wait := by
  have hreturned : ∀ rs, result.2 = .returned rs → ∀ r ∈ rs, r.operation = .wait := by
    cases h with
    | queues timed returnWhen => exact nofun
    | enters timed returnWhen =>
        unfold waitEntered
        split
        · rintro _ ⟨rfl⟩ r hr
          rw [List.mem_singleton.mp hr]
        · exact nofun
    | collects allTasks =>
        unfold waitCollects
        dsimp only
        split <;>
        · rintro _ ⟨rfl⟩ r hr
          rw [List.mem_singleton.mp hr]
  obtain ⟨w', progress⟩ := result
  cases progress with
  | suspended f =>
      exact ⟨fun r hr => absurd hr List.not_mem_nil, fun r hr => absurd hr List.not_mem_nil⟩
  | returned rs => exact ⟨hreturned rs rfl, hreturned rs rfl⟩

/-! ### What it changes -/

/-- The second world has lost entries of `_chunks_tasks` at most; calls and the lock apart, it is
the first one. -/
structure Collects (w w' : World) : Prop where
  files : w'.files = w.files
  stats : w'.stats = w.stats
  tasks : w'.tasks = w.tasks
  chunksStats : w'.chunksStats = w.chunksStats
  chunksTasks : ∀ r i, w'.chunksTasks.get? r = some i → w.chunksTasks.get? r = some i

/-- A wait collects, and is suspended at most in a wait. -/
structure WaitOk (w : World) (result : World × Progress) : Prop where
  collects : w.Collects result.1
  calls : result.1.calls = w.calls
  frame : ∀ f, result.2 = .suspended f → f.ofWait = true

theorem WaitTurn.ok {result : World × Progress} (h : w.WaitTurn result) : w.WaitOk result := by
  have hsame : w.Collects w := ⟨rfl, rfl, rfl, rfl, fun _ _ => id⟩
  cases h with
  | queues timed returnWhen =>
      refine ⟨hsame, rfl, ?_⟩
      rintro _ ⟨rfl⟩
      rfl
  | enters timed returnWhen =>
      unfold waitEntered
      split
      · exact ⟨hsame, rfl, nofun⟩
      · refine ⟨⟨rfl, rfl, rfl, rfl, fun _ _ => id⟩, rfl, ?_⟩
        rintro _ ⟨rfl⟩
        rfl
  | collects allTasks =>
      unfold waitCollects
      dsimp only
      split
      · exact ⟨⟨rfl, rfl, rfl, rfl, fun _ _ => id⟩, rfl, nofun⟩
      · refine ⟨⟨rfl, rfl, rfl, rfl, fun r i hi => ?_⟩, rfl, nofun⟩
        rw [Dict.get?_foldl_erase] at hi
        split at hi
        · cases hi
        · exact hi

/-- A wait that was called or went on. -/
theorem WaitOk.step {result : World × Progress} (h : w.WaitOk result)
    (hwaits : ∀ f ∈ w.calls, f.ofWait = true) (i : Nat) :
    (w.Collects (called result).1 ∧ ∀ f ∈ (called result).1.calls, f.ofWait = true) ∧
      w.Collects (resumed i result).1 ∧ ∀ f ∈ (resumed i result).1.calls, f.ofWait = true := by
  obtain ⟨w', progress⟩ := result
  obtain ⟨hfiles, hstats, htasks, hchunksStats, hchunksTasks⟩ := h.collects
  have hcalls : ∀ f ∈ w'.calls, f.ofWait = true := by
    rw [show w'.calls = w.calls from h.calls]
    exact hwaits
  cases progress with
  | suspended f =>
      have hf := h.frame f rfl
      refine ⟨⟨⟨hfiles, hstats, htasks, hchunksStats, hchunksTasks⟩, fun g hg => ?_⟩,
        ⟨hfiles, hstats, htasks, hchunksStats, hchunksTasks⟩, fun g hg => ?_⟩
      · rcases List.mem_append.mp hg with hg | hg
        · exact hcalls g hg
        · rw [List.mem_singleton.mp hg]
          exact hf
      · rcases List.mem_or_eq_of_mem_set hg with hg | rfl
        · exact hcalls g hg
        · exact hf
  | returned rs =>
      exact ⟨⟨h.collects, hcalls⟩, ⟨hfiles, hstats, htasks, hchunksStats, hchunksTasks⟩,
        fun g hg => hcalls g (List.mem_of_mem_eraseIdx hg)⟩

end World

end SDownload
