import SDownload.Lib.Except
import SDownload.Lib.Run
import SDownload.Manager.Evolution

/-!
# SDownload.Manager.Tables

When the two tables of a manager agree: every key of `_chunks_tasks` is one of
`_chunks_stats`, and no look-up or deletion of a method misses its key.

Two places break this, and only these. `delete_chunk_data` drops the record of a
chunk that has ended but has not been collected, and leaves its task in the
table; `cancel_chunk` deletes an entry that somebody else may have removed while
it awaited the task. `KeepsTables` says of a step that it is neither, and
`tables_agree_iff` that this is exactly what keeps the tables together.
-/

namespace SDownload

namespace World

/-- Every key of `_chunks_tasks` is a key of `_chunks_stats`. -/
def TablesAgree (w : World) : Prop :=
  ∀ r ∈ w.chunksTasks.keys, r ∈ w.chunksStats.keys

/-- `cancel_chunk` would cancel the chunk: its record is in one of the three active states. -/
def Cancellable (w : World) (r : ChunkRange) : Prop :=
  (w.statsOf r).any
    (fun s => s.status ∈ [EDownloadStatus.downloading, .pending, .awaitingSuccession]) = true

instance (w : World) (r : ChunkRange) : Decidable (w.Cancellable r) :=
  inferInstanceAs (Decidable (_ = true))

end World

/-- The suspended calls of `cancel_chunk`, `delete_chunk_data` and the waits. -/
def Frame.ofChunks : Frame → Bool
  | .cancelInit .. | .cancelJoin .. | .deleting _ | .lockWait .. | .waiting .. => true
  | .gathering .. | .listing .. | .removing .. | .merging .. => false

/-- The steps of the methods that handle single chunks, and of the tasks. -/
def Event.ofChunks : Event → Bool
  | .cancelAllChunks | .cleanup _ | .mergeChunks _ => false
  | _ => true

/-- A step that is neither of the two that break the tables. -/
def KeepsTables (w : World) : Event → Prop
  | .deleteChunkData r => r ∈ w.chunksTasks.keys → w.Cancellable r
  | .resume i _ =>
      match w.calls[i]? with
      | some (.cancelInit r t _) | some (.cancelJoin r t _) =>
          w.TaskDone t → r ∈ w.chunksTasks.keys
      | _ => True
  | _ => True

instance (w : World) (e : Event) : Decidable (KeepsTables w e) := by
  delta KeepsTables
  induction e using Event.casesOn with
  | resume i ok =>
      dsimp only
      generalize w.calls[i]? = frame
      induction frame using Option.casesOn with
      | none => infer_instance
      | some frame => induction frame using Frame.casesOn <;> infer_instance
  | _ => infer_instance

/-- None of these returns is a missed key. -/
def NoKeyError (replies : List Returned) : Prop :=
  ∀ op r, (⟨op, .raised (.keyError r)⟩ : Returned) ∉ replies

namespace World

/-- A method of single chunks that keeps the tables together. -/
structure KeepsAgreement (w : World) (result : World × Progress) : Prop where
  tables : result.1.TablesAgree
  calls : result.1.calls = w.calls
  frame : ∀ f, result.2 = .suspended f → f.ofChunks = true
  replies : ∀ rs, result.2 = .returned rs → NoKeyError rs

theorem KeepsAgreement.suspended {w w' : World} {f : Frame} (h : w'.TablesAgree)
    (hcalls : w'.calls = w.calls) (hf : f.ofChunks = true) :
    w.KeepsAgreement (w', .suspended f) where
  tables := h
  calls := hcalls
  frame := by
    rintro _ ⟨rfl⟩
    exact hf
  replies := by
    rintro _ ⟨⟩

theorem KeepsAgreement.returned {w w' : World} {op : Operation} {reply : Reply}
    (h : w'.TablesAgree) (hcalls : w'.calls = w.calls) (hreply : ∀ e, reply ≠ .raised e) :
    w.KeepsAgreement (w', .returned [⟨op, reply⟩]) where
  tables := h
  calls := hcalls
  frame := by
    rintro _ ⟨⟩
  replies := by
    rintro _ ⟨rfl⟩ op' r hmem
    obtain ⟨-, h⟩ := Returned.mk.inj (List.mem_singleton.mp hmem)
    exact hreply _ h.symm

/-! ### Each method -/

theorem Evolves.tablesAgree {w w' : World} (h : w.Evolves w') (ht : w.TablesAgree) :
    w'.TablesAgree := by
  unfold TablesAgree
  rw [h.chunksStats, h.chunksTasks]
  exact ht

theorem TablesAgree.creates {params : ChunkManagerParams} {w w' : World} {r : ChunkRange}
    {job : Job} (ht : w.TablesAgree) (h : w.Creates params w' r job) : w'.TablesAgree := by
  intro r' hr'
  rw [h.chunksTasks, Dict.mem_keys_set] at hr'
  rw [h.chunksStats, Dict.mem_keys_set]
  exact hr'.imp_right (ht r')

/-- Forgetting the record of a chunk without a task. -/
theorem popAndDelete_agrees {w : World} {r : ChunkRange} (ht : w.TablesAgree)
    (hr : r ∉ w.chunksTasks.keys) : w.KeepsAgreement (w.popAndDelete r) := by
  unfold popAndDelete
  split
  · exact .returned ht rfl (by simp)
  · refine .suspended (fun r' hr' => ?_) rfl rfl
    have hne : r' ≠ r := fun he => hr (he ▸ hr')
    exact Dict.mem_keys_erase.mpr ⟨hne, ht r' hr'⟩

theorem cancelReturns_agrees {w : World} {r : ChunkRange} {thenDelete : Bool} (b : Bool)
    (ht : w.TablesAgree) (hr : thenDelete = true → r ∉ w.chunksTasks.keys) :
    w.KeepsAgreement (w.cancelReturns r thenDelete b) := by
  unfold cancelReturns
  split
  · rename_i hdelete
    exact popAndDelete_agrees ht (hr hdelete)
  · exact .returned ht rfl (by simp)

/-- `cancel_chunk` deletes an entry that is there. -/
theorem cancelJoined_agrees {w : World} {r : ChunkRange} (thenDelete : Bool)
    (ht : w.TablesAgree) (hr : r ∈ w.chunksTasks.keys) :
    w.KeepsAgreement (w.cancelJoined r thenDelete) := by
  unfold cancelJoined
  rw [if_pos hr]
  have hagree : TablesAgree { w with chunksTasks := w.chunksTasks.erase r } := fun r' hr' =>
    ht r' (Dict.mem_keys_erase.mp hr').2
  have hgone : thenDelete = true → r ∉ (w.chunksTasks.erase r).keys := fun _ hmem =>
    (Dict.mem_keys_erase.mp hmem).1 rfl
  obtain ⟨h1, h2, h3, h4⟩ := cancelReturns_agrees true hagree hgone
  exact ⟨h1, h2, h3, h4⟩

theorem cancelSignalled_agrees {w : World} {r : ChunkRange} {t : TaskId} (thenDelete : Bool)
    (ht : w.TablesAgree) (hr : w.TaskDone t → r ∈ w.chunksTasks.keys) :
    w.KeepsAgreement (w.cancelSignalled r t thenDelete) := by
  have hev := w.cancelTask_evolves t
  unfold cancelSignalled
  dsimp only
  split
  · rename_i hdone
    have hdone' : w.TaskDone t := (w.taskDone_cancelTask t t).mp hdone
    obtain ⟨h1, h2, h3, h4⟩ := cancelJoined_agrees thenDelete (hev.tablesAgree ht) (hr hdone')
    exact ⟨h1, h2, h3, h4⟩
  · exact .suspended (hev.tablesAgree ht) rfl rfl

theorem cancelChunk_agrees {w : World} {r : ChunkRange} {thenDelete : Bool} (ht : w.TablesAgree)
    (hr : thenDelete = true → r ∈ w.chunksTasks.keys → w.Cancellable r) :
    w.KeepsAgreement (w.cancelChunk r thenDelete) := by
  unfold cancelChunk
  split
  · rename_i hnone
    exact cancelReturns_agrees _ ht fun _ => Dict.get?_eq_none_iff.mp hnone
  · rename_i t hsome
    have hkey : r ∈ w.chunksTasks.keys := Dict.mem_keys_iff.mpr ⟨t, hsome⟩
    split
    · rename_i hstats
      obtain ⟨s, hs⟩ := Dict.mem_keys_iff.mp (ht r hkey)
      rw [statsOf, hs] at hstats
      cases hstats
    · rename_i stats hstats
      split
      · split
        · exact cancelSignalled_agrees thenDelete ht fun _ => hkey
        · exact .suspended ht rfl rfl
      · rename_i hinactive
        refine cancelReturns_agrees _ ht fun hdelete => ?_
        have hactive := hr hdelete hkey
        unfold Cancellable at hactive
        rw [hstats] at hactive
        exact absurd (of_decide_eq_true hactive) hinactive

theorem deleteChunkData_agrees {w : World} {r : ChunkRange} (ht : w.TablesAgree)
    (hr : r ∈ w.chunksTasks.keys → w.Cancellable r) : w.KeepsAgreement (w.deleteChunkData r) := by
  unfold deleteChunkData
  split
  · exact cancelChunk_agrees ht fun _ => hr
  · rename_i hkey
    exact popAndDelete_agrees ht hkey

theorem waitEntered_agrees {w : World} (timed : Bool) (returnWhen : ReturnWhen)
    (ht : w.TablesAgree) : w.KeepsAgreement (w.waitEntered timed returnWhen) := by
  unfold waitEntered
  split
  · exact .returned ht rfl (by simp)
  · exact .suspended ht rfl rfl

theorem waitForChunks_agrees {w : World} (timed : Bool) (returnWhen : ReturnWhen)
    (ht : w.TablesAgree) : w.KeepsAgreement (w.waitForChunks timed returnWhen) := by
  unfold waitForChunks
  split
  · exact .suspended ht rfl rfl
  · exact waitEntered_agrees timed returnWhen ht

/-- Where the tables agree, a wait finds the record of every task it collects. -/
theorem waitCollects_agrees {w : World} (allTasks : List TaskId) (ht : w.TablesAgree) :
    w.KeepsAgreement (w.waitCollects allTasks) := by
  unfold waitCollects
  dsimp only
  split
  · rename_i e herror
    obtain ⟨⟨r, t⟩, hmem, hfail⟩ := Except.exists_of_mapM_error herror
    have hentry : w.chunksTasks.get? r = some t :=
      Dict.get?_eq_some_iff.mpr (List.mem_of_mem_filter hmem)
    obtain ⟨s, hs⟩ := Dict.mem_keys_iff.mp (ht r (Dict.mem_keys_iff.mpr ⟨t, hentry⟩))
    unfold finishedStats at hfail
    rw [show World.chunksStats _ = w.chunksStats from rfl, hs] at hfail
    cases hfail
  · refine .returned (fun r hr => ?_) rfl (by simp)
    obtain ⟨t, hget⟩ := Dict.mem_keys_iff.mp hr
    rw [Dict.get?_foldl_erase] at hget
    split at hget
    · cases hget
    · exact ht r (Dict.mem_keys_iff.mpr ⟨t, hget⟩)

/-! ### Each step -/

/-- The tables agree, and only calls of the methods of single chunks are suspended. -/
structure ChunkCalls (w : World) : Prop where
  tables : w.TablesAgree
  frames : ∀ f ∈ w.calls, f.ofChunks = true

theorem ChunkCalls.called {w : World} {result : World × Progress} (h : w.ChunkCalls)
    (hkeeps : w.KeepsAgreement result) :
    (called result).1.ChunkCalls ∧ NoKeyError (called result).2 := by
  obtain ⟨w', progress⟩ := result
  cases progress with
  | suspended f =>
      refine ⟨⟨hkeeps.tables, fun f' hf' => ?_⟩, fun _ _ => List.not_mem_nil⟩
      rcases List.mem_append.mp hf' with hf' | hf'
      · rw [hkeeps.calls] at hf'
        exact h.frames f' hf'
      · obtain rfl := List.mem_singleton.mp hf'
        exact hkeeps.frame _ rfl
  | returned rs =>
      refine ⟨⟨hkeeps.tables, fun f' hf' => ?_⟩, hkeeps.replies _ rfl⟩
      have hf'' : f' ∈ w'.calls := hf'
      rw [hkeeps.calls] at hf''
      exact h.frames f' hf''

theorem ChunkCalls.resumed {w : World} {result : World × Progress} (i : Nat) (h : w.ChunkCalls)
    (hkeeps : w.KeepsAgreement result) :
    (resumed i result).1.ChunkCalls ∧ NoKeyError (resumed i result).2 := by
  obtain ⟨w', progress⟩ := result
  cases progress with
  | suspended f =>
      refine ⟨⟨hkeeps.tables, fun f' hf' => ?_⟩, fun _ _ => List.not_mem_nil⟩
      rcases List.mem_or_eq_of_mem_set hf' with hf' | rfl
      · rw [hkeeps.calls] at hf'
        exact h.frames f' hf'
      · exact hkeeps.frame _ rfl
  | returned rs =>
      refine ⟨⟨hkeeps.tables, fun f' hf' => ?_⟩, hkeeps.replies _ rfl⟩
      have hf'' := List.mem_of_mem_eraseIdx hf'
      rw [hkeeps.calls] at hf''
      exact h.frames f' hf''

/-- A suspended call that goes on keeps the tables together. -/
theorem ChunkCalls.resume {params : ChunkManagerParams} {w : World} {i : Nat} {f : Frame}
    {ok : Bool} {result : World × Progress} (h : w.ChunkCalls) (hf : w.calls[i]? = some f)
    (hkeeps : KeepsTables w (.resume i ok)) (hresume : w.resume params f ok = some result) :
    w.KeepsAgreement result := by
  unfold KeepsTables at hkeeps
  simp only [hf] at hkeeps
  unfold World.resume at hresume
  cases f with
  | cancelInit r t thenDelete =>
      dsimp only at hresume
      split at hresume
      · obtain rfl := Option.some.inj hresume
        exact cancelSignalled_agrees thenDelete h.tables hkeeps
      · cases hresume
  | cancelJoin r t thenDelete =>
      dsimp only at hresume
      split at hresume
      · rename_i hdone
        obtain rfl := Option.some.inj hresume
        exact cancelJoined_agrees thenDelete h.tables (hkeeps hdone)
      · cases hresume
  | deleting name =>
      obtain rfl := Option.some.inj hresume
      exact .returned h.tables rfl (by simp)
  | lockWait timed returnWhen =>
      dsimp only at hresume
      split at hresume
      · cases hresume
      · obtain rfl := Option.some.inj hresume
        exact waitEntered_agrees timed returnWhen h.tables
  | waiting allTasks timed returnWhen =>
      dsimp only at hresume
      split at hresume
      · obtain rfl := Option.some.inj hresume
        exact waitCollects_agrees allTasks h.tables
      · cases hresume
  | gathering allTasks goal => cases h.frames _ (List.mem_of_getElem? hf)
  | listing files ofMerge => cases h.frames _ (List.mem_of_getElem? hf)
  | removing files failed ofMerge => cases h.frames _ (List.mem_of_getElem? hf)
  | merging stage cleanup => cases h.frames _ (List.mem_of_getElem? hf)

theorem resizeChunk_ne_keyError {params : ChunkManagerParams} {w : World}
    {currentRange newRange : ChunkRange} (r : ChunkRange) :
    w.resizeChunk params currentRange newRange ≠ .error (.keyError r) := by
  intro h
  unfold resizeChunk at h
  split at h
  · cases h
  split at h
  · split at h <;> cases h
  split at h
  · cases h
  dsimp only at h
  split at h <;> cases h

theorem ChunkCalls.evolves {w w' : World} (h : w.ChunkCalls) (hev : w.Evolves w') :
    w'.ChunkCalls :=
  ⟨hev.tablesAgree h.tables, by rw [hev.calls]; exact h.frames⟩

/-- A step that keeps the condition keeps the tables together and misses no key. -/
theorem ChunkCalls.step {params : ChunkManagerParams} {w w' : World} {e : Event}
    {out : List Returned} (h : w.ChunkCalls) (he : e.ofChunks = true) (hkeeps : KeepsTables w e)
    (hstep : step params w e = some (w', out)) : w'.ChunkCalls ∧ NoKeyError out := by
  cases e with
  | startChunk r speed =>
      obtain ⟨rfl, rfl⟩ := Prod.mk.inj (Option.some.inj hstep)
      refine ⟨?_, by simp [NoKeyError]⟩
      rcases startChunk_cases params w r speed with ⟨hsame, -⟩ | ⟨-, -, hcreates⟩
      · rw [hsame]
        exact h
      · exact ⟨h.tables.creates hcreates, by rw [hcreates.calls]; exact h.frames⟩
  | resizeChunk currentRange newRange =>
      obtain ⟨e, herror, rfl, rfl⟩ | ⟨hok, rfl⟩ := step_resizeChunk hstep
      · refine ⟨h, fun op r hmem => ?_⟩
        obtain ⟨-, he⟩ := Returned.mk.inj (List.mem_singleton.mp hmem)
        exact resizeChunk_ne_keyError r (herror.trans (congrArg _ (Reply.raised.inj he).symm))
      · refine ⟨?_, by simp [NoKeyError]⟩
        rcases resizeChunk_cases hok with ⟨rfl, -⟩ | ⟨-, a, -, hcreates⟩
        · exact h
        · exact ⟨h.tables.creates hcreates, by rw [hcreates.calls]; exact h.frames⟩
  | cancelChunk r =>
      obtain ⟨rfl, rfl⟩ := Prod.mk.inj (Option.some.inj hstep)
      exact h.called (cancelChunk_agrees h.tables (by simp))
  | deleteChunkData r =>
      obtain ⟨rfl, rfl⟩ := Prod.mk.inj (Option.some.inj hstep)
      exact h.called (deleteChunkData_agrees h.tables hkeeps)
  | wait timed returnWhen =>
      obtain ⟨rfl, rfl⟩ := Prod.mk.inj (Option.some.inj hstep)
      exact h.called (waitForChunks_agrees timed returnWhen h.tables)
  | cancelAllChunks => cases he
  | cleanup deleteFiles => cases he
  | mergeChunks cleanup => cases he
  | resume i ok =>
      obtain ⟨f, result, hf, hresume, heq⟩ := step_resume hstep
      have hresult := h.resumed i (h.resume hf hkeeps hresume)
      rw [heq] at hresult
      exact hresult
  | task i e =>
      obtain ⟨hturn, rfl⟩ := step_task hstep
      exact ⟨h.evolves (taskStep_evolves hturn), fun _ _ => List.not_mem_nil⟩

theorem cancelRaises_misses (w : World) (r : ChunkRange) (thenDelete : Bool) (i : Nat) :
    ¬ NoKeyError (SDownload.resumed i (w.cancelRaises r thenDelete)).2 :=
  fun h => h _ r (List.mem_singleton_self _)

/-- A step that does not keep the condition breaks the tables or misses a key. -/
theorem ChunkCalls.breaks {params : ChunkManagerParams} {w w' : World} {e : Event}
    {out : List Returned} (h : w.ChunkCalls) (hbreaks : ¬ KeepsTables w e)
    (hstep : SDownload.step params w e = some (w', out)) :
    ¬ (w'.TablesAgree ∧ NoKeyError out) := by
  cases e with
  | deleteChunkData r =>
      -- the record goes, the entry of the ended task stays
      obtain ⟨hkey, hinactive⟩ := Classical.not_imp.mp hbreaks
      obtain ⟨t, ht⟩ := Dict.mem_keys_iff.mp hkey
      obtain ⟨s, hs⟩ := Dict.mem_keys_iff.mp (h.tables r hkey)
      have hstats : w.statsOf r = some (w.record s) := by rw [statsOf, hs]; rfl
      have hstatus : (w.record s).status ∉
          [EDownloadStatus.downloading, .pending, .awaitingSuccession] := by
        intro hmem
        refine hinactive ?_
        rw [Cancellable, hstats]
        exact decide_eq_true hmem
      have hdelete : w.deleteChunkData r =
          ({ w with chunksStats := w.chunksStats.erase r },
            .suspended (.deleting (w.record s).chunkFileName)) := by
        unfold deleteChunkData cancelChunk
        simp only [if_pos hkey, ht, hstats, if_neg hstatus]
        unfold cancelReturns popAndDelete
        simp only [hs, if_true]
      obtain ⟨rfl, rfl⟩ := Prod.mk.inj (Option.some.inj hstep)
      rw [hdelete]
      exact fun hagree => (Dict.mem_keys_erase.mp (hagree.1 r hkey)).1 rfl
  | resume i ok =>
      unfold SDownload.step at hstep
      dsimp only at hstep
      unfold KeepsTables at hbreaks
      cases hf : w.calls[i]? with
      | none => simp [hf] at hbreaks
      | some f =>
          simp only [hf] at hbreaks hstep
          obtain ⟨result, hresume, heq⟩ := Option.map_eq_some_iff.mp hstep
          -- either way the call comes to the `del` of an entry that is gone
          have hraises : ∃ (w₁ : World) (r : ChunkRange) (thenDelete : Bool),
              result = w₁.cancelRaises r thenDelete := by
            unfold World.resume at hresume
            cases f with
            | cancelInit r t thenDelete =>
                obtain ⟨hdone, hkey⟩ := Classical.not_imp.mp hbreaks
                dsimp only at hresume
                split at hresume
                · obtain rfl := Option.some.inj hresume
                  refine ⟨w.cancelTask t, r, thenDelete, ?_⟩
                  unfold cancelSignalled cancelJoined
                  dsimp only
                  rw [if_pos ((w.taskDone_cancelTask t t).mpr hdone)]
                  exact if_neg hkey
                · cases hresume
            | cancelJoin r t thenDelete =>
                obtain ⟨hdone, hkey⟩ := Classical.not_imp.mp hbreaks
                dsimp only at hresume
                rw [if_pos hdone] at hresume
                obtain rfl := Option.some.inj hresume
                exact ⟨w, r, thenDelete, if_neg hkey⟩
            | _ => exact absurd trivial hbreaks
          obtain ⟨w₁, r, thenDelete, rfl⟩ := hraises
          rintro ⟨-, hreplies⟩
          refine cancelRaises_misses w₁ r thenDelete i ?_
          rw [heq]
          exact hreplies
  | _ => exact absurd trivial hbreaks

theorem chunkCalls_init (files : Files) (recoveredStats : List Stats) :
    (World.init files recoveredStats).ChunkCalls :=
  ⟨fun _ hr => absurd hr List.not_mem_nil, fun _ hf => absurd hf List.not_mem_nil⟩

end World

/-- **The tables agree.** In every run of the methods of single chunks whose steps keep the
condition, every task in the table has its record; and wherever such a run stands, the condition
is exactly what a next step needs to keep it so and not to miss a key. -/
theorem tables_agree_iff (params : ChunkManagerParams) (files : Files)
    (recoveredStats : List Stats) {w : World}
    (h : Reaches (step params) (fun w e => e.ofChunks = true ∧ KeepsTables w e)
      (World.init files recoveredStats) w) :
    w.TablesAgree ∧
      ∀ e w' out, e.ofChunks = true → step params w e = some (w', out) →
        (KeepsTables w e ↔ w'.TablesAgree ∧ NoKeyError out) := by
  have hinv : w.ChunkCalls := h.invariant (World.chunkCalls_init files recoveredStats)
    fun hinv hok hstep => (hinv.step hok.1 hok.2 hstep).1
  refine ⟨hinv.tables, fun e w' out he hstep => ⟨fun hkeeps => ?_, fun hagree => ?_⟩⟩
  · obtain ⟨hinv', hreplies⟩ := hinv.step he hkeeps hstep
    exact ⟨hinv'.tables, hreplies⟩
  · by_contra hbreaks
    exact hinv.breaks hbreaks hstep hagree

/-- A chunk of one byte, downloaded to its end and collected. -/
def collectedRun : List Event :=
  [.startChunk ⟨0, none⟩ none, .task 0 .begins, .task 0 .opened, .task 0 (.piece [7]),
    .task 0 .written, .task 0 .eof, .task 0 .closed, .wait false .allCompleted, .resume 0 true,
    .deleteChunkData ⟨0, none⟩]

theorem tables_agree_collected :
    let w := runTo (step ⟨"f", some 1, 1⟩) (fun w e => e.ofChunks = true ∧ KeepsTables w e)
      (World.init FileSystem.empty []) collectedRun
    (w.tasks.length = 1 ∧ w.chunksStats.keys = []) ∧ w.TablesAgree :=
  ⟨by decide, (tables_agree_iff _ _ _ (reaches_runTo _ _ _ _)).1⟩

/-- The same chunk, deleted before it is collected. -/
def uncollectedRun : List Event :=
  [.startChunk ⟨0, none⟩ none, .task 0 .begins, .task 0 .opened, .task 0 (.piece [7]),
    .task 0 .written, .task 0 .eof, .task 0 .closed, .deleteChunkData ⟨0, none⟩]

/-- An entry of `_chunks_tasks` is left without its record. -/
theorem tables_come_apart :
    ¬ ∀ w, Reaches (step ⟨"f", some 1, 1⟩) (fun _ e => e.ofChunks = true)
      (World.init FileSystem.empty []) w →
      w.TablesAgree ∧ ∀ e w' out, e.ofChunks = true → step ⟨"f", some 1, 1⟩ w e = some (w', out) →
        NoKeyError out := by
  intro h
  have hreach := reaches_runTo (step ⟨"f", some 1, 1⟩) (fun _ e => e.ofChunks = true)
    (World.init FileSystem.empty []) uncollectedRun
  exact absurd ((h _ hreach).1 ⟨0, none⟩ (by decide)) (by decide)

end SDownload
