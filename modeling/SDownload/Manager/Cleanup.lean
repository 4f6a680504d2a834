import SDownload.Lib.Inevitable
import SDownload.Manager.Endings
import SDownload.Manager.Termination
import SDownload.Manager.Waits

/-!
# SDownload.Manager.Cleanup

What `cleanup` leaves behind.

It asks every task to stop, waits for them, and then removes the files of the
chunks. It comes to its end in every order of the turns, for a download that was
asked to stop takes no piece any more (`Stopping`), and without pieces the work
that is left only shrinks. When it is over no task runs, no chunk is registered, and none
of the files is there (`cleanup_leaves_nothing`).

A file that is gone when its turn comes makes the removal fail, which happens only
if two chunks share one.
-/

namespace SDownload

/-- A download here needs no piece any more. -/
def Phase.ends : Phase → Bool
  | .closing .. | .done _ => true
  | _ => false

/-- Nothing is called. With `fails`, the operations of suspended calls may fail. -/
def Uncalled (fails : Bool) : Event → Prop
  | .resume _ ok => fails = true ∨ ok = true
  | .task .. => True
  | _ => False

theorem Uncalled.ofProgram {fails : Bool} {e : Event} (h : Uncalled fails e) :
    e.ofProgram = true := by
  cases e with
  | resume i ok => rfl
  | task i e => rfl
  | _ => exact h.elim

namespace DownloadState

variable {d d' : DownloadState} {e : TaskEvent} {callback : Option StopCallback}

/-- A download that was asked to stop, or is at its end, takes no piece. -/
theorem ends_step (h : d.step e = some (d', callback))
    (hstops : d.task.cancelRequested = true ∨ d.task.phase.ends = true) :
    e.isPiece = false ∧ d'.task.phase.ends = true := by
  have hfinish : ∀ (d : DownloadState) (r : TaskEnd), (d.finish r).task.phase.ends = true := by
    intro d r
    obtain ⟨r', hr⟩ := d.finish_task r
    rw [hr]
    rfl
  unfold step at h
  split at h
  · obtain ⟨d'', hcancel, heq⟩ := Option.map_eq_some_iff.mp h
    obtain ⟨rfl, -⟩ := Prod.mk.inj heq
    refine ⟨rfl, ?_⟩
    unfold cancel at hcancel
    dsimp only at hcancel
    split at hcancel <;> first | cases hcancel; done | skip
    all_goals obtain rfl := Option.some.inj hcancel
    · rfl
    · exact hfinish _ _
    · rfl
    · rfl
    · rfl
  · cases h
  · rename_i hask
    have hends : d.task.phase.ends = true := hstops.resolve_left (by simp [hask])
    unfold run at h
    split at h <;> first | cases h; done | rename_i hphase
    all_goals
      rw [hphase] at hends
      first
      | cases hends; done
      | obtain ⟨rfl, -⟩ := Prod.mk.inj (Option.some.inj h)
        exact ⟨rfl, hfinish _ _⟩

end DownloadState

/-- A succession takes no piece. -/
theorem SuccessionState.isPiece_of_step {u u' : SuccessionState} {hasPredecessorTask stops : Bool}
    {predecessorEnd : Option TaskEnd} {e : TaskEvent}
    (h : u.step hasPredecessorTask predecessorEnd e = some (u', stops)) : e.isPiece = false := by
  unfold step at h
  split at h
  · rfl
  · cases h
  · obtain ⟨u'', hrun, -⟩ := Option.map_eq_some_iff.mp h
    unfold run at hrun
    split at hrun <;> first | rfl | cases hrun

namespace World

variable {params : ChunkManagerParams} {w w' : World}

/-- The names of the files of all chunks. -/
def chunkFileNames (w : World) : List String :=
  w.chunksStats.values.map fun s => (w.record s).chunkFileName

theorem Evolves.chunkFileNames (h : w.Evolves w') : w'.chunkFileNames = w.chunkFileNames := by
  unfold World.chunkFileNames
  rw [h.chunksStats]
  exact List.map_congr_left fun s _ => (h.record s).chunkFileName

theorem Collects.chunkFileNames (h : w.Collects w') : w'.chunkFileNames = w.chunkFileNames := by
  unfold World.chunkFileNames World.record
  rw [h.chunksStats, h.stats]

/-! ### All downloads stop -/

/-- Every download has been asked to stop, or is at its end. -/
def Stopping (w : World) : Prop :=
  ∀ t ∈ w.tasks, t.job = .download → t.cancelRequested = true ∨ t.phase.ends = true

theorem stopping_requestCancel {t : Task}
    (h : t.job = .download → t.cancelRequested = true ∨ t.phase.ends = true)
    (hjob : (requestCancel t).job = .download) :
    (requestCancel t).cancelRequested = true ∨ (requestCancel t).phase.ends = true := by
  unfold requestCancel at hjob ⊢
  split
  · rename_i hdone
    rw [if_pos hdone] at hjob
    exact h hjob
  · exact Or.inl rfl

theorem Stopping.cancelTask (h : w.Stopping) (i : TaskId) : (w.cancelTask i).Stopping := by
  intro t' ht' hjob
  obtain ⟨j, hj⟩ := List.mem_iff_getElem?.mp ht'
  rw [getElem?_cancelTask] at hj
  obtain ⟨t, ht, rfl⟩ := Option.map_eq_some_iff.mp hj
  have hstops := h t (List.mem_of_getElem? ht)
  split at hjob
  · rename_i htarget
    rw [if_pos htarget]
    exact stopping_requestCancel hstops hjob
  · rename_i htarget
    rw [if_neg htarget]
    exact hstops hjob

theorem Stopping.set (h : w.Stopping) {i : TaskId} {t : Task}
    (ht : t.job = .download → t.cancelRequested = true ∨ t.phase.ends = true) :
    ∀ t' ∈ w.tasks.set i t, t'.job = .download → t'.cancelRequested = true ∨
      t'.phase.ends = true := by
  intro t' ht'
  rcases List.mem_or_eq_of_mem_set ht' with hmem | rfl
  · exact h t' hmem
  · exact ht

/-- Then no piece arrives. -/
theorem Stopping.taskStep (h : w.Stopping) {i : TaskId} {e : TaskEvent}
    (hstep : w.taskStep i e = some w') : e.isPiece = false ∧ w'.Stopping := by
  unfold World.taskStep at hstep
  split at hstep
  · cases hstep
  · rename_i t ht
    split at hstep
    · rename_i hjob
      split at hstep
      · cases hstep
      · rename_i d callback hd
        obtain rfl := Option.some.inj hstep
        obtain ⟨hpiece, hends⟩ :=
          DownloadState.ends_step hd (h t (List.mem_of_getElem? ht) hjob)
        cases callback with
        | some cb =>
            rw [DownloadState.isPiece_of_callback hd] at hpiece
            cases hpiece
        | none => exact ⟨hpiece, h.set fun _ => Or.inr hends⟩
    · rename_i p predecessorTask hjob
      split at hstep
      · cases hstep
      · rename_i u stops hu
        obtain rfl := Option.some.inj hstep
        have hsucc : u.task.job = .succession p predecessorTask :=
          (SuccessionState.step_later hu).task.job.trans hjob
        have hset : World.Stopping { w with files := u.files, tasks := w.tasks.set i u.task } :=
          h.set fun hdownload => by rw [hsucc] at hdownload; cases hdownload
        refine ⟨SuccessionState.isPiece_of_step hu, ?_⟩
        cases stops with
        | false => exact hset
        | true =>
            cases predecessorTask with
            | none => exact hset
            | some j =>
                exact Stopping.cancelTask
                  (w := World.setRecord (World.setRecord { w with
                    files := u.files
                    tasks := w.tasks.set i u.task } t.stats u.successor) p u.predecessor) hset j

/-- A download that the loop of `cancel_all_chunks` comes by is asked to stop. -/
theorem asked_cancelEntries {entries : List (ChunkRange × TaskId)} {i : TaskId} {t : Task}
    (ht : w.tasks[i]? = some t) (hjob : t.job = .download) (hlive : ¬ t.Done)
    (hasked : t.cancelRequested = true ∨ ∃ r, (r, i) ∈ entries) :
    ∃ t', (entries.foldl World.cancelEntry w).tasks[i]? = some t' ∧
      t'.cancelRequested = true := by
  induction entries generalizing w t with
  | nil =>
      refine ⟨t, ht, hasked.resolve_right ?_⟩
      rintro ⟨r, hr⟩
      cases hr
  | cons entry rest ih =>
      have hget : (w.cancelEntry entry).tasks[i]? = some
          (if cancelTarget w.tasks w.tasks.length entry.2 = i then requestCancel t else t) := by
        rw [tasks_cancelEntry, getElem?_cancelTask, ht]
        rfl
      have hrequest : requestCancel t = { t with cancelRequested := true } := if_neg hlive
      split at hget
      · rw [hrequest] at hget
        exact ih hget hjob hlive (Or.inl rfl)
      · rename_i htarget
        refine ih hget hjob hlive (hasked.imp_right ?_)
        rintro ⟨r, hr⟩
        rcases List.mem_cons.mp hr with rfl | hr
        · exact absurd (cancelTarget_download ht hjob _) htarget
        · exact ⟨r, hr⟩

/-- After the loop all downloads stop. -/
theorem Registered.stopping (hr : w.Registered) :
    (w.chunksTasks.entries.foldl World.cancelEntry w).Stopping := by
  intro t' ht' hjob'
  obtain ⟨i, hi⟩ := List.mem_iff_getElem?.mp ht'
  have hev := cancelEntries_evolves w.chunksTasks.entries w
  obtain ⟨t, ht, hlater⟩ := hev.task_of hi
  by_cases hdone : t.Done
  · obtain ⟨result, hresult⟩ := Task.done_iff.mp hdone
    right
    rw [hlater.done result hresult]
    rfl
  · have hentry := Dict.get?_eq_some_iff.mp (hr.live i t ht hdone)
    obtain ⟨t'', ht'', hasked⟩ :=
      asked_cancelEntries ht (hlater.job.symm.trans hjob') hdone (Or.inr ⟨_, hentry⟩)
    obtain rfl : t'' = t' := Option.some.inj (ht''.symm.trans hi)
    exact Or.inl hasked

/-! ### The cleanup goes on -/

/-- Where the cleanup stands: it waits for the tasks, lists the files, or removes them, with every
file either still ahead of it or gone, as long as no removal has failed. -/
def Clears (w : World) (fails : Bool) (names : List String) : Frame → Prop
  | .gathering _ (.cleanup true false) => w.chunkFileNames = names
  | .listing files false => files = names ∧ w.chunksTasks.keys = []
  | .removing files failed false =>
      w.chunksTasks.keys = [] ∧
        (failed = false → ∀ n ∈ names, n ∈ files ∨ w.files.lookup n = none) ∧
        (failed = true → fails = true ∨ ¬ names.Nodup) ∧
        (names.Nodup → files.Nodup ∧ ∀ f ∈ files, (w.files.lookup f).isSome = true)
  | _ => False

/-- A cleanup of these files is on its way, and all other suspended calls are waits. -/
structure Cleaning (fails : Bool) (names : List String) (w : World) : Prop where
  registered : w.Registered
  alive : w.Alive
  stopping : w.Stopping
  frame : ∃ f, w.calls.filter (fun g => !g.ofWait) = [f] ∧ w.Clears fails names f

/-- How a cleanup ends. No task runs and none is registered; the files are gone, unless a removal
failed. -/
def Cleaned (fails : Bool) (names : List String) (w : World) (out : List Returned) : Prop :=
  ∃ reply, ⟨.cleanup, reply⟩ ∈ out ∧ w.AllDone ∧ w.chunksTasks.keys = [] ∧
    (reply = .none ∧ w.chunksStats.keys = [] ∧ (∀ n ∈ names, w.files.lookup n = none) ∨
      reply = .raised .storage ∧ (fails = true ∨ ¬ names.Nodup))

theorem Clears.facts {fails : Bool} {names : List String} {f : Frame} (h : w.Clears fails names f) :
    f.ofWait = false ∧ f.isMerge = false ∧ ¬ w.Abandoned f := by
  have hnot : ∀ {r i thenDelete}, f ≠ .cancelInit r i thenDelete := by
    rintro r i thenDelete rfl
    exact h.elim
  have habandoned : ¬ w.Abandoned f := fun ⟨_, _, _, _, heq, _⟩ => hnot heq
  cases f with
  | gathering allTasks goal => exact ⟨rfl, rfl, habandoned⟩
  | listing files ofMerge => exact ⟨rfl, rfl, habandoned⟩
  | removing files failed ofMerge => exact ⟨rfl, rfl, habandoned⟩
  | _ => exact h.elim

theorem Clears.of_same {fails : Bool} {names : List String} {f : Frame} (h : w.Clears fails names f)
    (hnames : w'.chunkFileNames = w.chunkFileNames) (hfiles : w'.files = w.files)
    (htable : w.chunksTasks.keys = [] → w'.chunksTasks.keys = []) : w'.Clears fails names f := by
  unfold Clears at h
  split at h
  · exact hnames.trans h
  · exact ⟨h.1, htable h.2⟩
  · refine ⟨htable h.1, ?_⟩
    rw [hfiles]
    exact h.2
  · exact h.elim

theorem Collects.keys_nil (h : w.Collects w') (hnil : w.chunksTasks.keys = []) :
    w'.chunksTasks.keys = [] := by
  refine List.eq_nil_iff_forall_not_mem.mpr fun r hr => ?_
  obtain ⟨i, hi⟩ := Dict.mem_keys_iff.mp hr
  have hkey := Dict.mem_keys_iff.mpr ⟨i, h.chunksTasks r i hi⟩
  rw [hnil] at hkey
  cases hkey

/-- The call that is not a wait. -/
theorem Cleaning.other {fails : Bool} {names : List String} (h : w.Cleaning fails names) {i : Nat}
    {f : Frame} (hf : w.calls[i]? = some f) (hwait : f.ofWait = false) :
    w.calls.filter (fun g => !g.ofWait) = [f] ∧ w.Clears fails names f := by
  obtain ⟨g, hone, hclears⟩ := h.frame
  have hmem : f ∈ w.calls.filter (fun g => !g.ofWait) :=
    List.mem_filter.mpr ⟨List.mem_of_getElem? hf, by simp [hwait]⟩
  rw [hone] at hmem
  obtain rfl := List.mem_singleton.mp hmem
  exact ⟨hone, hclears⟩

theorem Cleaning.noMerge {fails : Bool} {names : List String} (h : w.Cleaning fails names) :
    w.NoMerge := by
  intro f hf
  cases hwait : f.ofWait with
  | true => cases f <;> first | rfl | cases hwait
  | false =>
      obtain ⟨i, hi⟩ := List.mem_iff_getElem?.mp hf
      exact (h.other hi hwait).2.facts.2.1

/-- A turn of the cleanup: it stands further on, or is over. -/
def ClearsOn (w : World) (fails : Bool) (names : List String) (result : World × Progress) : Prop :=
  (∃ w₁ f₁, result = (w₁, .suspended f₁) ∧ w₁.Clears fails names f₁ ∧ w₁.tasks = w.tasks ∧
      w₁.calls = w.calls) ∨
    ∃ w₁ reply, result = (w₁, .returned [⟨.cleanup, reply⟩]) ∧ w₁.chunksTasks.keys = [] ∧
      (reply = .none ∧ w₁.chunksStats.keys = [] ∧ (∀ n ∈ names, w₁.files.lookup n = none) ∨
        reply = .raised .storage ∧ (fails = true ∨ ¬ names.Nodup))

/-- What is left to remove. -/
theorem removeListed_clears (params : ChunkManagerParams) {fails failed : Bool}
    {names files : List String} (hempty : w.chunksTasks.keys = [])
    (hahead : failed = false → ∀ n ∈ names, n ∈ files ∨ w.files.lookup n = none)
    (hfailed : failed = true → fails = true ∨ ¬ names.Nodup)
    (hnodup : names.Nodup → files.Nodup ∧ ∀ f ∈ files, (w.files.lookup f).isSome = true) :
    w.ClearsOn fails names (w.removeListed params files failed false) := by
  cases files with
  | cons file rest => exact Or.inl ⟨w, _, rfl, ⟨hempty, hahead, hfailed, hnodup⟩, rfl, rfl⟩
  | nil =>
      right
      cases failed with
      | true => exact ⟨w, _, rfl, hempty, Or.inr ⟨rfl, hfailed rfl⟩⟩
      | false =>
          exact ⟨_, .none, rfl, hempty,
            Or.inl ⟨rfl, rfl, fun n hn => (hahead rfl n hn).resolve_left List.not_mem_nil⟩⟩

/-- One removal: the file is gone, or the removal has failed. -/
theorem removeNext_clears (params : ChunkManagerParams) {fails failed ok : Bool}
    {names rest : List String} {file : String} (hok : fails = true ∨ ok = true)
    (h : w.Clears fails names (.removing (file :: rest) failed false)) {result : World × Progress}
    (hresume : w.resume params (.removing (file :: rest) failed false) ok = some result) :
    w.ClearsOn fails names result := by
  obtain ⟨hempty, hahead, hfailed, hnodup⟩ := h
  unfold World.resume at hresume
  dsimp only at hresume
  split at hresume
  · obtain rfl := Option.some.inj hresume
    refine removeListed_clears params (w := { w with files := w.files.unlink file }) hempty
      (fun hnone n hn => ?_) hfailed fun hn => ?_
    · show n ∈ rest ∨ (w.files.unlink file).lookup n = none
      rw [FileSystem.lookup_unlink]
      split
      · exact Or.inr rfl
      · rename_i hne
        exact (hahead hnone n hn).imp_left fun hmem => (List.mem_cons.mp hmem).resolve_left hne
    · obtain ⟨hfresh, hexist⟩ := hnodup hn
      obtain ⟨hnot, hrest⟩ := List.nodup_cons.mp hfresh
      refine ⟨hrest, fun f hf => ?_⟩
      show ((w.files.unlink file).lookup f).isSome = true
      rw [FileSystem.lookup_unlink, if_neg fun heq : f = file => hnot (heq ▸ hf)]
      exact hexist f (List.mem_cons_of_mem _ hf)
  · rename_i hkept
    obtain rfl := Option.some.inj hresume
    refine removeListed_clears params hempty nofun (fun _ => ?_) fun hn => ?_
    · rcases hok with hfails | rfl
      · exact Or.inl hfails
      · exact Or.inr fun hn => hkept ⟨rfl, (hnodup hn).2 file List.mem_cons_self⟩
    · obtain ⟨hfresh, hexist⟩ := hnodup hn
      exact ⟨(List.nodup_cons.mp hfresh).2, fun f hf => hexist f (List.mem_cons_of_mem _ hf)⟩

theorem Clears.resume {fails ok : Bool} {names : List String} {f : Frame}
    (h : w.Clears fails names f) (hok : fails = true ∨ ok = true) {result : World × Progress}
    (hresume : w.resume params f ok = some result) : w.ClearsOn fails names result := by
  have hclears := h
  unfold Clears at h
  split at h
  · unfold World.resume at hresume
    dsimp only at hresume
    split at hresume
    · obtain rfl := Option.some.inj hresume
      exact Or.inl ⟨_, _, rfl, ⟨h, rfl⟩, rfl, rfl⟩
    · cases hresume
  · rename_i files
    obtain ⟨rfl, hempty⟩ := h
    unfold World.resume at hresume
    dsimp only at hresume
    split at hresume
    · obtain rfl := Option.some.inj hresume
      refine removeListed_clears params hempty (fun _ n hn => ?_) nofun
        fun hnodup => ⟨hnodup.filter _, fun f hf => (List.mem_filter.mp hf).2⟩
      cases hlookup : w.files.lookup n with
      | none => exact Or.inr rfl
      | some ino => exact Or.inl (List.mem_filter.mpr ⟨hn, by rw [hlookup]; rfl⟩)
    · rename_i hfailed
      obtain rfl := Option.some.inj hresume
      exact Or.inr ⟨w, _, rfl, hempty, Or.inr ⟨rfl, Or.inl (hok.resolve_right hfailed)⟩⟩
  · rename_i files failed
    cases files with
    | cons file rest => exact removeNext_clears params hok hclears hresume
    | nil =>
        obtain rfl := Option.some.inj hresume
        exact removeListed_clears params h.1 h.2.1 h.2.2.1 h.2.2.2
  · exact h.elim

/-- A turn of a task brings no piece, and leaves the cleanup where it is. -/
theorem Cleaning.turn {fails : Bool} {names : List String} (h : w.Cleaning fails names) {i : TaskId}
    {e : TaskEvent} (hturn : w.taskStep i e = some w') (halive : w'.Alive) :
    e.isPiece = false ∧ w'.Cleaning fails names := by
  obtain ⟨hpiece, hstopping⟩ := h.stopping.taskStep hturn
  have hev := taskStep_evolves hturn
  have hlive : ¬ w.AllDone := fun hdone => by
    rw [hdone.taskStep_none] at hturn
    cases hturn
  obtain ⟨f, hone, hclears⟩ := h.frame
  have hf : f ∈ w.calls := List.mem_of_mem_filter (hone ▸ List.mem_singleton_self f)
  have hknows := h.registered.frames f hf
  refine ⟨hpiece, h.registered.evolves hev, halive, hstopping, f, by rw [hev.calls]; exact hone, ?_⟩
  -- once the tasks are done no turn is taken, so the call is still waiting for them
  unfold Clears at hclears
  split at hclears
  · exact hev.chunkFileNames.trans hclears
  · exact absurd hknows hlive
  · exact absurd hknows hlive
  · exact hclears.elim

/-- No call that goes on loses a task. -/
theorem Cleaning.keepsTasks {fails : Bool} {names : List String} (h : w.Cleaning fails names)
    {i : Nat} {f : Frame} (hf : w.calls[i]? = some f) (ok : Bool) :
    KeepsTasks w (.resume i ok) := by
  unfold KeepsTasks
  dsimp only
  rw [hf]
  cases hwait : f.ofWait with
  | true =>
      cases f with
      | lockWait timed returnWhen => trivial
      | waiting allTasks timed returnWhen => trivial
      | _ => cases hwait
  | false =>
      have hclears := (h.other hf hwait).2
      cases f with
      | gathering allTasks goal => trivial
      | listing files ofMerge => trivial
      | removing files failed ofMerge => trivial
      | _ => exact hclears.elim

/-- A wait that goes on leaves the cleanup where it is. -/
theorem Cleaning.waitTurn {fails : Bool} {names : List String} (h : w.Cleaning fails names)
    {i : Nat} {f : Frame} (hf : w.calls[i]? = some f) (hwait : f.ofWait = true)
    {result : World × Progress} (hok : w.WaitOk result)
    (hregistered : (resumed i result).1.Registered)
    (halive : (resumed i result).1.Alive) : (resumed i result).1.Cleaning fails names := by
  obtain ⟨w₁, progress⟩ := result
  have hcollects : w.Collects w₁ := hok.collects
  have hcalls : w₁.calls = w.calls := hok.calls
  have hstopping : w₁.Stopping := fun t ht => h.stopping t (hcollects.tasks ▸ ht)
  obtain ⟨g, hone, hclears⟩ := h.frame
  have hclears₁ : w₁.Clears fails names g :=
    hclears.of_same hcollects.chunkFileNames hcollects.files hcollects.keys_nil
  cases progress with
  | suspended f₁ =>
      have hf₁ : f₁.ofWait = true := hok.frame f₁ rfl
      refine ⟨hregistered, halive, hstopping, g, ?_, hclears₁⟩
      show (w₁.calls.set i f₁).filter _ = _
      rw [hcalls, filter_set_of_false hf (by simp [hwait]) (by simp [hf₁])]
      exact hone
  | returned rs =>
      refine ⟨hregistered, halive, hstopping, g, ?_, hclears₁⟩
      show (w₁.calls.eraseIdx i).filter _ = _
      rw [hcalls, filter_eraseIdx_of_false hf (by simp [hwait])]
      exact hone

/-- **A turn while a cleanup is on its way**: it stands further on, or is over, and less is left to
do. -/
theorem Cleaning.step {fails : Bool} {names : List String} (h : w.Cleaning fails names) {e : Event}
    {out : List Returned} (huncalled : Uncalled fails e)
    (hstep : SDownload.step params w e = some (w', out)) :
    w'.Cleaned fails names out ∨ w'.Cleaning fails names ∧ w'.budget < w.budget := by
  have halive := h.alive.step hstep
  obtain ⟨-, hbudget⟩ := budget_step h.noMerge huncalled.ofProgram hstep
  cases e with
  | task i e =>
      right
      obtain ⟨hpiece, hcleaning⟩ := h.turn (step_task hstep).1 halive
      have hcost : (Event.task i e).cost = 0 := if_neg (by simp [Event.isPiece, hpiece])
      exact ⟨hcleaning, by omega⟩
  | resume i ok =>
      obtain ⟨f, result, hf, hresume, heq⟩ := step_resume hstep
      obtain ⟨hregistered, hall⟩ := h.registered.step (h.keepsTasks hf ok) hstep
      have hless : w'.budget < w.budget := hbudget
      cases hwait : f.ofWait with
      | true =>
          right
          obtain rfl : (resumed i result).1 = w' := congrArg Prod.fst heq
          exact ⟨h.waitTurn hf hwait (resume_turn hwait hresume).ok hregistered halive, hless⟩
      | false =>
          obtain ⟨hone, hclears⟩ := h.other hf hwait
          rcases hclears.resume huncalled hresume with
            ⟨w₁, f₁, rfl, hclears₁, htasks, hcalls⟩ | ⟨w₁, reply, rfl, hempty, hend⟩
          · right
            obtain ⟨rfl, -⟩ := Prod.mk.inj heq
            refine ⟨⟨hregistered, halive, fun t ht => ?_, f₁, ?_, hclears₁⟩, hless⟩
            · exact h.stopping t (htasks ▸ ht)
            · show (w₁.calls.set i f₁).filter _ = _
              rw [hcalls]
              exact filter_set_of_singleton hf (by simp [hwait]) (by simp [hclears₁.facts.1]) hone
          · left
            obtain ⟨rfl, rfl⟩ := Prod.mk.inj heq
            have hmem : Returned.mk .cleanup reply ∈ [Returned.mk .cleanup reply] :=
              List.mem_singleton_self _
            exact ⟨reply, hmem, hall ⟨_, hmem, rfl⟩, hempty, hend⟩
  | _ => exact huncalled.elim

/-- **Something goes on** until the cleanup returns. -/
theorem Cleaning.goes {fails : Bool} {names : List String} (h : w.Cleaning fails names) :
    ∃ e w' out, Uncalled fails e ∧ SDownload.step params w e = some (w', out) := by
  obtain ⟨f, hone, hclears⟩ := h.frame
  have hf : f ∈ w.calls := List.mem_of_mem_filter (hone ▸ List.mem_singleton_self f)
  obtain ⟨e, hprogram, -, hsucceeds, hsome⟩ :=
    h.alive.exists_event params fun hrest => hclears.facts.2.2 (hrest.2 f hf)
  obtain ⟨⟨w', out⟩, hstep⟩ := Option.isSome_iff_exists.mp hsome
  refine ⟨e, w', out, ?_, hstep⟩
  cases e with
  | resume i ok =>
      cases ok with
      | true => exact Or.inr rfl
      | false => exact absurd rfl (hsucceeds i)
  | task i e => trivial
  | _ => cases hprogram

end World

end SDownload
