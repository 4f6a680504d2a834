import SDownload.Lib.Inevitable
import SDownload.Manager.Links
import SDownload.Recovery.Lives

/-!
# SDownload.Recovery.Completion

A download comes to its end.

However a life of a manager went so far (`Lived`), let there be a moment from which on
the server sends what it is asked for and no operation fails (`Reliable`). If
every byte of the file is in a chunk that is completed or whose download is on its
way (`Promised`), then `wait_for_completed_chunks` returns, whatever the order of the
turns, and a `merge_chunks` that is called then returns the source
(`download_finishes`).

The bound is that of `comes_to_rest` with the bytes that are still to come, each of
which brings the turns of a piece at most (`Task.bytesLeft`).
-/

namespace SDownload

/-! ### Turns of a download -/

/-- How much of the response is still to come. -/
def Task.bytesLeft (source : Bytes) (t : Task) : Nat :=
  match t.phase with
  | .created | .opening => (t.range.bytesOf source).length
  | .receiving _ delivered | .writing _ delivered _ =>
      (t.range.bytesOf source).length - delivered.length
  | _ => 0

/-- Nobody asked the download to stop, nothing has failed, and a response that ended was all of
what was asked for. -/
def Task.OnTrack (source : Bytes) (t : Task) : Prop :=
  t.cancelRequested = false ∧
    match t.phase with
    | .created | .opening | .receiving _ _ | .writing _ _ _ => True
    | .closing _ delivered .returned => delivered = t.range.bytesOf source
    | _ => False

namespace DownloadState

variable {source : Bytes} {d d' : DownloadState} {e : TaskEvent} {cb : Option StopCallback}

/-- A service that may do more allows more. -/
theorem Allowed.mono {service service' : Service} (h : d.Allowed service e)
    (hsent : ∀ b, service.sent b → service'.sent b)
    (hwhole : ∀ b, service.whole b → service'.whole b) (hfails : service.fails → service'.fails) :
    d.Allowed service' e := by
  unfold Allowed at h ⊢
  split at h
  · exact hsent _ h
  · exact hwhole _ h
  · exact hfails h
  · trivial

/-- An honest server is one that may be unsteady. -/
theorem Allowed.unsteady {r : ChunkRange} (h : d.Allowed (honestService source r) e) :
    d.Allowed (unsteadyService source r) e :=
  h.mono (fun _ hb => hb) (fun b hb => by rw [show b = _ from hb]; exact List.prefix_rfl)
    fun _ => trivial

/-- Where nothing fails, nothing is left behind. -/
theorem Allowed.leavesFront {r : ChunkRange} (h : d.Allowed (honestService source r) e) :
    d.LeavesFront e := by
  unfold Allowed at h
  unfold LeavesFront
  split
  · rename_i hphase
    simp only [hphase] at h
    exact h.elim
  · rename_i hphase
    simp only [hphase] at h
    exact h.elim
  · trivial

theorem bytesLeft_finish (d : DownloadState) (r : TaskEnd) :
    (d.finish r).task.bytesLeft source = 0 := by
  obtain ⟨r', hr⟩ := d.finish_task r
  rw [hr]
  rfl

/-- A piece is taken from what is to come, and no other turn adds to it. -/
theorem bytesLeft_step (hallowed : d.Allowed (honestService source d.task.range) e)
    (hpiece : e ≠ .piece []) (h : d.step e = some (d', cb)) :
    d'.task.bytesLeft source + e.isPiece.toNat ≤ d.task.bytesLeft source := by
  unfold Allowed at hallowed
  unfold step at h
  split at h
  · obtain ⟨d'', hcancel, heq⟩ := Option.map_eq_some_iff.mp h
    obtain ⟨rfl, -⟩ := Prod.mk.inj heq
    unfold cancel at hcancel
    dsimp only at hcancel
    split at hcancel <;> first | cases hcancel; done | skip
    all_goals obtain rfl := Option.some.inj hcancel
    · exact Nat.zero_le _
    · rw [bytesLeft_finish]
      exact Nat.zero_le _
    · exact Nat.zero_le _
    · exact Nat.zero_le _
    · exact Nat.zero_le _
  · cases h
  · unfold run at h
    split at h <;> first | cases h; done | rename_i hphase
    all_goals
      obtain ⟨rfl, -⟩ := Prod.mk.inj (Option.some.inj h)
      simp only [hphase] at hallowed
    · show (d.task.range.bytesOf source).length + 0 ≤ d.task.bytesLeft source
      simp only [Task.bytesLeft, hphase]
      omega
    · show (d.task.range.bytesOf source).length - 0 + 0 ≤ d.task.bytesLeft source
      simp only [Task.bytesLeft, hphase]
      omega
    · exact hallowed.elim
    · rename_i file delivered data
      have hlen : (delivered ++ data).length ≤ (d.task.range.bytesOf source).length :=
        hallowed.length_le
      have hdata : 0 < data.length := List.length_pos_iff.mpr fun hnil => hpiece (hnil ▸ rfl)
      rw [List.length_append] at hlen
      show (d.task.range.bytesOf source).length - (delivered ++ data).length + 1 ≤
        d.task.bytesLeft source
      simp only [Task.bytesLeft, hphase, List.length_append]
      omega
    · exact Nat.zero_le _
    · exact hallowed.elim
    · rename_i file delivered chunk
      show (d.task.range.bytesOf source).length - delivered.length + 0 ≤ d.task.bytesLeft source
      simp only [Task.bytesLeft, hphase]
      omega
    · exact hallowed.elim
    · rw [bytesLeft_finish]
      exact Nat.zero_le _
    · exact hallowed.elim

/-- **A download that is on its way** stays so until it is completed. -/
theorem onTrack_step {service : Service} (hok : d.Ok service)
    (hsize : d.stats.fileSize = some ((d.task.range.bytesOf source).length : Int))
    (htrack : d.task.OnTrack source) (hallowed : d.Allowed (honestService source d.task.range) e)
    (h : d.step e = some (d', cb)) :
    d'.task.OnTrack source ∨ d'.stats.status = .completed := by
  obtain ⟨hask, htrack⟩ := htrack
  have hphaseOk := hok.phase
  unfold Allowed at hallowed
  unfold step at h
  rw [hask] at h
  dsimp only at h
  unfold run at h
  split at h <;> first | cases h; done | rename_i hphase
  all_goals
    obtain ⟨rfl, -⟩ := Prod.mk.inj (Option.some.inj h)
    simp only [hphase] at hallowed htrack hphaseOk
  · exact Or.inl ⟨hask, trivial⟩
  · exact Or.inl ⟨hask, trivial⟩
  · exact hallowed.elim
  · exact Or.inl ⟨hask, trivial⟩
  · exact Or.inl ⟨hask, hallowed⟩
  · exact hallowed.elim
  · exact Or.inl ⟨hask, trivial⟩
  · exact hallowed.elim
  · rename_i file delivered left
    cases left with
    | returned =>
        have hbytes : d.stats.bytesDownloaded = delivered.length := hphaseOk.2.1
        right
        unfold finish
        simp only [hsize]
        rw [if_neg (by rw [hbytes, htrack]; simp)]
        rfl
    | cancelled => exact htrack.elim
    | failed e => exact htrack.elim
  · exact hallowed.elim

/-- **A download that runs has a turn** that brings it on. -/
theorem exists_reliable_step (hok : d.Ok (unsteadyService source d.task.range))
    (hlive : ¬ d.task.Done) :
    ∃ e, e ≠ .piece [] ∧ d.Allowed (honestService source d.task.range) e ∧
      (d.step e).isSome = true := by
  have hphaseOk := hok.phase
  unfold step Allowed
  cases hask : d.task.cancelRequested with
  | true =>
      refine ⟨.cancelled none, nofun, by split <;> trivial, ?_⟩
      unfold cancel
      cases hphase : d.task.phase with
      | done r => exact absurd (Task.done_iff.mpr ⟨r, hphase⟩) hlive
      | _ =>
          rw [hphase] at hphaseOk
          first | exact hphaseOk.elim | simp [hphase]
  | false =>
      unfold run
      cases hphase : d.task.phase with
      | created => exact ⟨.begins, nofun, by trivial, rfl⟩
      | opening => exact ⟨.opened, nofun, by trivial, rfl⟩
      | receiving file delivered =>
          rw [hphase] at hphaseOk
          obtain ⟨rest, hrest⟩ : delivered <+: d.task.range.bytesOf source := hphaseOk.2.2.2
          cases rest with
          | nil => exact ⟨.eof, nofun, by rw [List.append_nil] at hrest; exact hrest, rfl⟩
          | cons b rest =>
              refine ⟨.piece (b :: rest), nofun, ?_, rfl⟩
              show delivered ++ b :: rest <+: d.task.range.bytesOf source
              rw [hrest]
      | writing file delivered chunk => exact ⟨.written, nofun, by trivial, rfl⟩
      | closing file delivered left => exact ⟨.closed, nofun, by trivial, rfl⟩
      | done r => exact absurd (Task.done_iff.mpr ⟨r, hphase⟩) hlive
      | _ =>
          rw [hphase] at hphaseOk
          exact hphaseOk.elim

end DownloadState

/-! ### A reliable world -/

/-- The server sends what it is asked for, in pieces that are not empty; no operation fails; and
nothing is called. -/
def Reliable (source : Bytes) (w : World) : Event → Prop
  | .resume _ ok => ok = true
  | .task i e => e ≠ .piece [] ∧ ∀ t ∈ w.tasks[i]?,
      DownloadState.Allowed (honestService source t.range) ⟨t, w.record t.stats, w.files⟩ e
  | _ => False

/-- The rounds a suspended merge has yet to take. -/
def Frame.roundsLeft (goal : Nat) : Frame → Nat
  | .merging stage _ => stage.roundsLeft goal
  | _ => 0

namespace World

variable {source : Bytes} {params : ChunkManagerParams} {recovered : List Stats} {w w' : World}

/-- What is still to come of all responses. -/
def bytesLeft (source : Bytes) (w : World) : Nat := (w.tasks.map (Task.bytesLeft source)).sum

/-- No record has a limit observer. -/
def Unobserved (w : World) : Prop := ∀ s cb, (w.record s).onLimit ≠ some cb

/-- The chunk is completed, or its download is on its way. -/
def Promised (source : Bytes) (w : World) (r : ChunkRange) : Prop :=
  ∃ s, w.chunksStats.get? r = some s ∧
    ((w.record s).status = .completed ∨
      ∃ (i : TaskId) (t : Task), w.tasks[i]? = some t ∧ t.range = r ∧ t.OnTrack source)

/-- The chunk is completed. -/
def Completed (w : World) (r : ChunkRange) : Prop :=
  ∃ s, w.chunksStats.get? r = some s ∧ (w.record s).status = .completed

/-- Once all tasks are done, promises are kept. -/
theorem Promised.completed {r : ChunkRange} (h : w.Promised source r) (hdone : w.AllDone) :
    w.Completed r := by
  obtain ⟨s, hs, hcompleted | ⟨i, t, ht, -, -, htrack⟩⟩ := h
  · exact ⟨s, hs, hcompleted⟩
  · obtain ⟨result, hresult⟩ := Task.done_iff.mp (hdone t (List.mem_of_getElem? ht))
    rw [hresult] at htrack
    exact htrack.elim

/-! ### Nothing is observed -/

theorem Unobserved.of_stats (h : w.Unobserved) (hstats : w'.stats = w.stats) : w'.Unobserved := by
  intro s cb
  rw [record, hstats]
  exact h s cb

/-- A turn of a download calls nobody. -/
theorem Unobserved.turn (h : w.Unobserved) {i : TaskId} {t : Task} {e : TaskEvent}
    (ht : w.tasks[i]? = some t) (hjob : t.job = .download) (hstep : w.taskStep i e = some w') :
    ∃ d, DownloadState.step ⟨t, w.record t.stats, w.files⟩ e = some (d, none) ∧
      w' = w.putDownload i d ∧ w'.Unobserved := by
  obtain ⟨d, cb, hd, hput⟩ := taskStep_download ht hjob hstep
  cases cb with
  | some cb => exact absurd (DownloadState.step_onLimit hd (Or.inr rfl)) (h _ cb)
  | none =>
      obtain rfl : w' = w.putDownload i d := hput
      refine ⟨d, hd, rfl, fun s cb hcb => ?_⟩
      rw [record_putDownload] at hcb
      split at hcb
      · exact h _ cb (DownloadState.step_onLimit hd (Or.inl hcb))
      · exact h s cb hcb

theorem stats_called (result : World × Progress) : (called result).1.stats = result.1.stats := by
  obtain ⟨w₁, progress⟩ := result
  cases progress <;> rfl

theorem stats_resumed (i : Nat) (result : World × Progress) :
    (resumed i result).1.stats = result.1.stats := by
  obtain ⟨w₁, progress⟩ := result
  cases progress <;> rfl

/-- A suspended call that goes on leaves the records alone. -/
theorem Living.stats_resume (hbuffer : 1 ≤ params.ioBufferSize)
    (h : w.Living source params recovered) {i : Nat} {ok : Bool} {f : Frame}
    (htasks : KeepsTasks w (.resume i ok)) (hf : w.calls[i]? = some f) {result : World × Progress}
    (hresume : w.resume params f ok = some result) : result.1.stats = w.stats := by
  have hframe := h.frames f (List.mem_of_getElem? hf)
  cases hmerge : f.isMerge with
  | false =>
      exact (h.sound.resume h.registered h.named hframe hmerge
        (fun r j thenDelete hcancel => entryDone_of_keepsTasks htasks hf hcancel) hresume).stats
  | true =>
      cases f with
      | merging stage cleanup =>
          obtain rfl := Option.some.inj hresume
          obtain ⟨files, -, ⟨stage', hround, -⟩ | ⟨reply, hround, -⟩⟩ :=
            mergeRound_sound hbuffer h.named h.sound hframe ok
          · rw [hround]
          · rw [hround]
      | _ => cases hmerge

/-- Chunks that are started without a resize have no observers. -/
theorem Unobserved.step (hbuffer : 1 ≤ params.ioBufferSize) (h : w.Unobserved)
    (hliving : w.Living source params recovered) {e : Event} {out : List Returned}
    (hlived : Lived source params w e) (hstep : SDownload.step params w e = some (w', out)) :
    w'.Unobserved := by
  obtain ⟨htasks, -, hused⟩ := hlived
  have hr := hliving.registered
  have hn := hliving.named
  cases e with
  | startChunk r speed =>
      obtain ⟨rfl, -⟩ := Prod.mk.inj (Option.some.inj hstep)
      unfold startChunk
      split
      · exact h
      split
      · exact h
      · intro s cb
        show ((w.registerChunkStats params r speed).record s).onLimit ≠ some cb
        rw [record_registerChunkStats]
        split
        · exact nofun
        · exact h s cb
  | cancelChunk r =>
      obtain ⟨rfl, -⟩ := Prod.mk.inj (Option.some.inj hstep)
      exact h.of_stats ((stats_called _).trans
        (cancelChunk_sound hr hn hliving.sound r false).stats)
  | deleteChunkData r =>
      obtain ⟨rfl, -⟩ := Prod.mk.inj (Option.some.inj hstep)
      exact h.of_stats ((stats_called _).trans (deleteChunkData_sound hr hn hliving.sound r).stats)
  | wait timed returnWhen =>
      obtain ⟨rfl, -⟩ := Prod.mk.inj (Option.some.inj hstep)
      have hkeeps : w.KeepsSound source params _ :=
        waitForChunks_sound hliving.sound timed returnWhen
      exact h.of_stats ((stats_called _).trans hkeeps.stats)
  | mergeChunks cleanup =>
      obtain ⟨rfl, -⟩ := Prod.mk.inj (Option.some.inj hstep)
      refine h.of_stats ((stats_called _).trans ?_)
      unfold mergeChunks
      split <;> rfl
  | resume i ok =>
      obtain ⟨f, result, hf, hresume, heq⟩ := step_resume hstep
      rw [show w' = (resumed i result).1 from (congrArg Prod.fst heq).symm]
      exact h.of_stats ((stats_resumed i _).trans
        (hliving.stats_resume hbuffer htasks hf hresume))
  | task i e =>
      obtain ⟨hturn, -⟩ := step_task hstep
      cases ht : w.tasks[i]? with
      | none => simp [taskStep, ht] at hturn
      | some t =>
          obtain ⟨-, -, -, hquiet⟩ := h.turn ht (hliving.sound.job i t ht) hturn
          exact hquiet
  | _ => exact hused.elim

/-- All tasks are done, and every byte of the file is in a completed chunk. -/
structure Complete (source : Bytes) (params : ChunkManagerParams) (recovered : List Stats)
    (w : World) : Prop where
  living : w.Living source params recovered
  calls : w.calls = []
  done : w.AllDone
  covered : ∀ x : Int, 0 ≤ x → x < source.length → ∃ r, r.Has x ∧ w.Completed r

/-- A merge is under way to which nothing has happened. -/
structure Merging (source : Bytes) (params : ChunkManagerParams) (recovered : List Stats)
    (w : World) : Prop where
  living : w.Living source params recovered
  done : w.AllDone
  stage : ∃ stage, w.calls = [.merging stage false] ∧ MergePlan.Sound stage

/-- **A round of the merge** brings it on, or is its last. -/
theorem Merging.step (hsize : params.fileSize = some (source.length : Int))
    (hsource : 0 < source.length) (hbuffer : 1 ≤ params.ioBufferSize)
    (h : w.Merging source params recovered) {e : Event} {out : List Returned}
    (hreliable : Reliable source w e) (hstep : SDownload.step params w e = some (w', out)) :
    (⟨.mergeChunks, .merged params.fileName⟩ ∈ out ∧
        w'.files.read params.fileName = some source) ∨
      w'.Merging source params recovered ∧
        (w'.calls.map (Frame.roundsLeft source.length)).sum <
          (w.calls.map (Frame.roundsLeft source.length)).sum := by
  obtain ⟨stage, hcalls, hsound⟩ := h.stage
  cases e with
  | task i e =>
      obtain ⟨hturn, -⟩ := step_task hstep
      rw [h.done.taskStep_none] at hturn
      cases hturn
  | resume i ok =>
      obtain rfl : ok = true := hreliable
      have hlived : Lived source params w (.resume i true) := by
        refine ⟨?_, nofun, trivial⟩
        unfold KeepsTasks
        rw [hcalls]
        cases i with
        | zero =>
            cases stage with
            | closing error => cases error <;> trivial
            | _ => trivial
        | succ i => trivial
      have hliving := (h.living.step hsize hsource hbuffer hlived hstep).1
      obtain ⟨f, result, hf, hresume, heq⟩ := step_resume hstep
      have hlt := (List.getElem?_eq_some_iff.mp hf).1
      rw [hcalls] at hf hlt
      obtain rfl : i = 0 := Nat.lt_one_iff.mp hlt
      obtain rfl : Frame.merging stage false = f := Option.some.inj hf
      obtain rfl := Option.some.inj hresume
      obtain ⟨-, plan, hdest, hinv, -⟩ := h.living.frames _ (hcalls ▸ List.mem_singleton_self _)
      rcases hround : mergeStep params.ioBufferSize params.fileName w.files true stage with
        ⟨files, next⟩
      have hplan := hround
      rw [← hdest] at hplan
      obtain ⟨-, hnext, hlast⟩ := hinv.round hbuffer hplan
      obtain ⟨hsound', hend⟩ := hinv.round_sound hsound hplan
      unfold mergeRound at heq
      rw [hround] at heq
      cases next with
      | inl stage' =>
          -- the merge goes on, with a round less to come
          obtain ⟨rfl, -⟩ := Prod.mk.inj heq
          refine Or.inr ⟨⟨hliving, h.done, stage', ?_, hsound' stage' rfl⟩, ?_⟩
          · show w.calls.set 0 _ = _
            rw [hcalls, List.set_cons_zero]
          · show ((w.calls.set 0 (Frame.merging stage' false)).map _).sum < _
            rw [hcalls, List.set_cons_zero]
            exact (hnext stage' rfl).2
      | inr error =>
          obtain rfl := hend error rfl
          obtain ⟨rfl, rfl⟩ := Prod.mk.inj heq
          exact Or.inl ⟨List.mem_singleton_self _, hdest ▸ hlast rfl⟩
  | _ => exact hreliable.elim

theorem Merging.goes (h : w.Merging source params recovered) :
    ∃ e w' out, Reliable source w e ∧ SDownload.step params w e = some (w', out) := by
  obtain ⟨stage, hcalls, -⟩ := h.stage
  have hstep : SDownload.step params w (.resume 0 true) =
      some (resumed 0 (w.mergeRound params stage false true)) := by
    simp only [SDownload.step, hcalls, List.getElem?_cons_zero, World.resume, Option.map_some]
  exact ⟨.resume 0 true, _, _, rfl, hstep⟩

end World

namespace World

variable {source : Bytes} {params : ChunkManagerParams} {recovered : List Stats} {w w' : World}

/-- `wait_for_completed_chunks` is the only call, and every byte is in a chunk that is promised. -/
structure Awaiting (source : Bytes) (params : ChunkManagerParams) (recovered : List Stats)
    (w : World) : Prop where
  living : w.Living source params recovered
  unobserved : w.Unobserved
  tables : w.TablesAgree
  calls : w.calls = [.waiting w.chunksTasks.values false .allCompleted]
  promised : ∀ x : Int, 0 ≤ x → x < source.length → ∃ r, r.Has x ∧ w.Promised source r

theorem Awaiting.waits (h : w.Awaiting source params recovered) :
    ∀ f ∈ w.calls, f.ofWait = true := by
  intro f hf
  rw [h.calls] at hf
  rw [List.mem_singleton.mp hf]
  rfl

theorem reliable_task {i : TaskId} {t : Task} {e : TaskEvent} (ht : w.tasks[i]? = some t)
    (h : Reliable source w (.task i e)) :
    DownloadState.Allowed (honestService source t.range) ⟨t, w.record t.stats, w.files⟩ e :=
  h.2 t ht

/-- A promise outlives a turn. -/
theorem Promised.turn (h : w.Living source params recovered) {i : TaskId} {t : Task}
    {e : TaskEvent} {d : DownloadState} (ht : w.tasks[i]? = some t)
    (hallowed : DownloadState.Allowed (honestService source t.range)
      ⟨t, w.record t.stats, w.files⟩ e)
    (hd : DownloadState.step ⟨t, w.record t.stats, w.files⟩ e = some (d, none)) {r : ChunkRange}
    (hp : w.Promised source r) : (w.putDownload i d).Promised source r := by
  have hlive := DownloadState.not_done_of_step hd
  obtain ⟨hget, hok, -⟩ := h.sound.live i t ht hlive
  have hentry := h.sound.entry _ _ hget
  have hlater := DownloadState.step_later hd
  have hstats : d.task.stats = t.stats := hlater.task.stats
  have hrange : d.task.range = t.range := hlater.task.range
  have hself : (w.putDownload i d).record t.stats = d.stats := by
    rw [record_putDownload, hstats, if_pos ⟨rfl, (h.registered.stats _ _ hget).1⟩]
  have hother : ∀ s, s ≠ t.stats → (w.putDownload i d).record s = w.record s := fun s hs => by
    rw [record_putDownload, if_neg fun hand => hs (hand.1.trans hstats)]
  obtain ⟨s, hs, hcompleted | ⟨j, t', ht', rfl, htrack⟩⟩ := hp
  · refine ⟨s, hs, Or.inl ?_⟩
    have hne : s ≠ t.stats := fun he =>
      DownloadState.not_completed (hok.running hlive) (he ▸ hcompleted)
    rw [hother s hne]
    exact hcompleted
  · refine ⟨s, hs, ?_⟩
    by_cases hj : j = i
    · subst hj
      obtain rfl : t = t' := Option.some.inj (ht.symm.trans ht')
      obtain rfl : t.stats = s := Option.some.inj (hget.symm.trans hs)
      have hsize : (w.record t.stats).fileSize =
          some ((t.range.bytesOf source).length : Int) := by
        rw [hentry.fileSize, hentry.inFile.length_bytesOf]
      rcases DownloadState.onTrack_step hok hsize htrack hallowed hd with htrack' | hdone
      · exact Or.inr ⟨j, d.task, List.getElem?_set_self (List.getElem?_eq_some_iff.mp ht).1,
          hrange, htrack'⟩
      · exact Or.inl (hself ▸ hdone)
    · exact Or.inr ⟨j, t', (List.getElem?_set_ne (Ne.symm hj)).trans ht', rfl, htrack⟩

/-- A turn takes from the turns and the bytes that are left. -/
theorem bytesLeft_turn {i : TaskId} {t : Task} {e : TaskEvent} {d : DownloadState}
    (ht : w.tasks[i]? = some t) (hpiece : e ≠ .piece [])
    (hallowed : DownloadState.Allowed (honestService source t.range)
      ⟨t, w.record t.stats, w.files⟩ e)
    (hd : DownloadState.step ⟨t, w.record t.stats, w.files⟩ e = some (d, none)) :
    (w.putDownload i d).bytesLeft source + e.isPiece.toNat ≤ w.bytesLeft source := by
  have hleft : d.task.bytesLeft source + e.isPiece.toNat ≤ t.bytesLeft source :=
    DownloadState.bytesLeft_step hallowed hpiece hd
  have hset : ((w.tasks.set i d.task).map (Task.bytesLeft source)).sum + t.bytesLeft source =
      w.bytesLeft source + d.task.bytesLeft source := sum_map_set ht d.task
  show ((w.tasks.set i d.task).map (Task.bytesLeft source)).sum + _ ≤ _
  omega

/-- Every entry of the tables is found. -/
theorem TablesAgree.waitCollects (h : w.TablesAgree) (allTasks : List TaskId) :
    ∃ w' completed, w.waitCollects allTasks = (w', .returned [⟨.wait, .batch completed⟩]) ∧
      w'.tasks = w.tasks ∧ w'.stats = w.stats ∧ w'.chunksStats = w.chunksStats ∧
        w'.calls = w.calls := by
  have hok : (w.chunksTasks.entries.filter fun e => e.2 ∈ allTasks ∧ w.TaskDone e.2).mapM
      (finishedStats { w with waitLocked := false }) =
        .ok ((w.chunksTasks.entries.filter fun e => e.2 ∈ allTasks ∧ w.TaskDone e.2).map
          fun e => (w.chunksStats.get? e.1).getD 0) := by
    refine Except.mapM_ok_of_forall fun entry hentry => ?_
    have hkey : entry.1 ∈ w.chunksTasks.keys :=
      List.mem_map_of_mem (List.mem_filter.mp hentry).1
    obtain ⟨s, hs⟩ := Dict.mem_keys_iff.mp (h _ hkey)
    unfold finishedStats
    dsimp only
    rw [hs, Option.getD_some]
  unfold World.waitCollects
  dsimp only
  rw [hok]
  exact ⟨_, _, rfl, rfl, rfl, rfl, rfl⟩

/-- A wait for all tasks is over when all are done. -/
theorem Awaiting.done (h : w.Awaiting source params recovered)
    (hover : w.WaitOver w.chunksTasks.values false .allCompleted) : w.AllDone := by
  rw [allDone_iff]
  intro i t ht
  by_contra hlive
  have hentry := h.living.registered.live i t ht hlive
  obtain ⟨t', ht', hdone⟩ := taskDone_iff.mp
    (hover.resolve_left nofun i (Dict.mem_values_iff.mpr ⟨_, hentry⟩))
  obtain rfl : t = t' := Option.some.inj (ht.symm.trans ht')
  exact hlive hdone

/-- A turn of a download brings the wait on. -/
theorem Awaiting.turn (hsize : params.fileSize = some (source.length : Int))
    (hsource : 0 < source.length) (hbuffer : 1 ≤ params.ioBufferSize)
    (h : w.Awaiting source params recovered) {i : TaskId} {e : TaskEvent} {out : List Returned}
    (hreliable : Reliable source w (.task i e))
    (hstep : SDownload.step params w (.task i e) = some (w', out)) :
    w'.Awaiting source params recovered ∧
      w'.budget + 4 * w'.bytesLeft source < w.budget + 4 * w.bytesLeft source := by
  have hmerge : w.NoMerge := by
    intro f hf
    rw [h.calls] at hf
    rw [List.mem_singleton.mp hf]
    rfl
  obtain ⟨hturn, -⟩ := step_task hstep
  obtain ⟨-, hbudget⟩ := budget_step hmerge rfl hstep
  cases ht : w.tasks[i]? with
  | none => simp [taskStep, ht] at hturn
  | some t =>
      have hallowed := reliable_task ht hreliable
      have hlived : Lived source params w (.task i e) := by
        refine ⟨trivial, fun _ hnew => (by cases hnew), fun t' ht' => ?_⟩
        obtain rfl : t = t' := Option.some.inj (ht.symm.trans ht')
        exact ⟨hallowed.unsteady, hallowed.leavesFront⟩
      have hliving := (h.living.step hsize hsource hbuffer hlived hstep).1
      obtain ⟨d, hd, rfl, hquiet⟩ := h.unobserved.turn ht (h.living.sound.job i t ht) hturn
      have hbytes := bytesLeft_turn ht hreliable.1 hallowed hd
      have hcost : (Event.task i e).cost = 4 * e.isPiece.toNat := by
        cases e <;> rfl
      refine ⟨⟨hliving, hquiet, h.tables, h.calls, fun x h0 hx => ?_⟩, by omega⟩
      obtain ⟨r, hhas, hp⟩ := h.promised x h0 hx
      exact ⟨r, hhas, hp.turn h.living ht hallowed hd⟩

/-- The wait goes on only to return, and then every byte is in a chunk that is completed. -/
theorem Awaiting.returns (hsize : params.fileSize = some (source.length : Int))
    (hsource : 0 < source.length) (hbuffer : 1 ≤ params.ioBufferSize)
    (h : w.Awaiting source params recovered) {i : Nat} {ok : Bool} {out : List Returned}
    (hstep : SDownload.step params w (.resume i ok) = some (w', out)) :
    (∃ completed, ⟨.wait, .batch completed⟩ ∈ out) ∧ w'.Complete source params recovered := by
  obtain ⟨f, result, hf, hresume, heq⟩ := step_resume hstep
  have hlived : Lived source params w (.resume i ok) :=
    ⟨keepsTasks_of_waits h.waits i ok, fun _ hnew => (by cases hnew), trivial⟩
  have hliving := (h.living.step hsize hsource hbuffer hlived hstep).1
  have hlt := (List.getElem?_eq_some_iff.mp hf).1
  rw [h.calls] at hf hlt
  obtain rfl : i = 0 := Nat.lt_one_iff.mp hlt
  obtain rfl : Frame.waiting w.chunksTasks.values false .allCompleted = f := Option.some.inj hf
  unfold World.resume at hresume
  dsimp only at hresume
  split at hresume
  · rename_i hover
    obtain rfl := Option.some.inj hresume
    obtain ⟨w₁, completed, hcollects, htasks, hstats, hchunks, hcalls⟩ :=
      h.tables.waitCollects w.chunksTasks.values
    rw [hcollects] at heq
    obtain ⟨rfl, rfl⟩ := Prod.mk.inj heq
    have hdone : w₁.AllDone := by
      intro t ht
      rw [htasks] at ht
      exact h.done hover t ht
    refine ⟨⟨completed, List.mem_singleton_self _⟩, hliving, ?_, hdone, fun x h0 hx => ?_⟩
    · show w₁.calls.eraseIdx 0 = []
      rw [hcalls, h.calls]
      rfl
    · obtain ⟨r, hhas, hp⟩ := h.promised x h0 hx
      obtain ⟨s, hs, hstatus⟩ := hp.completed (h.done hover)
      refine ⟨r, hhas, s, ?_, ?_⟩
      · show w₁.chunksStats.get? r = some s
        rw [hchunks]
        exact hs
      · show (w₁.stats.getD s default).status = _
        rw [hstats]
        exact hstatus
  · cases hresume

/-- **One step of the wait** brings it on, or is its end. -/
theorem Awaiting.step (hsize : params.fileSize = some (source.length : Int))
    (hsource : 0 < source.length) (hbuffer : 1 ≤ params.ioBufferSize)
    (h : w.Awaiting source params recovered) {e : Event} {out : List Returned}
    (hreliable : Reliable source w e) (hstep : SDownload.step params w e = some (w', out)) :
    ((∃ completed, ⟨.wait, .batch completed⟩ ∈ out) ∧ w'.Complete source params recovered) ∨
      w'.Awaiting source params recovered ∧
        w'.budget + 4 * w'.bytesLeft source < w.budget + 4 * w.bytesLeft source := by
  cases e with
  | task i e => exact Or.inr (h.turn hsize hsource hbuffer hreliable hstep)
  | resume i ok => exact Or.inl (h.returns hsize hsource hbuffer hstep)
  | _ => exact hreliable.elim

/-- **Something goes on** until the wait returns. -/
theorem Awaiting.goes (h : w.Awaiting source params recovered) :
    ∃ e w' out, Reliable source w e ∧ SDownload.step params w e = some (w', out) := by
  by_cases hover : w.WaitOver w.chunksTasks.values false .allCompleted
  · have hstep : SDownload.step params w (.resume 0 true) =
        some (resumed 0 (w.waitCollects w.chunksTasks.values)) := by
      simp only [SDownload.step, h.calls, List.getElem?_cons_zero, World.resume, if_pos hover,
        Option.map_some]
    exact ⟨.resume 0 true, _, _, rfl, hstep⟩
  · -- a task of the table still runs
    obtain ⟨i, hi, hruns⟩ : ∃ i ∈ w.chunksTasks.values, ¬ w.TaskDone i := by
      by_contra hnone
      push Not at hnone
      exact hover (Or.inr hnone)
    obtain ⟨r, hentry⟩ := Dict.mem_values_iff.mp hi
    obtain ⟨t, ht, -⟩ := h.living.registered.entry r i hentry
    have hlive : ¬ t.Done := fun hd => hruns (taskDone_iff.mpr ⟨t, ht, hd⟩)
    obtain ⟨-, hok, -⟩ := h.living.sound.live i t ht hlive
    obtain ⟨e, hpiece, hallowed, hsome⟩ :=
      DownloadState.exists_reliable_step (d := ⟨t, w.record t.stats, w.files⟩) hok hlive
    have hturn : (w.taskStep i e).isSome = true := by
      obtain ⟨⟨d, cb⟩, hd⟩ := Option.isSome_iff_exists.mp hsome
      unfold taskStep
      simp only [ht, h.living.sound.job i t ht, hd, Option.isSome_some]
    obtain ⟨w', hw'⟩ := Option.isSome_iff_exists.mp hturn
    refine ⟨.task i e, w', [], ⟨hpiece, fun t' ht' => ?_⟩, ?_⟩
    · obtain rfl : t = t' := Option.some.inj (ht.symm.trans ht')
      exact hallowed
    · show (w.taskStep i e).map (fun w => (w, [])) = _
      rw [hw']
      rfl

end World

end SDownload
