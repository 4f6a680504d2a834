import SDownload.Manager.Links

/-!
# SDownload.Manager.Splitting

Work stealing: a chunk is cut in two, the first part taken over from what it has
downloaded and the second one downloaded anew.

`ChunkSplit` is such a cut and `UsedToSplit` the runs in which it is made once, by one
`resize_chunk` and one `start_chunk`, among other chunks and other splits. Whatever the
moment of the resize, both parts end complete and exact and nothing is left of the
chunk (`work_stealing_exact`).

The invariant of such runs, `Splits`, says for each of the three ranges what its task
is at. A task of another range leaves all of it alone (`Untouched`): it has other
records, and the file it has open is none of the three (`Apart`).
-/

namespace SDownload

/-! ### The cut -/

/-- A chunk of a file of `fileSize` bytes, cut after its byte `last`. -/
structure ChunkSplit (fileSize : Int) where
  whole : ChunkRange
  last : Int
  inFile : whole.InFile fileSize
  start_le_last : whole.start ≤ last
  last_lt_stop : last + 1 < whole.stop fileSize

namespace ChunkSplit

variable {fileSize : Int} (split : ChunkSplit fileSize)

/-- The part that is taken over. -/
def kept : ChunkRange := ⟨split.whole.start, some split.last⟩

/-- The part that is downloaded anew. -/
def rest : ChunkRange := ⟨split.last + 1, split.whole.endByte⟩

/-- The number of bytes that are taken over. -/
def limit : Int := split.last - split.whole.start + 1

def Names (r : ChunkRange) : Prop := r = split.whole ∨ r = split.kept ∨ r = split.rest

instance (r : ChunkRange) : Decidable (split.Names r) :=
  inferInstanceAs (Decidable (_ ∨ _ ∨ _))

theorem limit_pos : 0 < split.limit := by
  have hle := split.start_le_last
  unfold limit
  omega

theorem limit_lt : split.limit < split.whole.stop fileSize - split.whole.start := by
  have hlt := split.last_lt_stop
  unfold limit
  omega

theorem kept_inFile : split.kept.InFile fileSize := by
  have hin := split.inFile
  have hlast := split.last_lt_stop
  have hstop := hin.stop_le
  refine ⟨hin.start_nonneg, hin.start_lt, fun e he => ?_, fun e he => ?_⟩
  · obtain rfl := Option.some.inj he
    exact split.start_le_last
  · obtain rfl := Option.some.inj he
    omega

theorem rest_inFile : split.rest.InFile fileSize := by
  have hin := split.inFile
  have hlast := split.last_lt_stop
  have hstart := split.start_le_last
  have hstop := hin.stop_le
  have hnonneg := hin.start_nonneg
  refine ⟨?_, ?_, fun e he => ?_, hin.end_lt⟩
  · show 0 ≤ split.last + 1
    omega
  · show split.last + 1 < fileSize
    omega
  · have he' : split.whole.endByte = some e := he
    rw [ChunkRange.stop, he'] at hlast
    show split.last + 1 ≤ e
    exact Int.lt_add_one_iff.mp hlast

theorem kept_ne_whole : split.kept ≠ split.whole := by
  intro he
  have hlast := split.last_lt_stop
  rw [ChunkRange.stop, ← he] at hlast
  exact absurd hlast (lt_irrefl _)

theorem contains_rest : split.whole.contains split.rest = true := by
  have hle := split.start_le_last
  have hin := split.rest_inFile
  unfold ChunkRange.contains
  rw [if_neg (by show ¬ split.last + 1 < _; omega)]
  cases he : split.whole.endByte with
  | none => rw [show split.rest.endByte = none from he]
  | some e =>
      have hend : split.rest.endByte = some e := he
      have hlast := hin.start_le_end e hend
      rw [hend]
      simp [not_lt.mpr hlast]

theorem rest_ne_whole : split.rest ≠ split.whole := by
  intro he
  have hstart : split.last + 1 = split.whole.start := congrArg ChunkRange.start he
  have hle := split.start_le_last
  omega

theorem rest_ne_kept : split.rest ≠ split.kept := by
  intro he
  have hstart : split.last + 1 = split.whole.start := congrArg ChunkRange.start he
  have hle := split.start_le_last
  omega

end ChunkSplit

/-- The steps of an honest run with the split in it. Each of its ranges is registered once, and
other resizes are about other ranges. -/
def UsedToSplit {source : Bytes} (split : ChunkSplit source.length) (w : World) (e : Event) :
    Prop :=
  UsedHonestly source w e ∧
    match e with
    | .startChunk r _ => split.Names r → r ≠ split.kept ∧ r ∉ w.chunksStats.keys
    | .resizeChunk currentRange newRange =>
        currentRange = split.whole ∧ newRange = split.kept ∨
          ¬ split.Names currentRange ∧ ¬ split.Names newRange
    | _ => True

instance {source : Bytes} (split : ChunkSplit source.length) (w : World) (e : Event) :
    Decidable (UsedToSplit split w e) := by
  delta UsedToSplit
  induction e using Event.casesOn <;> infer_instance

/-! ### A turn of a download -/

/-- Somebody has asked the download to stop. -/
def Task.Stopped (t : Task) : Prop :=
  t.cancelRequested = true ∨
    match t.phase with
    | .closing _ _ .cancelled | .done .cancelled => True
    | _ => False

namespace DownloadState

variable {d d' : DownloadState}

theorem finish_stopped {end_ : TaskEnd} (h : (d.finish end_).task.Stopped) :
    d.task.cancelRequested = true ∨ end_ = .cancelled := by
  cases end_ with
  | returned =>
      unfold finish at h
      dsimp only at h
      split at h
      · split at h <;> exact Or.inl (h.resolve_right id)
      · exact Or.inl (h.resolve_right id)
  | cancelled => exact Or.inr rfl
  | failed e => exact Or.inl (h.resolve_right id)

/-- No turn of a download is what stops it. -/
theorem stopped_of_step {e : TaskEvent} {called : Option StopCallback}
    (hstep : d.step e = some (d', called)) (hstopped : d'.task.Stopped) : d.task.Stopped := by
  unfold step at hstep
  split at hstep
  · rename_i hrequested
    exact Or.inl hrequested
  · cases hstep
  · rename_i hrequested
    have hnot : ∀ {t : Task}, t.cancelRequested = d.task.cancelRequested →
        t.cancelRequested ≠ true := fun ht => by rw [ht, hrequested]; simp
    unfold run at hstep
    split at hstep <;> first | cases hstep; done | rename_i hphase
    all_goals obtain ⟨rfl, -⟩ := Prod.mk.inj (Option.some.inj hstep)
    · exact (hstopped.resolve_left (hnot rfl)).elim
    · exact (hstopped.resolve_left (hnot rfl)).elim
    · obtain hr | hr := finish_stopped hstopped
      · refine absurd hr (hnot ?_)
        split <;> rfl
      · cases hr
    · exact (hstopped.resolve_left (hnot rfl)).elim
    · exact (hstopped.resolve_left (hnot rfl)).elim
    · exact (hstopped.resolve_left (hnot rfl)).elim
    · exact (hstopped.resolve_left (hnot rfl)).elim
    · refine (hstopped.resolve_left (hnot ?_)).elim
      show (d.leave _ _).task.cancelRequested = _
      rw [leave_task]
    · obtain hr | rfl := finish_stopped hstopped
      · exact absurd hr (hnot rfl)
      · exact Or.inr (by simp only [hphase])
    · obtain hr | hr := finish_stopped hstopped
      · exact absurd hr (hnot (congrArg Task.cancelRequested (leave_task ..)))
      · cases hr

/-- **The limit** is only taken away, by the turn that calls its callback. -/
theorem step_limit {e : TaskEvent} {called : Option StopCallback}
    (hstep : d.step e = some (d', called)) :
    d'.stats.limitQtBytes = d.stats.limitQtBytes ∧
      (d'.stats.limited = true → d.stats.limited = true) ∧
        (called.isSome = true → d.stats.limited = true ∧
          d.stats.limitQtBytes ≤ d'.stats.bytesDownloaded) := by
  obtain ⟨data, hcount⟩ | ⟨rfl, status, lastError, hstats⟩ := step_record hstep
  · unfold ChunkDownloadStats.addQtBytesDownloaded at hcount
    dsimp only at hcount
    split at hcount
    · rename_i hlimited
      split at hcount <;> obtain ⟨hstats, rfl⟩ := Prod.mk.inj hcount <;> rw [hstats]
      · rename_i hle
        exact ⟨rfl, fun _ => hlimited, fun _ => ⟨hlimited, hle⟩⟩
      · exact ⟨rfl, fun _ => hlimited, by simp⟩
    · obtain ⟨hstats, rfl⟩ := Prod.mk.inj hcount
      rw [hstats]
      exact ⟨rfl, id, by simp⟩
  · rw [hstats]
    exact ⟨rfl, id, by simp⟩

/-- What a turn does to the files, and to what is open: nothing, it opens the download's own file,
or it writes to the one that is open. -/
inductive FileEffect (d d' : DownloadState) : Prop
  | leaves (files : d'.files = d.files)
      (handle : ∀ file ∈ d'.task.file, ∃ file₀ ∈ d.task.file, file.ino = file₀.ino)
  | opens (files : d'.files = (d.files.openWrite d.stats.chunkFileName).2)
      (handle : ∀ file ∈ d'.task.file, file.ino = (d.files.openWrite d.stats.chunkFileName).1)
  | writes {file₀ : Handle} {bytes : Bytes} (before : d.task.file = some file₀)
      (files : d'.files = d.files.overwrite file₀.ino bytes)
      (handle : ∀ file ∈ d'.task.file, file.ino = file₀.ino)

theorem file_finish (end_ : TaskEnd) : (d.finish end_).task.file = none := by
  obtain ⟨r, hr⟩ := d.finish_task end_
  simp only [Task.file, hr]

theorem finish_fileEffect {d₀ : DownloadState} (end_ : TaskEnd) (hfiles : d₀.files = d.files) :
    FileEffect d (d₀.finish end_) :=
  .leaves ((finish_files _ _).trans hfiles) (by simp [file_finish])

theorem step_fileEffect {e : TaskEvent} {called : Option StopCallback}
    (hstep : d.step e = some (d', called)) : FileEffect d d' := by
  unfold step at hstep
  split at hstep
  · rename_i effect _
    obtain ⟨d'', hcancel, heq⟩ := Option.map_eq_some_iff.mp hstep
    obtain ⟨rfl, -⟩ := Prod.mk.inj heq
    unfold cancel at hcancel
    dsimp only at hcancel
    split at hcancel <;> first | cases hcancel; done | rename_i hphase
    all_goals obtain rfl := Option.some.inj hcancel
    · exact .leaves rfl (by simp [Task.file, enter])
    · cases effect with
      | none => exact finish_fileEffect _ rfl
      | some bytes => exact .opens (finish_files _ _) (by simp [file_finish])
    · exact .leaves rfl (by simp [Task.file, enter, hphase])
    · exact .writes (by simp only [Task.file, hphase]) rfl (by simp [Task.file, enter])
    · exact .leaves rfl (by simp [Task.file, enter, hphase])
  · cases hstep
  · unfold run at hstep
    split at hstep <;> first | cases hstep; done | rename_i hphase
    all_goals obtain ⟨rfl, -⟩ := Prod.mk.inj (Option.some.inj hstep)
    · exact .leaves rfl (by simp [Task.file])
    · exact .opens rfl fun file hfile => (Option.some.inj hfile) ▸ rfl
    · rename_i effect
      cases effect with
      | none => exact finish_fileEffect _ rfl
      | some bytes => exact .opens (finish_files _ _) (by simp [file_finish])
    · exact .leaves rfl (by simp [Task.file, enter, hphase])
    · exact .leaves rfl (by simp [Task.file, enter, hphase])
    · exact .leaves rfl (by simp [Task.file, enter, hphase])
    · exact .writes (by simp only [Task.file, hphase]) rfl (by simp [Task.file, enter])
    · rename_i effect
      cases effect with
      | none => exact .leaves rfl (by simp [Task.file, enter, hphase])
      | some bytes =>
          exact .writes (by simp only [Task.file, hphase]) rfl (by simp [Task.file, enter, leave])
    · exact finish_fileEffect _ rfl
    · rename_i effect
      cases effect with
      | none => exact finish_fileEffect _ rfl
      | some bytes =>
          exact .writes (by simp only [Task.file, hphase]) (finish_files _ _)
            (by simp [file_finish])

end DownloadState

namespace World

variable {source : Bytes} {params : ChunkManagerParams} {split : ChunkSplit source.length}
  {w w' : World}

/-! ### Who is about the split -/

/-- Which tasks and records are about the three ranges. -/
structure SplitLinked (params : ChunkManagerParams) (split : ChunkSplit source.length) (w : World) :
    Prop extends w.Linked source params where
  stops : ∀ s cb, (w.record s).onLimit = some cb →
    ∀ k ∈ cb.predecessorTask, ∃ t, w.tasks[k]? = some t ∧ t.range = (w.record s).range
  successors : ∀ (i : TaskId) (t : Task) (p : StatsId) (k : Option TaskId), w.tasks[i]? = some t →
    t.job = .succession p k →
      (w.record p).range = split.whole ∧ t.range = split.kept ∨
        ¬ split.Names (w.record p).range ∧ ¬ split.Names t.range
  keptJob : ∀ (i : TaskId) (t : Task), w.tasks[i]? = some t → t.range = split.kept →
    t.job ≠ .download
  named : ∀ (i : TaskId) (t : Task), w.tasks[i]? = some t → split.Names t.range →
    w.chunksStats.get? t.range = some t.stats
  tasked : ∀ s < w.stats.length, ∃ (i : TaskId) (t : Task), w.tasks[i]? = some t ∧ t.stats = s

theorem splitLinked_init (params : ChunkManagerParams) (split : ChunkSplit source.length)
    (files : Files) : (World.init files []).SplitLinked params split := by
  refine ⟨linked_init source params files, fun s cb hcb => ?_, ?_, ?_, ?_, ?_⟩
  · simp [World.init, record, default] at hcb
  all_goals simp [World.init]

/-- Each of the three ranges has one task. -/
theorem SplitLinked.unique (h : w.SplitLinked params split) {i j : TaskId} {t t' : Task}
    (ht : w.tasks[i]? = some t) (ht' : w.tasks[j]? = some t') (hname : split.Names t.range)
    (hrange : t'.range = t.range) : j = i := by
  have hstats := h.named i t ht hname
  rw [← hrange, h.named j t' ht' (hrange ▸ hname)] at hstats
  exact h.own j i t' t ht' ht (Option.some.inj hstats)

/-- The record of a range has its task. -/
theorem SplitLinked.task_of_entry (h : w.SplitLinked params split) {r : ChunkRange} {s : StatsId}
    (hs : w.chunksStats.get? r = some s) :
    ∃ (i : TaskId) (t : Task), w.tasks[i]? = some t ∧ t.range = r ∧ t.stats = s := by
  obtain ⟨hlt, hrange⟩ := h.registered.stats r s hs
  obtain ⟨i, t, ht, rfl⟩ := h.tasked s hlt
  exact ⟨i, t, ht, (h.task i t ht).2.symm.trans hrange, rfl⟩

theorem SplitLinked.evolves (h : w.SplitLinked params split) (hlinked : w'.Linked source params)
    (hev : w.Evolves w')
    (honLimit : ∀ s cb, (w'.record s).onLimit = some cb → (w.record s).onLimit = some cb) :
    w'.SplitLinked params split := by
  refine ⟨hlinked, fun s cb hcb k hk => ?_, fun i t' p k ht' hjob => ?_, fun i t' ht' hrange => ?_,
    fun i t' ht' hname => ?_, fun s hs => ?_⟩
  · obtain ⟨t, ht, hrange⟩ := h.stops s cb (honLimit s cb hcb) k hk
    obtain ⟨t', ht', hl⟩ := hev.task k t ht
    exact ⟨t', ht', by rw [hl.range, hrange, (hev.record s).range]⟩
  · obtain ⟨t, ht, hl⟩ := hev.task_of ht'
    rw [(hev.record p).range, hl.range]
    exact h.successors i t p k ht (hl.job ▸ hjob)
  · obtain ⟨t, ht, hl⟩ := hev.task_of ht'
    rw [hl.job]
    exact h.keptJob i t ht (hl.range ▸ hrange)
  · obtain ⟨t, ht, hl⟩ := hev.task_of ht'
    rw [hev.chunksStats, hl.range, hl.stats]
    exact h.named i t ht (hl.range ▸ hname)
  · obtain ⟨i, t, ht, rfl⟩ := h.tasked s (hev.numStats ▸ hs)
    obtain ⟨t', ht', hl⟩ := hev.task i t ht
    exact ⟨i, t', ht', hl.stats⟩

theorem SplitLinked.collects (h : w.SplitLinked params split) (hlinked : w'.Linked source params)
    (hcollects : w.Collects w') : w'.SplitLinked params split := by
  have hrecord : ∀ s, w'.record s = w.record s := fun s => by
    rw [record, record, hcollects.stats]
  constructor
  · exact hlinked
  all_goals simp only [hrecord, hcollects.tasks, hcollects.stats, hcollects.chunksStats]
  · exact h.stops
  · exact h.successors
  · exact h.keptJob
  · exact h.named
  · exact h.tasked

/-- Registering a chunk of another range, or one of the three for the first time. -/
theorem SplitLinked.grows (h : w.SplitLinked params split) (hlinked : w'.Linked source params)
    {r : ChunkRange} {job : Job} {status : EDownloadStatus} (hcreates : w.Creates params w' r job)
    (hgrows : w.Grows params w' r status)
    (hstops : ∀ s < w.stats.length, ∀ cb, (w'.record s).onLimit = some cb →
      ∀ k ∈ cb.predecessorTask, ∃ t, w.tasks[k]? = some t ∧ t.range = (w.record s).range)
    (hnew : split.Names r → r ∉ w.chunksStats.keys)
    (hdownload : job = .download → r ≠ split.kept)
    (hsuccession : ∀ p k, job = .succession p k → p < w.stats.length ∧
      ((w.record p).range = split.whole ∧ r = split.kept ∨
        ¬ split.Names (w.record p).range ∧ ¬ split.Names r)) :
    w'.SplitLinked params split := by
  obtain ⟨speed, hfresh⟩ := hgrows.fresh
  refine ⟨hlinked, fun s cb hcb k hk => ?_, fun i t' p k ht' hjob => ?_, fun i t' ht' hrange => ?_,
    fun i t' ht' hname => ?_, fun s hs => ?_⟩
  · rcases Nat.lt_or_ge s w.stats.length with hs | hs
    · obtain ⟨t, ht, hrange⟩ := hstops s hs cb hcb k hk
      obtain ⟨t', ht', hl⟩ := hcreates.task k t ht
      exact ⟨t', ht', by rw [hl.range, hrange, hcreates.range hs]⟩
    · -- the new record has no callback
      obtain rfl | hlt := hs.eq_or_lt
      · rw [hfresh] at hcb
        cases hcb
      · rw [record_of_length_le (by rw [hcreates.numStats]; exact hlt)] at hcb
        cases hcb
  · rcases hcreates.task_of ht' with ⟨t, ht, hl⟩ | ⟨-, rfl⟩
    · have hp := (h.succession i t p k ht (hl.job ▸ hjob)).predecessor
      rw [hcreates.range hp, hl.range]
      exact h.successors i t p k ht (hl.job ▸ hjob)
    · obtain ⟨hp, hor⟩ := hsuccession p k hjob
      rw [hcreates.range hp]
      exact hor
  · rcases hcreates.task_of ht' with ⟨t, ht, hl⟩ | ⟨-, rfl⟩
    · rw [hl.job]
      exact h.keptJob i t ht (hl.range ▸ hrange)
    · exact fun hjob => hdownload hjob hrange
  · rw [hcreates.chunksStats, Dict.get?_set]
    rcases hcreates.task_of ht' with ⟨t, ht, hl⟩ | ⟨-, rfl⟩
    · rw [hl.range] at hname ⊢
      obtain ⟨hlt, hrange⟩ := h.task i t ht
      rw [if_neg, hl.stats]
      · exact h.named i t ht hname
      · rintro rfl
        exact hnew hname (hrange ▸ (h.stats _ hlt).2.1)
    · rw [if_pos rfl]
  · rcases hcreates.lt_or_eq hs with hs | rfl
    · obtain ⟨i, t, ht, rfl⟩ := h.tasked s hs
      obtain ⟨t', ht', hl⟩ := hcreates.task i t ht
      exact ⟨i, t', ht', hl.stats⟩
    · exact ⟨_, _, hcreates.newTask, rfl⟩

/-- A step of a run with the split keeps who is about it. -/
theorem SplitLinked.step (h : w.SplitLinked params split) {e : Event} {out : List Returned}
    (hused : UsedToSplit split w e) (hstep : SDownload.step params w e = some (w', out)) :
    w'.SplitLinked params split := by
  obtain ⟨hhonest, hsplit⟩ := hused
  have hlinked := h.toLinked.step hhonest hstep
  cases (h.honestStep hhonest hstep).1 with
  | collects hcollects => exact h.collects hlinked hcollects
  | started hin hfree hkey hstarted =>
      refine h.grows hlinked hstarted.toCreates hstarted.toGrows (fun s hs cb hcb => ?_)
        (fun hname => (hsplit hname).2) (fun _ he => (hsplit (Or.inr (Or.inl he))).1 he)
        (fun p k hjob => by cases hjob)
      rw [hstarted.same s hs] at hcb
      exact h.stops s cb hcb
  | @resized currentRange newRange e a _ hbounded hnew hresizes htable hresized =>
      obtain ⟨hlt, hrange⟩ := h.registered.stats _ _ htable
      refine h.grows hlinked hresized.toCreates hresized.toGrows (fun s hs cb hcb => ?_)
        (fun _ => hnew) (fun hjob => by cases hjob) (fun p k hjob => ?_)
      · by_cases hsa : s = a
        · subst hsa
          have honLimit := observed_onLimit w s (e - currentRange.start + 1)
            ⟨s, w.chunksTasks.get? currentRange⟩
          rw [hresized.predecessor] at hcb
          obtain ⟨heq, -⟩ | ⟨-, heq | heq⟩ := honLimit <;> rw [heq] at hcb
          · exact h.stops s cb hcb
          · exact h.stops s cb hcb
          · obtain rfl := Option.some.inj hcb
            intro k hk
            obtain ⟨t, ht, htrange⟩ := h.registered.entry _ _ hk
            exact ⟨t, ht, htrange.trans hrange.symm⟩
        · rw [hresized.other s hs hsa] at hcb
          exact h.stops s cb hcb
      · obtain ⟨rfl, rfl⟩ := Job.succession.inj hjob
        rw [hrange]
        exact ⟨hlt, hsplit⟩
  | turn ht hturnHonest hturn =>
      refine h.evolves hlinked (taskStep_evolves hturn) fun s cb hcb => ?_
      unfold HonestTurn at hturnHonest
      split at hturnHonest
      · rename_i hjob
        exact h.onLimit_download ht hjob hturn hcb
      · rename_i hjob
        exact h.onLimit_succession ht hjob hturnHonest hturn hcb

end World

/-- A succession that has begun to take its predecessor's file over, or has ended. -/
def Task.Cropped (t : Task) : Prop :=
  match t.phase with
  | .moving _ _ | .done _ => True
  | _ => False

namespace World

variable {source : Bytes} {params : ChunkManagerParams} {split : ChunkSplit source.length}
  {w w' : World}

/-! ### What the three tasks are at -/

/-- A download that is stopped only when `limit` bytes have come, if there is a limit at all. -/
structure Fetches (source : Bytes) (limit : Option Int) (w : World) (t : Task) : Prop where
  ok : DownloadState.Ok (honestService source t.range) ⟨t, w.record t.stats, w.files⟩
  stopped : t.Stopped → ∃ l ∈ limit, l ≤ (w.record t.stats).bytesDownloaded
  observed : (w.record t.stats).limited = true ∨ (w.record t.stats).limitQtBytes ≠ 0 →
    limit = some (w.record t.stats).limitQtBytes

/-- A succession from the chunk to its kept part, at each of its `await`s and at its end. -/
def KeptOk (params : ChunkManagerParams) (split : ChunkSplit source.length) (w : World) (t : Task)
    (p : StatsId) : Phase → Prop
  | .created => (w.record t.stats).status = .awaitingSuccession
  | .awaitingPredecessor => True
  | .cropping startCrop endCrop => startCrop = 0 ∧ endCrop = split.limit - 1
  | .moving startCrop endCrop => startCrop = 0 ∧ endCrop = split.limit - 1 ∧
      w.files.read (formatChunkFileName split.whole params.fileName) =
        some (split.kept.bytesOf source)
  | .done _ => (w.record p).status = .deprecated ∧ (w.record t.stats).status = .completed ∧
      (w.record t.stats).bytesDownloaded = split.limit ∧
      w.files.read (formatChunkFileName split.kept params.fileName) =
        some (split.kept.bytesOf source) ∧
      w.files.lookup (formatChunkFileName split.whole params.fileName) = none
  | _ => False

/-- The file the task has open is none of the three, but perhaps its own. -/
def Apart (params : ChunkManagerParams) (split : ChunkSplit source.length) (files : Files)
    (t : Task) : Prop :=
  ∀ file ∈ t.file, file.ino < files.contents.length ∧
    ∀ r, split.Names r → r ≠ t.range →
      files.lookup (formatChunkFileName r params.fileName) ≠ some file.ino

/-- The invariant of runs with the split. -/
structure Splits (params : ChunkManagerParams) (split : ChunkSplit source.length) (w : World) :
    Prop extends w.SplitLinked params split where
  apart : ∀ (i : TaskId) (t : Task), w.tasks[i]? = some t → Apart params split w.files t
  whole : ∀ (i : TaskId) (t : Task), w.tasks[i]? = some t → t.range = split.whole →
    (∀ (j : TaskId) (t' : Task), w.tasks[j]? = some t' → t'.range = split.kept → ¬ t'.Cropped) →
      w.Fetches source (some split.limit) t
  rest : ∀ (i : TaskId) (t : Task), w.tasks[i]? = some t → t.range = split.rest →
    w.Fetches source none t
  kept : ∀ (i : TaskId) (t : Task) (p : StatsId) (k : Option TaskId), w.tasks[i]? = some t →
    t.range = split.kept → t.job = .succession p k → w.KeptOk params split t p t.phase
  ended : ∀ (i j : TaskId) (t t' : Task), w.tasks[i]? = some t → w.tasks[j]? = some t' →
    t.range = split.kept → t.Cropped → t'.range = split.whole → t'.Done

/-! ### Ranges that a step is not about -/

/-- The task, the records and the file of a range are as they were. -/
structure Untouched (params : ChunkManagerParams) (w w' : World) (r : ChunkRange) : Prop where
  task : ∀ (i : TaskId) (t : Task), t.range = r → (w'.tasks[i]? = some t ↔ w.tasks[i]? = some t)
  record : ∀ s < w.stats.length, (w.record s).range = r → w'.record s = w.record s
  file : SameFile w.files w'.files (formatChunkFileName r params.fileName)

theorem Untouched.fetches {t : Task} (h : w.Untouched params w' t.range)
    (hlinked : w.Linked source params) {i : TaskId} (ht : w.tasks[i]? = some t)
    {limit : Option Int} (hf : w.Fetches source limit t) : w'.Fetches source limit t := by
  obtain ⟨hlt, hrange⟩ := hlinked.task i t ht
  have hrecord : w'.record t.stats = w.record t.stats := h.record _ hlt hrange
  have hname := hlinked.chunkFileName hlt
  rw [hrange] at hname
  refine ⟨?_, ?_, ?_⟩ <;> rw [hrecord]
  · refine hf.ok.congr ⟨rfl, rfl, rfl, ?_⟩ rfl rfl
    show SameFile _ _ (w.record t.stats).chunkFileName
    rw [hname]
    exact h.file
  · exact hf.stopped
  · exact hf.observed

theorem Untouched.rest (h : w.Untouched params w' split.rest) (hs : w.Splits params split)
    {i : TaskId} {t : Task} (ht : w'.tasks[i]? = some t) (hrange : t.range = split.rest) :
    w'.Fetches source none t := by
  have ht₀ := (h.task i t hrange).mp ht
  exact (hrange ▸ h).fetches hs.toLinked ht₀ (hs.rest i t ht₀ hrange)

theorem Untouched.whole (h : w.Untouched params w' split.whole)
    (hkept : w.Untouched params w' split.kept) (hs : w.Splits params split) {i : TaskId} {t : Task}
    (ht : w'.tasks[i]? = some t) (hrange : t.range = split.whole)
    (huncropped : ∀ (j : TaskId) (t' : Task), w'.tasks[j]? = some t' → t'.range = split.kept →
      ¬ t'.Cropped) :
    w'.Fetches source (some split.limit) t := by
  have ht₀ := (h.task i t hrange).mp ht
  exact (hrange ▸ h).fetches hs.toLinked ht₀ <| hs.whole i t ht₀ hrange fun j t' ht' hr =>
    huncropped j t' ((hkept.task j t' hr).mpr ht') hr

theorem Untouched.kept (h : w.Untouched params w' split.kept) (hs : w.Splits params split)
    {i : TaskId} {t : Task} {p : StatsId} {k : Option TaskId} (ht : w'.tasks[i]? = some t)
    (hrange : t.range = split.kept) (hjob : t.job = .succession p k)
    (hwhole : t.Cropped → (w'.record p).status = (w.record p).status ∧
      SameFile w.files w'.files (formatChunkFileName split.whole params.fileName)) :
    w'.KeptOk params split t p t.phase := by
  have ht₀ := (h.task i t hrange).mp ht
  obtain ⟨hlt, hstats⟩ := hs.task i t ht₀
  have hrecord : w'.record t.stats = w.record t.stats := h.record _ hlt (hstats.trans hrange)
  have hok := hs.kept i t p k ht₀ hrange hjob
  cases hphase : t.phase with
  | created =>
      rw [hphase] at hok
      show (w'.record t.stats).status = _
      rw [hrecord]
      exact hok
  | moving startCrop endCrop =>
      rw [hphase] at hok
      obtain ⟨-, hfile⟩ := hwhole (by simp [Task.Cropped, hphase])
      exact ⟨hok.1, hok.2.1, hfile.read.trans hok.2.2⟩
  | done r =>
      rw [hphase] at hok
      obtain ⟨hstatus, hcompleted, hbytes, hread, hnone⟩ := hok
      obtain ⟨hdeprecated, hfile⟩ := hwhole (by simp [Task.Cropped, hphase])
      exact ⟨hdeprecated.trans hstatus, hrecord ▸ hcompleted, hrecord ▸ hbytes,
        h.file.read.trans hread, hfile.lookup.trans hnone⟩
  | _ =>
      rw [hphase] at hok
      exact hok

/-- Other files may come and go, as long as the three stay where they are or take each other's
place. -/
theorem Apart.of_files {files files' : Files} {t t' : Task} (h : Apart params split files t)
    (hfile : t'.file = t.file) (hrange : t'.range = t.range)
    (hlen : files.contents.length ≤ files'.contents.length)
    (hlookup : t.file ≠ none → ∀ r, split.Names r → r ≠ t.range → ∀ ino,
      files'.lookup (formatChunkFileName r params.fileName) = some ino →
        (∃ r', split.Names r' ∧ r' ≠ t.range ∧
          files.lookup (formatChunkFileName r' params.fileName) = some ino) ∨
        files.contents.length ≤ ino) :
    Apart params split files' t' := by
  intro file hf
  rw [hfile] at hf
  obtain ⟨hlt, hne⟩ := h file hf
  refine ⟨hlt.trans_le hlen, fun r hname hr hino => ?_⟩
  rw [hrange] at hr
  obtain ⟨r', hname', hr', hino'⟩ | hge := hlookup (by rw [hf]; simp) r hname hr _ hino
  · exact hne r' hname' hr' hino'
  · exact absurd hlt (not_lt.mpr hge)

theorem Apart.of_same {files files' : Files} {t t' : Task} (h : Apart params split files t)
    (hfile : t'.file = t.file) (hrange : t'.range = t.range) (hfiles : files' = files) :
    Apart params split files' t' :=
  h.of_files hfile hrange (by rw [hfiles]) fun _ r hname hr ino hino =>
    Or.inl ⟨r, hname, hr, hfiles ▸ hino⟩

end World

namespace World

variable {source : Bytes} {params : ChunkManagerParams} {split : ChunkSplit source.length}
  {w w' : World}

/-! ### A turn of a download -/

/-- A turn of a download in a run with the split, with all it does. -/
structure SplitDownload (params : ChunkManagerParams) (split : ChunkSplit source.length)
    (w w' : World) (i : TaskId) (t : Task) (e : TaskEvent) (d : DownloadState)
    (called : Option StopCallback) : Prop where
  before : w.Splits params split
  task : w.tasks[i]? = some t
  job : t.job = .download
  allowed : DownloadState.Allowed (honestService source t.range) ⟨t, w.record t.stats, w.files⟩ e
  turn : DownloadState.step ⟨t, w.record t.stats, w.files⟩ e = some (d, called)
  evolves : w.Evolves w'
  turnOf : w.TurnOf w' i t d
  tasks : ∀ (j : TaskId) (t' : Task), w'.tasks[j]? = some t' →
    ∃ t₀, (w.tasks.set i d.task)[j]? = some t₀ ∧
      (t' = t₀ ∨ called.isSome = true ∧ t₀.range = t.range ∧ t₀.Asked t')

theorem Splits.downloadStep (h : w.Splits params split) {i : TaskId} {t : Task} {e : TaskEvent}
    (ht : w.tasks[i]? = some t) (hjob : t.job = .download)
    (hallowed : DownloadState.Allowed (honestService source t.range)
      ⟨t, w.record t.stats, w.files⟩ e) (hstep : w.taskStep i e = some w') :
    ∃ d called, SplitDownload params split w w' i t e d called := by
  obtain ⟨d, called, hturn, hdownload, -, htasks⟩ := h.downloadTurn ht hjob hstep
  refine ⟨d, called, h, ht, hjob, hallowed, hturn, taskStep_evolves hstep,
    h.turnOf ht hstep hturn hdownload, fun j t' ht' => ?_⟩
  obtain ⟨t₀, ht₀, rfl | ⟨hcalled, hasked⟩⟩ := htasks j t' ht'
  · exact ⟨t', ht₀, Or.inl rfl⟩
  · -- the callback is the one in the record, and stops a task of the record's range
    obtain ⟨cb, rfl, hk⟩ := Option.bind_eq_some_iff.mp hcalled
    have honLimit := DownloadState.step_onLimit hturn (Or.inr rfl)
    obtain ⟨t₁, ht₁, hrange⟩ := h.stops _ cb honLimit j hk
    rw [(h.task i t ht).2] at hrange
    refine ⟨t₀, ht₀, Or.inr ⟨rfl, ?_, hasked⟩⟩
    rcases task_of_set ht ht₀ with ⟨-, rfl⟩ | ⟨-, ht₀⟩
    · exact (DownloadState.step_later hturn).task.range
    · rw [Option.some.inj (ht₀.symm.trans ht₁)]
      exact hrange

namespace SplitDownload

variable {i : TaskId} {t : Task} {e : TaskEvent} {d : DownloadState} {called : Option StopCallback}

theorem later (h : SplitDownload params split w w' i t e d called) :
    t.Later d.task :=
  (DownloadState.step_later h.turn).task

theorem live (h : SplitDownload params split w w' i t e d called) : ¬ t.Done :=
  DownloadState.not_done_of_step h.turn

/-- A task of another range is neither the one that had the turn nor asked to stop. -/
theorem task_iff (h : SplitDownload params split w w' i t e d called) {j : TaskId} {t' : Task}
    (hne : t'.range ≠ t.range) : w'.tasks[j]? = some t' ↔ w.tasks[j]? = some t' := by
  have hset : ∀ {t₀ : Task}, t₀.range ≠ t.range →
      ((w.tasks.set i d.task)[j]? = some t₀ ↔ w.tasks[j]? = some t₀) := by
    intro t₀ hne₀
    by_cases hji : j = i
    · subst hji
      rw [List.getElem?_set_self (List.getElem?_eq_some_iff.mp h.task).1, h.task]
      constructor
      · exact fun he => absurd (Option.some.inj he ▸ h.later.range) hne₀
      · exact fun he => absurd (congrArg Task.range (Option.some.inj he).symm) hne₀
    · rw [List.getElem?_set_ne (Ne.symm hji)]
  have hold : ∀ {t' : Task}, t'.range ≠ t.range → w'.tasks[j]? = some t' →
      w.tasks[j]? = some t' := by
    intro t' hne ht'
    obtain ⟨t₀, ht₀, rfl | ⟨-, hrange, c, rfl⟩⟩ := h.tasks j t' ht'
    · exact (hset hne).mp ht₀
    · exact absurd hrange hne
  refine ⟨hold hne, fun ht' => ?_⟩
  obtain ⟨t'', ht'', hl⟩ := h.evolves.task j t' ht'
  rw [← Option.some.inj ((hold (hl.range ▸ hne) ht'').symm.trans ht')]
  exact ht''

theorem file (h : SplitDownload params split w w' i t e d called) {r : ChunkRange}
    (hname : split.Names r) (hne : r ≠ t.range) :
    SameFile w.files w'.files (formatChunkFileName r params.fileName) := by
  have hown : (w.record t.stats).chunkFileName = formatChunkFileName t.range params.fileName := by
    obtain ⟨hlt, hrange⟩ := h.before.task i t h.task
    exact hrange ▸ h.before.chunkFileName hlt
  have hnames : formatChunkFileName r params.fileName ≠ (w.record t.stats).chunkFileName :=
    fun he => hne (formatChunkFileName_inj (he.trans hown)).1
  rw [h.turnOf.files]
  cases DownloadState.step_fileEffect h.turn with
  | leaves hfiles _ => rw [hfiles]; exact .refl _ _
  | opens hfiles _ => rw [hfiles]; exact sameFile_openWrite hnames
  | writes hbefore hfiles _ =>
      rw [hfiles]
      refine ⟨rfl, fun ino hino => FileSystem.content_overwrite_of_ne _ fun he => ?_⟩
      exact (h.before.apart i t h.task _ hbefore).2 r hname hne (he ▸ hino)

theorem untouched (h : SplitDownload params split w w' i t e d called) {r : ChunkRange}
    (hname : split.Names r) (hne : r ≠ t.range) : w.Untouched params w' r where
  task := fun _ _ hr => h.task_iff (hr ▸ hne)
  record := fun s _ hr => h.turnOf.other s fun hs => hne <| by
    rw [← hr, hs]
    exact (h.before.task i t h.task).2
  file := h.file hname hne

theorem apart (h : SplitDownload params split w w' i t e d called) {j : TaskId} {t' : Task}
    (ht' : w'.tasks[j]? = some t') : Apart params split w'.files t' := by
  have hown : (w.record t.stats).chunkFileName = formatChunkFileName t.range params.fileName := by
    obtain ⟨hlt, hrange⟩ := h.before.task i t h.task
    exact hrange ▸ h.before.chunkFileName hlt
  have heffect := DownloadState.step_fileEffect h.turn
  rw [h.turnOf.files]
  obtain ⟨rfl, c, rfl⟩ | ⟨hji, t₀, ht₀, c, rfl⟩ := h.turnOf.task j t' ht'
  · show Apart params split d.files { d.task with cancelRequested := c }
    have hapart := h.before.apart j t h.task
    cases heffect with
    | leaves hfiles hhandle =>
        intro file hf
        obtain ⟨file₀, hf₀, hino⟩ := hhandle file hf
        rw [hfiles, hino]
        exact ⟨(hapart file₀ hf₀).1, fun r hname hr => (hapart file₀ hf₀).2 r hname
          (h.later.range ▸ hr)⟩
    | opens hfiles hhandle =>
        intro file hf
        have hlookup : d.files.lookup (formatChunkFileName t.range params.fileName) =
            some file.ino := by
          rw [hhandle file hf, hfiles, ← hown]
          exact FileSystem.lookup_openWrite_self
        refine ⟨FileSystem.lookup_lt hlookup, fun r _ hr hino => hr ?_⟩
        exact (formatChunkFileName_inj (FileSystem.lookup_inj hino hlookup)).1.trans
          h.later.range.symm
    | writes hbefore hfiles hhandle =>
        intro file hf
        obtain ⟨hlt, hne⟩ := hapart _ hbefore
        rw [hhandle file hf, hfiles]
        refine ⟨?_, fun r hname hr => hne r hname (h.later.range ▸ hr)⟩
        show _ < (w.files.contents.set _ _).length
        rw [List.length_set]
        exact hlt
  · have hapart := h.before.apart j t₀ ht₀
    cases heffect with
    | leaves hfiles _ => exact hapart.of_same rfl rfl hfiles
    | opens hfiles _ =>
        refine hapart.of_files rfl rfl ?_ fun _ r hname hr ino hino => ?_
        · rw [hfiles]
          exact FileSystem.length_openWrite
        · rw [hfiles, hown] at hino
          by_cases hrt : r = t.range
          · -- the file that was opened was there, or is new
            rw [hrt, FileSystem.lookup_openWrite_self] at hino
            rw [← Option.some.inj hino]
            have hopened := @FileSystem.openWrite_fst _ _ _ w.files
              (formatChunkFileName t.range params.fileName)
            obtain hold | hfresh := hopened
            · exact Or.inl ⟨r, hname, hr, hrt ▸ hold⟩
            · exact Or.inr hfresh.ge
          · rw [FileSystem.lookup_openWrite_of_ne fun he => hrt (formatChunkFileName_inj he).1]
              at hino
            exact Or.inl ⟨r, hname, hr, hino⟩
    | writes _ hfiles _ =>
        refine hapart.of_files rfl rfl ?_ fun _ r hname hr ino hino => ?_
        · rw [hfiles]
          exact (List.length_set ..).ge
        · rw [hfiles] at hino
          exact Or.inl ⟨r, hname, hr, hino⟩

/-- **The download itself** is stopped by its own callback at most, and then enough has come. -/
theorem fetches (h : SplitDownload params split w w' i t e d called) {limit : Option Int}
    (hf : w.Fetches source limit t) {t' : Task} (ht' : w'.tasks[i]? = some t') :
    w'.Fetches source limit t' := by
  obtain ⟨hkept, hlimited, hcalled⟩ := DownloadState.step_limit h.turn
  have hbytes := DownloadState.bytes_le_of_step h.turn
  have hok := (hf.ok.step h.allowed h.turn).1
  have hself := h.turnOf.self
  obtain ⟨t₀, ht₀, hsame⟩ := h.tasks i t' ht'
  rw [List.getElem?_set_self (List.getElem?_eq_some_iff.mp h.task).1] at ht₀
  obtain rfl := Option.some.inj ht₀
  obtain ⟨c, rfl⟩ : d.task.Asked t' := by
    obtain rfl | ⟨-, -, hasked⟩ := hsame
    · exact .refl _
    · exact hasked
  have hstats : ({ d.task with cancelRequested := c } : Task).stats = t.stats := h.later.stats
  refine ⟨?_, fun hstopped => ?_, fun hobserved => ?_⟩
  · rw [hstats, hself, h.turnOf.files]
    rw [show ({ d.task with cancelRequested := c } : Task).range = t.range from h.later.range]
    exact hok.congr ⟨rfl, rfl, rfl, .refl _ _⟩ rfl rfl
  · rw [hstats, hself]
    obtain hsame | ⟨hsome, -, -⟩ := hsame
    · rw [hsame] at hstopped
      obtain ⟨l, hl, hle⟩ := hf.stopped (DownloadState.stopped_of_step h.turn hstopped)
      exact ⟨l, hl, hle.trans hbytes⟩
    · obtain ⟨hlimit, hle⟩ := hcalled hsome
      exact ⟨_, hf.observed (Or.inl hlimit), hle⟩
  · rw [hstats, hself] at hobserved ⊢
    rw [hkept] at hobserved ⊢
    exact hf.observed (hobserved.imp_left hlimited)

/-- A turn of a download keeps the invariant. -/
theorem splits (h : SplitDownload params split w w' i t e d called)
    (hlinked : w'.SplitLinked params split) : w'.Splits params split := by
  have hnotKept : t.range ≠ split.kept := fun he => h.before.keptJob i t h.task he h.job
  have hkept := h.untouched (Or.inr (Or.inl rfl)) hnotKept.symm
  refine ⟨hlinked, fun _ _ ht' => h.apart ht', fun j t' ht' hrange huncropped => ?_,
    fun j t' ht' hrange => ?_, fun j t' p k ht' hrange hjob => ?_,
    fun j k t₁ t₂ ht₁ ht₂ hrange hcropped hrange₂ => ?_⟩
  · by_cases hown : t.range = split.whole
    · -- the chunk's one task is the one that had the turn
      obtain ⟨t₁, ht₁, hl⟩ := h.evolves.task_of ht'
      obtain rfl := h.before.unique h.task ht₁ (Or.inl hown)
        (hl.range.symm.trans (hrange.trans hown.symm))
      exact h.fetches (h.before.whole j t h.task hown fun k t₂ ht₂ hr =>
        huncropped k t₂ ((hkept.task k t₂ hr).mpr ht₂) hr) ht'
    · exact (h.untouched (Or.inl rfl) (Ne.symm hown)).whole hkept h.before ht' hrange huncropped
  · by_cases hown : t.range = split.rest
    · obtain ⟨t₁, ht₁, hl⟩ := h.evolves.task_of ht'
      obtain rfl := h.before.unique h.task ht₁ (Or.inr (Or.inr hown))
        (hl.range.symm.trans (hrange.trans hown.symm))
      exact h.fetches (h.before.rest j t h.task hown) ht'
    · exact (h.untouched (Or.inr (Or.inr rfl)) (Ne.symm hown)).rest h.before ht' hrange
  · have ht₀ := (hkept.task j t' hrange).mp ht'
    refine hkept.kept h.before ht' hrange hjob fun hcropped => ?_
    -- the chunk's task has ended, and is not the one that had the turn
    have hown : t.range ≠ split.whole := fun he =>
      h.live (h.before.ended j i t' t ht₀ h.task hrange hcropped he)
    refine ⟨?_, h.file (Or.inl rfl) hown.symm⟩
    rw [h.turnOf.other p]
    rintro rfl
    obtain ⟨hwhole, -⟩ | ⟨-, hnot⟩ := h.before.successors j t' _ k ht₀ hjob
    · exact hown ((h.before.task i t h.task).2.symm.trans hwhole)
    · exact hnot (Or.inr (Or.inl hrange))
  · have ht₀ := (hkept.task j t₁ hrange).mp ht₁
    obtain ⟨t₂', ht₂', hl⟩ := h.evolves.task_of ht₂
    exact hl.done_of (h.before.ended j k t₁ t₂' ht₀ ht₂' hrange hcropped
      (hl.range.symm.trans hrange₂))

end SplitDownload

end World

namespace SuccessionState

variable {u u' : SuccessionState}

/-- A turn leaves every file but the predecessor's and the successor's alone. -/
theorem Turns.sameFile {ended : Bool} (h : u.Turns ended u') {name : String}
    (hp : name ≠ u.predecessor.chunkFileName) (hs : name ≠ u.successor.chunkFileName) :
    SameFile u.files u'.files name := by
  cases h with
  | failed h _ => rw [h.files]; exact .refl _ _
  | waits _ h => rw [h.files]; exact .refl _ _
  | crops _ _ h => rw [h.files]; exact .refl _ _
  | cropped _ hcrop =>
      obtain ⟨ino, hlookup, -, rfl⟩ := cropFile_eq_ok hcrop
      exact sameFile_overwrite _ hlookup hp
  | moved _ hlookup =>
      refine ⟨?_, fun _ _ => FileSystem.content_rename⟩
      show (u.files.rename _ _).lookup name = _
      rw [FileSystem.lookup_rename hlookup, if_neg hs, if_neg hp]

/-- Which inodes have names changes in a move only. -/
theorem Turns.lookup {ended : Bool} (h : u.Turns ended u') :
    u'.files.contents.length = u.files.contents.length ∧
      ((∀ name, u'.files.lookup name = u.files.lookup name) ∨
        (∃ startCrop endCrop, u.task.phase = .moving startCrop endCrop) ∧
          ∀ name ino, u'.files.lookup name = some ino →
            name = u.successor.chunkFileName ∧
                u.files.lookup u.predecessor.chunkFileName = some ino ∨
              u.files.lookup name = some ino) := by
  cases h with
  | failed h _ => rw [h.files]; exact ⟨rfl, Or.inl fun _ => rfl⟩
  | waits _ h => rw [h.files]; exact ⟨rfl, Or.inl fun _ => rfl⟩
  | crops _ _ h => rw [h.files]; exact ⟨rfl, Or.inl fun _ => rfl⟩
  | cropped _ hcrop =>
      obtain ⟨ino, -, -, rfl⟩ := cropFile_eq_ok hcrop
      exact ⟨List.length_set .., Or.inl fun _ => rfl⟩
  | moved hphase hlookup =>
      refine ⟨FileSystem.length_rename, Or.inr ⟨⟨_, _, hphase⟩, fun name ino hino => ?_⟩⟩
      have hino' : (u.files.rename u.predecessor.chunkFileName
        u.successor.chunkFileName).lookup name = some ino := hino
      rw [FileSystem.lookup_rename hlookup] at hino'
      split at hino'
      · rename_i hname
        exact Or.inl ⟨hname, hlookup.trans hino'⟩
      · split at hino'
        · cases hino'
        · exact Or.inr hino'

/-- A succession has no file open. -/
theorem Turns.file {ended : Bool} (h : u.Turns ended u') : u'.task.file = none := by
  cases h with
  | failed h _ =>
      obtain ⟨e, hphase⟩ := h.phase
      simp only [Task.file, hphase]
  | waits _ h => simp only [Task.file, h.phase]
  | crops _ _ h => simp only [Task.file, h.phase]
  | cropped _ _ => rfl
  | moved _ _ => rfl

/-- A predecessor that has not failed and has the bytes is succeeded. -/
theorem succeed_eq {predecessorEnd : TaskEnd} (hend : ∀ e, predecessorEnd ≠ .failed e)
    (hlimit : u.predecessor.limitQtBytes ≠ 0 →
      u.predecessor.limitQtBytes ≤ u.predecessor.bytesDownloaded)
    (hdata : 0 < u.predecessor.bytesDownloaded)
    (hcrop : cropRefuses u.startCrop u.endCrop = false) :
    u.succeed predecessorEnd = u.enter (.cropping u.startCrop u.endCrop) := by
  unfold succeed
  split
  · exact absurd rfl (hend _)
  · dsimp only
    rw [if_neg fun h => not_lt.mpr (hlimit h.1) h.2, if_neg (not_le.mpr hdata),
      if_neg (by simp [hcrop])]

end SuccessionState

namespace World

variable {source : Bytes} {params : ChunkManagerParams} {split : ChunkSplit source.length}
  {w w' : World}

/-! ### A turn of a succession -/

/-- A turn of a succession in a run with the split, with all it does. -/
structure SplitSuccession (params : ChunkManagerParams) (split : ChunkSplit source.length)
    (w w' : World) (i : TaskId) (t : Task) (p : StatsId) (k : Option TaskId)
    (u : SuccessionState) : Prop where
  before : w.Splits params split
  task : w.tasks[i]? = some t
  job : t.job = .succession p k
  own : t.stats ≠ p
  live : ¬ t.Done
  evolves : w.Evolves w'
  turn : w.SuccessionTurn w' i t p u
  turns : ∃ ended, SuccessionState.Turns ⟨t, w.record t.stats, w.record p, w.files⟩ ended u

theorem Splits.successionStep (h : w.Splits params split) {i : TaskId} {t : Task} {e : TaskEvent}
    {p : StatsId} {k : Option TaskId} (ht : w.tasks[i]? = some t) (hjob : t.job = .succession p k)
    (he : ∀ effect, e ≠ .fails effect) (hstep : w.taskStep i e = some w') :
    ∃ u, SplitSuccession params split w w' i t p k u ∧
      SuccessionState.run ⟨t, w.record t.stats, w.record p, w.files⟩ k.isSome
        (k.bind w.taskResult) e = some u := by
  have hlinked := h.succession i t p k ht hjob
  obtain ⟨u, hrun, hturn⟩ := successionTurn ht hjob hlinked.unstopped.1 hstep
  have hown : t.stats ≠ p := fun heq => hlinked.proper (heq ▸ (h.task i t ht).2.symm)
  exact ⟨u, ⟨h, ht, hjob, hown, SuccessionState.not_done_of_run hrun, taskStep_evolves hstep, hturn,
    _, SuccessionState.turns_of_run hlinked.unstopped.2 he hrun⟩, hrun⟩

namespace SplitSuccession

variable {i : TaskId} {t : Task} {p : StatsId} {k : Option TaskId} {u : SuccessionState}

theorem linked (h : SplitSuccession params split w w' i t p k u) : w.SuccessionLinked t p k :=
  h.before.succession i t p k h.task h.job

theorem get_self (h : SplitSuccession params split w w' i t p k u) :
    w'.tasks[i]? = some u.task := by
  rw [h.turn.tasks, List.getElem?_set_self (List.getElem?_eq_some_iff.mp h.task).1]

theorem later (h : SplitSuccession params split w w' i t p k u) : t.Later u.task := by
  obtain ⟨t', ht', hl⟩ := h.evolves.task i t h.task
  exact Option.some.inj (ht'.symm.trans h.get_self) ▸ hl

theorem task_of (h : SplitSuccession params split w w' i t p k u) {j : TaskId} {t' : Task}
    (ht' : w'.tasks[j]? = some t') :
    j = i ∧ t' = u.task ∨ j ≠ i ∧ w.tasks[j]? = some t' :=
  World.task_of_set h.task (h.turn.tasks ▸ ht')

theorem range_stats (h : SplitSuccession params split w w' i t p k u) :
    (w.record t.stats).range = t.range :=
  (h.before.task i t h.task).2

theorem name_predecessor (h : SplitSuccession params split w w' i t p k u) :
    (w.record p).chunkFileName = formatChunkFileName (w.record p).range params.fileName :=
  h.before.chunkFileName h.linked.predecessor

theorem name_successor (h : SplitSuccession params split w w' i t p k u) :
    (w.record t.stats).chunkFileName = formatChunkFileName t.range params.fileName :=
  h.range_stats ▸ h.before.chunkFileName (h.before.task i t h.task).1

theorem record_self (h : SplitSuccession params split w w' i t p k u) :
    w'.record t.stats = u.successor := by
  rw [h.turn.record, if_neg fun hs => h.own hs.1, if_pos ⟨rfl, (h.before.task i t h.task).1⟩]

theorem record_predecessor (h : SplitSuccession params split w w' i t p k u) :
    w'.record p = u.predecessor := by
  rw [h.turn.record, if_pos ⟨rfl, h.linked.predecessor⟩]

theorem untouched (h : SplitSuccession params split w w' i t p k u) {r : ChunkRange}
    (hne : r ≠ t.range) (hp : r ≠ (w.record p).range) : w.Untouched params w' r where
  task := by
    intro j t' hr
    by_cases hji : j = i
    · subst hji
      rw [h.get_self, h.task]
      constructor
      · exact fun he => absurd ((Option.some.inj he ▸ h.later.range).symm.trans hr) hne.symm
      · exact fun he => absurd ((congrArg Task.range (Option.some.inj he)).trans hr) hne.symm
    · rw [h.turn.tasks, List.getElem?_set_ne (Ne.symm hji)]
  record := fun s _ hr => by
    rw [h.turn.record, if_neg, if_neg]
    · exact fun hs => hne (by rw [← hr, hs.1, h.range_stats])
    · exact fun hs => hp (by rw [← hr, hs.1])
  file := by
    obtain ⟨ended, hturns⟩ := h.turns
    rw [h.turn.files]
    refine hturns.sameFile (fun he => hp ?_) fun he => hne ?_
    · exact (formatChunkFileName_inj (he.trans h.name_predecessor)).1
    · exact (formatChunkFileName_inj (he.trans h.name_successor)).1

theorem apart (h : SplitSuccession params split w w' i t p k u) {j : TaskId} {t' : Task}
    (ht' : w'.tasks[j]? = some t') : Apart params split w'.files t' := by
  obtain ⟨ended, hturns⟩ := h.turns
  obtain ⟨-, rfl⟩ | ⟨-, ht'⟩ := h.task_of ht'
  · intro file hf
    rw [hturns.file] at hf
    cases hf
  · obtain ⟨hlen, hlookup⟩ := hturns.lookup
    rw [h.turn.files]
    refine (h.before.apart j t' ht').of_files rfl rfl hlen.ge fun hopen r hname hr ino hino => ?_
    obtain hsame | ⟨⟨startCrop, endCrop, hphase⟩, hmoved⟩ := hlookup
    · exact Or.inl ⟨r, hname, hr, (hsame _).symm.trans hino⟩
    · obtain ⟨hsucc, hold⟩ | hold := hmoved _ _ hino
      · -- the kept part has got the chunk's file, which nobody has open any more
        have hrt : r = t.range := (formatChunkFileName_inj (hsucc.trans h.name_successor)).1
        obtain ⟨hwhole, -⟩ | ⟨-, hnot⟩ := h.before.successors i t p k h.task h.job
        · refine Or.inl ⟨split.whole, Or.inl rfl, fun he => hopen ?_, ?_⟩
          · obtain ⟨s, t₁, ht₁, hstats⟩ := h.before.tasked p h.linked.predecessor
            have hrange₁ : t₁.range = split.whole := by
              rw [← hwhole, ← hstats, (h.before.task s t₁ ht₁).2]
            have hdone := h.linked.ended
              (Or.inr (Task.pastPredecessor_of_moving hphase)) s t₁ ht₁ hstats
            obtain rfl := h.before.unique ht₁ ht' (Or.inl hrange₁) (he.symm.trans hrange₁.symm)
            obtain ⟨r, hr⟩ := Task.done_iff.mp (Option.some.inj (ht₁.symm.trans ht') ▸ hdone)
            simp only [Task.file, hr]
          · rw [← hwhole, ← h.name_predecessor]
            exact hold
        · exact absurd (hrt ▸ hname) hnot
      · exact Or.inl ⟨r, hname, hr, hold⟩

end SplitSuccession

end World

namespace World

variable {source : Bytes} {params : ChunkManagerParams} {split : ChunkSplit source.length}
  {w w' : World}

/-! ### The end of a download -/

/-- The expected size of a chunk is that of its part of the source. -/
theorem Linked.fileSize (h : w.Linked source params)
    (hsize : ∀ n ∈ params.fileSize, n = (source.length : Int)) {s : StatsId}
    (hs : s < w.stats.length) : ∀ n ∈ (w.record s).fileSize,
      n = (w.record s).range.stop source.length - (w.record s).range.start := by
  rw [(h.stats s hs).1.fileSize]
  generalize (w.record s).range = r
  intro n hn
  cases htotal : params.fileSize with
  | some total =>
      rw [freshRecord, htotal, getEffectiveRangeInfo_snd, hsize total htotal] at hn
      exact (Option.some.inj hn).symm
  | none =>
      obtain ⟨start, endByte⟩ := r
      cases endByte with
      | none => simp [freshRecord, htotal, getEffectiveRangeInfo] at hn
      | some e =>
          simp only [freshRecord, getEffectiveRangeInfo, Option.mem_def, Option.some.injEq] at hn
          show n = e + 1 - start
          omega

/-- **A download that has ended** is complete, or was stopped with the bytes of the limit. -/
theorem Fetches.done {t : Task} {limit : Option Int} (hf : w.Fetches source limit t)
    (hlinked : w.Linked source params) {i : TaskId} (ht : w.tasks[i]? = some t)
    (hin : t.range.InFile source.length)
    (hsize : ∀ n ∈ params.fileSize, n = (source.length : Int)) (hdone : t.Done) :
    t.phase = .done .returned ∧ (w.record t.stats).status = .completed ∧
        DownloadState.Saved ⟨t, w.record t.stats, w.files⟩ (· = t.range.bytesOf source) ∨
      t.phase = .done .cancelled ∧ (∃ l ∈ limit, l ≤ (w.record t.stats).bytesDownloaded) ∧
        (0 < (w.record t.stats).bytesDownloaded →
          DownloadState.Saved ⟨t, w.record t.stats, w.files⟩ (· <+: t.range.bytesOf source)) := by
  obtain ⟨hlt, hrange⟩ := hlinked.task i t ht
  obtain ⟨r, hr⟩ := Task.done_iff.mp hdone
  have hok := hf.ok.phase
  rw [show (DownloadState.mk t (w.record t.stats) w.files).task.phase = _ from hr] at hok
  cases r with
  | returned => exact Or.inl ⟨hr, hok.1, hok.2.2⟩
  | cancelled =>
      refine Or.inr ⟨hr, hf.stopped (Or.inr (by simp only [hr])), fun hpos => ?_⟩
      exact (hok.2 hpos).resolve_left id
  | failed e =>
      -- a whole answer has the expected size
      obtain ⟨hnot, bytes, -, hbytes, rfl⟩ := hok.2.resolve_left id
      refine absurd (fun n hn => ?_) hnot
      rw [hlinked.fileSize hsize hlt n hn, hrange, ← hin.length_bytesOf]
      exact hbytes

/-- What is in the chunk's file once its download has ended. -/
structure Ready (params : ChunkManagerParams) (split : ChunkSplit source.length) (w : World)
    (p : StatsId) (bytes : Bytes) : Prop where
  read : w.files.read (formatChunkFileName split.whole params.fileName) = some bytes
  counted : (w.record p).bytesDownloaded = bytes.length
  front : bytes <+: split.whole.bytesOf source
  enough : split.limit ≤ bytes.length
  limit : (w.record p).limitQtBytes ≠ 0 → (w.record p).limitQtBytes = split.limit

theorem Fetches.ready {t : Task} (hf : w.Fetches source (some split.limit) t)
    (hlinked : w.Linked source params) {i : TaskId} (ht : w.tasks[i]? = some t)
    (hwhole : t.range = split.whole)
    (hsize : ∀ n ∈ params.fileSize, n = (source.length : Int)) (hdone : t.Done) :
    (∀ e, t.phase ≠ .done (.failed e)) ∧ ∃ bytes, w.Ready params split t.stats bytes := by
  obtain ⟨hlt, hrange⟩ := hlinked.task i t ht
  have hname : (w.record t.stats).chunkFileName =
      formatChunkFileName split.whole params.fileName := by
    rw [hlinked.chunkFileName hlt, hrange, hwhole]
  have hlimit : (w.record t.stats).limitQtBytes ≠ 0 →
      (w.record t.stats).limitQtBytes = split.limit := fun hne =>
    (Option.some.inj (hf.observed (Or.inr hne))).symm
  have hin : t.range.InFile source.length := hwhole ▸ split.inFile
  obtain ⟨hphase, -, bytes, hread, hbytes, rfl⟩ | ⟨hphase, ⟨l, hl, hle⟩, hsaved⟩ :=
    hf.done hlinked ht hin hsize hdone
  · refine ⟨by simp [hphase], _, ?_, hbytes, ?_, ?_, hlimit⟩
    · exact hname ▸ hread
    · rw [hwhole]
    · rw [hwhole, split.inFile.length_bytesOf]
      exact split.limit_lt.le
  · obtain rfl := Option.some.inj hl
    obtain ⟨bytes, hread, hbytes, hfront⟩ := hsaved (split.limit_pos.trans_le hle)
    refine ⟨by simp [hphase], bytes, hname ▸ hread, hbytes, hwhole ▸ hfront, ?_, hlimit⟩
    exact hle.trans (le_of_eq hbytes)

/-! ### The kept part -/

/-- What a turn of the succession to the kept part does: it waits or sets out to crop, it crops,
or it moves. -/
inductive KeptTurn (params : ChunkManagerParams) (split : ChunkSplit source.length) (w : World)
    (t : Task) (p : StatsId) (u : SuccessionState) : Prop
  | waits (before : ¬ t.Cropped) (files : u.files = w.files)
      (predecessor : u.predecessor = w.record p)
      (phase : u.task.phase = .awaitingPredecessor ∨
        u.task.phase = .cropping 0 (split.limit - 1))
  | crops (before : t.PastPredecessor) (predecessor : u.predecessor = w.record p)
      (phase : u.task.phase = .moving 0 (split.limit - 1))
      (read : u.files.read (formatChunkFileName split.whole params.fileName) =
        some (split.kept.bytesOf source))
  | moves (before : t.Cropped) (phase : u.task.phase = .done .returned)
      (predecessor : u.predecessor.status = .deprecated) (status : u.successor.status = .completed)
      (bytes : u.successor.bytesDownloaded = split.limit)
      (read : u.files.read (formatChunkFileName split.kept params.fileName) =
        some (split.kept.bytesOf source))
      (gone : u.files.lookup (formatChunkFileName split.whole params.fileName) = none)

namespace SplitSuccession

variable {i : TaskId} {t : Task} {p : StatsId} {k : Option TaskId} {u : SuccessionState}

/-- The one task of the chunk is that of the predecessor's record. -/
theorem whole_task (h : SplitSuccession params split w w' i t p k u)
    (hwhole : (w.record p).range = split.whole) :
    ∃ (j : TaskId) (t₁ : Task), w.tasks[j]? = some t₁ ∧ t₁.stats = p ∧ t₁.range = split.whole := by
  obtain ⟨j, t₁, ht₁, hstats⟩ := h.before.tasked p h.linked.predecessor
  refine ⟨j, t₁, ht₁, hstats, ?_⟩
  rw [← hwhole, ← hstats, (h.before.task j t₁ ht₁).2]

/-- The one task of the kept part is the one that has the turn. -/
theorem kept_unique (h : SplitSuccession params split w w' i t p k u)
    (hkept : t.range = split.kept) {j : TaskId} {t' : Task} (ht' : w.tasks[j]? = some t')
    (hrange : t'.range = split.kept) : j = i ∧ t' = t := by
  obtain rfl := h.before.unique h.task ht' (Or.inr (Or.inl hkept)) (hrange.trans hkept.symm)
  exact ⟨rfl, Option.some.inj (ht'.symm.trans h.task)⟩

/-- Where the succession goes on, its predecessor has ended. -/
theorem ended_of (h : SplitSuccession params split w w' i t p k u)
    (hor : k = none ∨ (k.bind w.taskResult).isSome = true ∨ t.PastPredecessor) {j : TaskId}
    {t' : Task} (ht' : w.tasks[j]? = some t') (hstats : t'.stats = p) : t'.Done := by
  obtain hnone | hsome | hpast := hor
  · exact h.linked.ended (Or.inl hnone) j t' ht' hstats
  · cases hk : k with
    | none => exact h.linked.ended (Or.inl hk) j t' ht' hstats
    | some j₀ =>
        -- the task that it knows is the one of the record
        obtain ⟨t₁, ht₁, hstats₁⟩ := h.linked.task j₀ hk
        obtain rfl := h.before.own j j₀ t' t₁ ht' ht₁ (hstats.trans hstats₁.symm)
        have hdone : w.TaskDone j := by simpa [TaskDone, hk] using hsome
        obtain ⟨t₂, ht₂, hd⟩ := taskDone_iff.mp hdone
        exact Option.some.inj (ht₂.symm.trans ht') ▸ hd
  · exact h.linked.ended (Or.inr hpast) j t' ht' hstats

/-- When the chunk's task has ended and its file is whole, there is all that is needed. -/
theorem ready (h : SplitSuccession params split w w' i t p k u)
    (hsize : ∀ n ∈ params.fileSize, n = (source.length : Int))
    (hwhole : (w.record p).range = split.whole) (hkept : t.range = split.kept)
    (huncropped : ¬ t.Cropped)
    (hended : ∀ (j : TaskId) (t' : Task), w.tasks[j]? = some t' → t'.stats = p → t'.Done) :
    (∀ (j : TaskId) (t' : Task), w.tasks[j]? = some t' → t'.stats = p →
        ∀ e, t'.phase ≠ .done (.failed e)) ∧ ∃ bytes, w.Ready params split p bytes := by
  obtain ⟨j, t₁, ht₁, rfl, hrange⟩ := h.whole_task hwhole
  have hfetches := h.before.whole j t₁ ht₁ hrange fun j' t' ht' hr =>
    (h.kept_unique hkept ht' hr).2 ▸ huncropped
  obtain ⟨hphase, hready⟩ := hfetches.ready h.before.toLinked ht₁ hrange hsize (hended j t₁ ht₁ rfl)
  refine ⟨fun j' t' ht' hstats => ?_, hready⟩
  obtain rfl := h.before.own j' j t' t₁ ht' ht₁ hstats
  exact Option.some.inj (ht₁.symm.trans ht') ▸ hphase

/-- **The succession goes on** once its predecessor has ended. -/
theorem succeed_eq (h : SplitSuccession params split w w' i t p k u)
    (hsize : ∀ n ∈ params.fileSize, n = (source.length : Int))
    (hwhole : (w.record p).range = split.whole) (hkept : t.range = split.kept)
    (huncropped : ¬ t.Cropped)
    (hended : ∀ (j : TaskId) (t' : Task), w.tasks[j]? = some t' → t'.stats = p → t'.Done)
    {t₀ : Task} {r : TaskEnd} (hr : ∀ e, r ≠ .failed e) :
    SuccessionState.succeed ⟨t₀, w.record t.stats, w.record p, w.files⟩ r =
      SuccessionState.enter ⟨t₀, w.record t.stats, w.record p, w.files⟩
        (.cropping 0 (split.limit - 1)) := by
  obtain ⟨-, bytes, hready⟩ := h.ready hsize hwhole hkept huncropped hended
  have hpos := split.limit_pos
  have henough := hready.enough
  have hstart : SuccessionState.startCrop ⟨t₀, w.record t.stats, w.record p, w.files⟩ = 0 := by
    show (w.record t.stats).range.start - (w.record p).range.start = 0
    rw [h.range_stats, hkept, hwhole]
    exact sub_self _
  have hend : SuccessionState.endCrop ⟨t₀, w.record t.stats, w.record p, w.files⟩ =
      split.limit - 1 := by
    unfold SuccessionState.endCrop
    dsimp only
    rw [h.range_stats, hkept, hwhole]
    show split.last - split.whole.start = split.last - split.whole.start + 1 - 1
    omega
  rw [SuccessionState.succeed_eq hr, hstart, hend]
  · intro hne
    show (w.record p).limitQtBytes ≤ (w.record p).bytesDownloaded
    rw [hready.counted, hready.limit hne]
    exact henough
  · show 0 < (w.record p).bytesDownloaded
    rw [hready.counted]
    exact hpos.trans_le henough
  · rw [hstart, hend]
    unfold cropRefuses
    simp only [Bool.or_eq_false_iff, decide_eq_false_iff_not, not_lt]
    omega

/-- The crop leaves the kept part of what the chunk's file holds. -/
theorem crop_kept (h : SplitSuccession params split w w' i t p k u)
    (hsize : ∀ n ∈ params.fileSize, n = (source.length : Int))
    (hwhole : (w.record p).range = split.whole) (hkept : t.range = split.kept)
    (hphase : t.phase = .cropping 0 (split.limit - 1)) :
    ∃ files', cropFile w.files (formatChunkFileName split.whole params.fileName) 0
        (split.limit - 1) = .ok files' ∧
      files'.read (formatChunkFileName split.whole params.fileName) =
        some (split.kept.bytesOf source) := by
  have hpast : t.PastPredecessor := Task.pastPredecessor_of_cropping hphase
  obtain ⟨-, bytes, hready⟩ := h.ready hsize hwhole hkept (by simp [Task.Cropped, hphase])
    (fun _ _ => h.ended_of (Or.inr (Or.inr hpast)))
  obtain ⟨ino, hlookup, hcontent⟩ := Option.map_eq_some_iff.mp hready.read
  have henough := hready.enough
  have hlast : split.last - split.whole.start = split.limit - 1 := by
    unfold ChunkSplit.limit
    omega
  have hcrop : cropBytes bytes 0 (split.limit - 1) = split.kept.bytesOf source := by
    have hinside := h.linked.inside
    rw [hwhole, hkept] at hinside
    rw [← cropBytes_of_prefix split.inFile.start_nonneg rfl hinside hready.front
      (by rw [hlast]; omega), hlast]
    exact congrArg (cropBytes bytes · _) (sub_self split.whole.start).symm
  refine ⟨_, cropFile_of_lt hlookup (by rw [hcontent]; omega), ?_⟩
  rw [FileSystem.read_overwrite_self _ hlookup, hcontent, hcrop]

/-- **Every turn** of the succession to the kept part does what it should. -/
theorem keptTurn (h : SplitSuccession params split w w' i t p k u)
    (hsize : ∀ n ∈ params.fileSize, n = (source.length : Int))
    (hwhole : (w.record p).range = split.whole) (hkept : t.range = split.kept) {e : TaskEvent}
    (he : ∀ effect, e ≠ .fails effect)
    (hrun : SuccessionState.run ⟨t, w.record t.stats, w.record p, w.files⟩ k.isSome
      (k.bind w.taskResult) e = some u) :
    w.KeptTurn params split t p u := by
  have hok := h.before.kept i t p k h.task hkept h.job
  have hname := h.name_predecessor
  rw [hwhole] at hname
  have hname' := h.name_successor
  rw [hkept] at hname'
  unfold SuccessionState.run at hrun
  split at hrun <;> first | cases hrun; done | rename_i hphase
  · -- created
    have hphase : t.phase = .created := hphase
    rw [hphase] at hok
    have hawaiting : (w.record t.stats).status = .awaitingSuccession := hok
    obtain rfl := Option.some.inj hrun
    have huncropped : ¬ t.Cropped := by simp [Task.Cropped, hphase]
    unfold SuccessionState.begin
    dsimp only
    rw [if_neg (not_not.mpr hawaiting)]
    split
    · exact .waits huncropped rfl rfl (Or.inl rfl)
    · rename_i hnone
      have hnone' : k = none := by simpa using hnone
      rw [h.succeed_eq hsize hwhole hkept huncropped (fun _ _ => h.ended_of (Or.inl hnone'))
        (by simp)]
      exact .waits huncropped rfl rfl (Or.inr rfl)
  · -- the predecessor has ended
    have hphase : t.phase = .awaitingPredecessor := hphase
    obtain ⟨r, hr, rfl⟩ := Option.map_eq_some_iff.mp hrun
    have hdone : ∀ (j : TaskId) (t' : Task), w.tasks[j]? = some t' → t'.stats = p → t'.Done :=
      fun _ _ => h.ended_of (Or.inr (Or.inl (by rw [hr]; rfl)))
    have huncropped : ¬ t.Cropped := by simp [Task.Cropped, hphase]
    rw [h.succeed_eq hsize hwhole hkept huncropped hdone fun e hre => ?_]
    · exact .waits huncropped rfl rfl (Or.inr rfl)
    · obtain ⟨j₀, rfl, hresult⟩ := Option.bind_eq_some_iff.mp hr
      obtain ⟨t₁, ht₁, hstats₁⟩ := h.linked.task j₀ rfl
      have hnot := (h.ready hsize hwhole hkept huncropped hdone).1 j₀ t₁ ht₁ hstats₁ e
      simp only [taskResult, ht₁, Option.bind_some] at hresult
      exact hnot (hre ▸ Task.result_eq_some.mp hresult)
  · -- the crop
    rename_i startCrop endCrop
    have hphase : t.phase = .cropping startCrop endCrop := hphase
    rw [hphase] at hok
    obtain ⟨rfl, rfl⟩ := hok
    obtain ⟨files', hcrop, hread⟩ := h.crop_kept hsize hwhole hkept hphase
    rw [show (SuccessionState.mk t (w.record t.stats) (w.record p)
        w.files).predecessor.chunkFileName = _ from hname, hcrop] at hrun
    obtain rfl := Option.some.inj hrun
    exact .crops (Task.pastPredecessor_of_cropping hphase) rfl rfl hread
  · exact absurd rfl (he _)
  · -- the move
    rename_i startCrop endCrop
    have hphase : t.phase = .moving startCrop endCrop := hphase
    rw [hphase] at hok
    obtain ⟨rfl, rfl, hread⟩ := hok
    obtain ⟨ino, hlookup, hcontent⟩ := Option.map_eq_some_iff.mp hread
    rw [show (SuccessionState.mk t (w.record t.stats) (w.record p)
        w.files).predecessor.chunkFileName = _ from hname,
      show (SuccessionState.mk t (w.record t.stats) (w.record p)
        w.files).successor.chunkFileName = _ from hname', hlookup] at hrun
    obtain rfl := Option.some.inj hrun
    have hnames : formatChunkFileName split.whole params.fileName ≠
        formatChunkFileName split.kept params.fileName := fun he =>
      split.kept_ne_whole (formatChunkFileName_inj he).1.symm
    refine .moves (by simp [Task.Cropped, hphase]) rfl rfl rfl ?_ ?_ ?_
    · show split.limit - 1 - 0 + 1 = split.limit
      omega
    · show (w.files.rename _ _).read _ = _
      rw [FileSystem.read_rename hlookup, if_pos rfl, hread]
    · show (w.files.rename _ _).lookup _ = none
      rw [FileSystem.lookup_rename hlookup, if_neg hnames, if_pos rfl]
  · exact absurd rfl (he _)
  · exact absurd hphase h.linked.unstopped.2

end SplitSuccession

end World

namespace World

variable {source : Bytes} {params : ChunkManagerParams} {split : ChunkSplit source.length}
  {w w' : World}

/-! ### Each step -/

/-- A step that leaves all three ranges alone keeps the invariant. -/
theorem Splits.untouched (h : w.Splits params split) (hlinked : w'.SplitLinked params split)
    (hapart : ∀ (i : TaskId) (t : Task), w'.tasks[i]? = some t → Apart params split w'.files t)
    (huntouched : ∀ r, split.Names r → w.Untouched params w' r) : w'.Splits params split := by
  have hwhole := huntouched split.whole (Or.inl rfl)
  have hkept := huntouched split.kept (Or.inr (Or.inl rfl))
  have hrest := huntouched split.rest (Or.inr (Or.inr rfl))
  refine ⟨hlinked, hapart, fun i t ht hrange => hwhole.whole hkept h ht hrange,
    fun i t ht hrange => hrest.rest h ht hrange, fun i t p k ht hrange hjob => ?_,
    fun i j t t' ht ht' hrange hcropped hrange' => ?_⟩
  · have ht₀ := (hkept.task i t hrange).mp ht
    refine hkept.kept h ht hrange hjob fun _ => ⟨?_, hwhole.file⟩
    obtain ⟨hp, -⟩ | ⟨-, hnot⟩ := h.successors i t p k ht₀ hjob
    · rw [hwhole.record p (h.succession i t p k ht₀ hjob).predecessor hp]
    · exact absurd (Or.inr (Or.inl hrange)) hnot
  · exact h.ended i j t t' ((hkept.task i t hrange).mp ht) ((hwhole.task j t' hrange').mp ht')
      hrange hcropped hrange'

namespace SplitSuccession

variable {i : TaskId} {t : Task} {p : StatsId} {k : Option TaskId} {u : SuccessionState}

/-- A turn of the succession to the kept part keeps the invariant. -/
theorem splits_kept (h : SplitSuccession params split w w' i t p k u)
    (hlinked : w'.SplitLinked params split) (hwhole : (w.record p).range = split.whole)
    (hkept : t.range = split.kept) (hturn : w.KeptTurn params split t p u) :
    w'.Splits params split := by
  have hrest : w.Untouched params w' split.rest :=
    h.untouched (hkept ▸ split.rest_ne_kept) (hwhole ▸ split.rest_ne_whole)
  have hself : ∀ {j : TaskId} {t' : Task}, w'.tasks[j]? = some t' → t'.range = split.kept →
      t' = u.task := fun {j t'} ht' hrange => by
    obtain ⟨-, hu⟩ | ⟨hji, ht₀⟩ := h.task_of ht'
    · exact hu
    · exact absurd (h.kept_unique hkept ht₀ hrange).1 hji
  have hother : ∀ {j : TaskId} {t' : Task}, w'.tasks[j]? = some t' → t'.range = split.whole →
      w.tasks[j]? = some t' := fun {j t'} ht' hrange => by
    obtain ⟨-, rfl⟩ | ⟨-, ht₀⟩ := h.task_of ht'
    · exact absurd (hkept.symm.trans (h.later.range.symm.trans hrange)) split.kept_ne_whole
    · exact ht₀
  -- the task of the chunk is that of the predecessor's record
  have hstats : ∀ {j : TaskId} {t' : Task}, w.tasks[j]? = some t' → t'.range = split.whole →
      t'.stats = p := fun {j t'} ht' hrange => by
    obtain ⟨j₁, t₁, ht₁, hp, hrange₁⟩ := h.whole_task hwhole
    obtain rfl := h.before.unique ht₁ ht' (Or.inl hrange₁) (hrange.trans hrange₁.symm)
    rw [← hp, Option.some.inj (ht₁.symm.trans ht')]
  refine ⟨hlinked, fun _ _ => h.apart, fun j t' ht' hrange huncropped => ?_,
    fun j t' ht' hrange => hrest.rest h.before ht' hrange, fun j t' q k' ht' hrange hjob => ?_,
    fun j₁ j₂ t₁ t₂ ht₁ ht₂ hrange hcropped hrange₂ => ?_⟩
  · have hu := huncropped i u.task h.get_self (h.later.range.trans hkept)
    cases hturn with
    | waits hbefore hfiles hpredecessor _ =>
        have ht₀ := hother ht' hrange
        have hfetches := h.before.whole j t' ht₀ hrange fun j' t₁ ht₁ hr =>
          (h.kept_unique hkept ht₁ hr).2 ▸ hbefore
        have hrecord : w'.record t'.stats = w.record t'.stats := by
          rw [hstats ht₀ hrange, h.record_predecessor, hpredecessor]
        have hfiles' : w'.files = w.files := h.turn.files.trans hfiles
        exact ⟨by rw [hrecord, hfiles']; exact hfetches.ok, by rw [hrecord]; exact hfetches.stopped,
          by rw [hrecord]; exact hfetches.observed⟩
    | crops _ _ hphase _ => exact absurd (by simp [Task.Cropped, hphase]) hu
    | moves _ hphase _ _ _ _ _ => exact absurd (by simp [Task.Cropped, hphase]) hu
  · obtain rfl := hself ht' hrange
    obtain ⟨rfl, rfl⟩ := Job.succession.inj ((h.later.job.trans h.job).symm.trans hjob)
    cases hturn with
    | waits _ _ _ hphase =>
        rcases hphase with hphase | hphase <;> rw [hphase]
        · trivial
        · exact ⟨rfl, rfl⟩
    | crops _ _ hphase hread =>
        rw [hphase]
        exact ⟨rfl, rfl, h.turn.files ▸ hread⟩
    | moves _ hphase hpredecessor hstatus hbytes hread hgone =>
        rw [hphase]
        refine ⟨?_, ?_, ?_, h.turn.files ▸ hread, h.turn.files ▸ hgone⟩
        · rw [h.record_predecessor]
          exact hpredecessor
        · rw [h.later.stats, h.record_self]
          exact hstatus
        · rw [h.later.stats, h.record_self]
          exact hbytes
  · obtain rfl := hself ht₁ hrange
    have ht₀ := hother ht₂ hrange₂
    cases hturn with
    | waits _ _ _ hphase =>
        rcases hphase with hphase | hphase <;> simp [Task.Cropped, hphase] at hcropped
    | crops hbefore _ _ _ => exact h.linked.ended (Or.inr hbefore) j₂ t₂ ht₀ (hstats ht₀ hrange₂)
    | moves hbefore _ _ _ _ _ _ =>
        exact h.before.ended i j₂ t t₂ h.task ht₀ hkept hbefore hrange₂

/-- A turn of a succession keeps the invariant. -/
theorem splits (h : SplitSuccession params split w w' i t p k u)
    (hlinked : w'.SplitLinked params split)
    (hsize : ∀ n ∈ params.fileSize, n = (source.length : Int)) {e : TaskEvent}
    (he : ∀ effect, e ≠ .fails effect)
    (hrun : SuccessionState.run ⟨t, w.record t.stats, w.record p, w.files⟩ k.isSome
      (k.bind w.taskResult) e = some u) :
    w'.Splits params split := by
  obtain ⟨hwhole, hkept⟩ | ⟨hp, ht⟩ := h.before.successors i t p k h.task h.job
  · exact h.splits_kept hlinked hwhole hkept (h.keptTurn hsize hwhole hkept he hrun)
  · exact h.before.untouched hlinked (fun _ _ => h.apart) fun r hname =>
      h.untouched (fun he => ht (he ▸ hname)) fun he => hp (he ▸ hname)

end SplitSuccession

end World

namespace World

variable {source : Bytes} {params : ChunkManagerParams} {split : ChunkSplit source.length}
  {w w' : World}

/-- Registering a chunk leaves alone the ranges that it is not about. -/
theorem untouched_of_creates {r name : ChunkRange} {job : Job} {status : EDownloadStatus}
    (hcreates : w.Creates params w' r job) (hgrows : w.Grows params w' r status) (hne : name ≠ r)
    (hsame : ∀ (i : TaskId) (t' : Task), i ≠ w.tasks.length → w'.tasks[i]? = some t' →
      ∃ t, w.tasks[i]? = some t ∧ (t' = t ∨ t.range ≠ name ∧ t.Asked t'))
    (hrecord : ∀ s < w.stats.length, (w.record s).range = name → w'.record s = w.record s) :
    w.Untouched params w' name := by
  refine ⟨fun i t hr => ⟨fun ht' => ?_, fun ht => ?_⟩,
    hrecord, by rw [hgrows.files]; exact .refl _ _⟩
  · by_cases hi : i = w.tasks.length
    · rw [hi, hcreates.newTask] at ht'
      exact absurd (hr.symm.trans (congrArg Task.range (Option.some.inj ht').symm)) hne
    · obtain ⟨t₀, ht₀, rfl | ⟨hr₀, c, rfl⟩⟩ := hsame i t hi ht'
      · exact ht₀
      · exact absurd hr hr₀
  · have hi : i ≠ w.tasks.length := Nat.ne_of_lt (List.getElem?_eq_some_iff.mp ht).1
    obtain ⟨t', ht', -⟩ := hcreates.task i t ht
    obtain ⟨t₀, ht₀, rfl | ⟨hr₀, -⟩⟩ := hsame i t' hi ht'
    · exact (ht₀.symm.trans ht) ▸ ht'
    · exact absurd (Option.some.inj (ht₀.symm.trans ht) ▸ hr) hr₀

/-- A task that was just created has nothing open, and the others what they had. -/
theorem Splits.apart_creates (h : w.Splits params split) {r : ChunkRange} {job : Job}
    {status : EDownloadStatus} (hcreates : w.Creates params w' r job)
    (hgrows : w.Grows params w' r status)
    (hasked : ∀ (i : TaskId) (t' : Task), i ≠ w.tasks.length → w'.tasks[i]? = some t' →
      ∃ t, w.tasks[i]? = some t ∧ t.Asked t') {i : TaskId} {t' : Task}
    (ht' : w'.tasks[i]? = some t') : Apart params split w'.files t' := by
  by_cases hi : i = w.tasks.length
  · rw [hi, hcreates.newTask] at ht'
    obtain rfl := Option.some.inj ht'
    intro file hf
    cases hf
  · obtain ⟨t, ht, c, rfl⟩ := hasked i t' hi ht'
    exact (h.apart i t ht).of_same rfl rfl hgrows.files

/-- A download that was just created. -/
theorem Grows.fetches {r : ChunkRange} (h : w.Grows params w' r .pending) (limit : Option Int) :
    w'.Fetches source limit { range := r, stats := w.stats.length, job := .download } := by
  obtain ⟨speed, hfresh⟩ := h.fresh
  refine ⟨⟨fun _ => Or.inl ?_, ?_⟩, fun hstopped => ?_, fun hobserved => ?_⟩
  · show (w'.record w.stats.length).status = _
    rw [hfresh]
  · show (w'.record w.stats.length).bytesDownloaded = 0
    rw [hfresh]
    rfl
  · rcases hstopped with hc | hc
    · cases hc
    · cases hc
  · rw [hfresh] at hobserved
    rcases hobserved with hc | hc
    · cases hc
    · exact absurd rfl hc

/-- The ranges that tasks are about are registered. -/
theorem Linked.mem_keys (h : w.Linked source params) {i : TaskId} {t : Task}
    (ht : w.tasks[i]? = some t) : t.range ∈ w.chunksStats.keys := by
  obtain ⟨hlt, hrange⟩ := h.task i t ht
  exact hrange ▸ (h.stats _ hlt).2.1

/-- A `start_chunk` that registers a chunk keeps the invariant. -/
theorem Splits.started (h : w.Splits params split) (hlinked : w'.SplitLinked params split)
    {r : ChunkRange} (hstarted : w.Started params w' r)
    (hnew : split.Names r → r ≠ split.kept ∧ r ∉ w.chunksStats.keys) : w'.Splits params split := by
  have hapart : ∀ (i : TaskId) (t : Task), w'.tasks[i]? = some t → Apart params split w'.files t :=
    fun i t => h.apart_creates hstarted.toCreates hstarted.toGrows fun i t' hi ht' =>
      ⟨t', hstarted.tasks i hi ▸ ht', .refl t'⟩
  have huntouched : ∀ name, name ≠ r → w.Untouched params w' name := fun name hne =>
    untouched_of_creates hstarted.toCreates hstarted.toGrows hne
      (fun i t' hi ht' => ⟨t', hstarted.tasks i hi ▸ ht', Or.inl rfl⟩)
      fun s hs _ => hstarted.same s hs
  by_cases hname : split.Names r
  swap
  · exact h.untouched hlinked hapart fun name hname' => huntouched name fun he =>
      hname (he ▸ hname')
  obtain ⟨hnotKept, hkey⟩ := hnew hname
  have hkept := huntouched split.kept hnotKept.symm
  -- the one task of the range is the new one
  have hself : ∀ (i : TaskId) (t' : Task), w'.tasks[i]? = some t' → t'.range = r →
      t' = { range := r, stats := w.stats.length, job := .download } := by
    intro i t' ht' hrange
    by_cases hi : i = w.tasks.length
    · rw [hi, hstarted.newTask] at ht'
      exact (Option.some.inj ht').symm
    · rw [hstarted.tasks i hi] at ht'
      exact absurd (hrange ▸ h.mem_keys ht') hkey
  refine ⟨hlinked, hapart, fun i t' ht' hrange huncropped => ?_, fun i t' ht' hrange => ?_,
    fun i t' p k ht' hrange hjob => ?_, fun i j t₁ t₂ ht₁ ht₂ hrange hcropped hrange₂ => ?_⟩
  · by_cases hr : split.whole = r
    · rw [hself i t' ht' (hrange.trans hr)]
      exact hstarted.toGrows.fetches _
    · exact (huntouched _ hr).whole hkept h ht' hrange huncropped
  · by_cases hr : split.rest = r
    · rw [hself i t' ht' (hrange.trans hr)]
      exact hstarted.toGrows.fetches _
    · exact (huntouched _ hr).rest h ht' hrange
  · refine hkept.kept h ht' hrange hjob fun _ => ⟨?_, by rw [hstarted.files]; exact .refl _ _⟩
    have ht₀ := (hkept.task i t' hrange).mp ht'
    rw [hstarted.same p (h.succession i t' p k ht₀ hjob).predecessor]
  · have ht₀ := (hkept.task i t₁ hrange).mp ht₁
    by_cases hr : split.whole = r
    · -- a succession from the chunk has its record
      cases hjob : t₁.job with
      | download => exact absurd hjob (h.keptJob i t₁ ht₀ hrange)
      | succession p k =>
          obtain ⟨hp, -⟩ | ⟨-, hnot⟩ := h.successors i t₁ p k ht₀ hjob
          · refine absurd ?_ hkey
            rw [← hr, ← hp]
            exact (h.stats p (h.succession i t₁ p k ht₀ hjob).predecessor).2.1
          · exact absurd (Or.inr (Or.inl hrange)) hnot
    · exact h.ended i j t₁ t₂ ht₀ (((huntouched _ hr).task j t₂ hrange₂).mp ht₂) hrange hcropped
        hrange₂

/-- The download of the chunk that is resized. -/
theorem Splits.resized_whole (h : w.Splits params split) {a : StatsId}
    (htable : w.chunksStats.get? split.whole = some a)
    (hnone : ∀ (i : TaskId) (t : Task), w.tasks[i]? = some t → t.range ≠ split.kept)
    (hresized : w.Resized params w' split.whole split.kept a split.limit) {i : TaskId} {t' : Task}
    (ht' : w'.tasks[i]? = some t') (hrange : t'.range = split.whole) :
    w'.Fetches source (some split.limit) t' := by
  obtain ⟨halt, -⟩ := h.registered.stats _ _ htable
  have hi : i ≠ w.tasks.length := by
    rintro rfl
    rw [hresized.newTask] at ht'
    exact split.kept_ne_whole ((congrArg Task.range (Option.some.inj ht')).trans hrange)
  obtain ⟨t, ht, hsame⟩ := hresized.asked i t' hi ht'
  obtain ⟨c, rfl⟩ : t.Asked t' := by
    obtain rfl | ⟨-, -, hasked⟩ := hsame
    · exact .refl _
    · exact hasked
  have hrange₀ : t.range = split.whole := hrange
  have hf := h.whole i t ht hrange₀ fun j t₂ ht₂ hr => absurd hr (hnone j t₂ ht₂)
  have hstats : t.stats = a :=
    Option.some.inj ((h.named i t ht (Or.inl hrange₀)).symm.trans (hrange₀ ▸ htable))
  have hrecord := hresized.predecessor
  rw [← hstats] at hrecord hsame
  obtain ⟨hbytes, hstatus⟩ := observed_fields w t.stats split.limit
    ⟨t.stats, w.chunksTasks.get? split.whole⟩
  have hsr := hresized.record t.stats (hstats ▸ halt)
  refine ⟨?_, fun hstopped => ?_, fun hobserved => ?_⟩
  · refine hf.ok.congr ⟨hsr.chunkFileName, hsr.fileSize, ?_, ?_⟩ rfl ?_
    · show (w'.record t.stats).bytesDownloaded = _
      rw [hrecord]
      exact hbytes
    · rw [hresized.files]
      exact .refl _ _
    · show (w'.record t.stats).status = _
      rw [hrecord]
      exact hstatus
  · show ∃ l ∈ some split.limit, l ≤ (w'.record t.stats).bytesDownloaded
    rw [hrecord, hbytes]
    obtain heq | ⟨hcalled, -, -⟩ := hsame
    · rw [heq] at hstopped
      exact hf.stopped hstopped
    · -- the callback was called at once, with the limit reached
      exact ⟨_, rfl, observed_called hcalled⟩
  · have hobserved : (w'.record t.stats).limited = true ∨
        (w'.record t.stats).limitQtBytes ≠ 0 := hobserved
    show some split.limit = some (w'.record t.stats).limitQtBytes
    rw [hrecord] at hobserved ⊢
    rcases observed_limit w t.stats split.limit
      ⟨t.stats, w.chunksTasks.get? split.whole⟩ with hsame' | hlimit
    · rw [hsame'] at hobserved ⊢
      exact hf.observed hobserved
    · rw [hlimit]

/-- **The resize** of the chunk: its download goes on, perhaps to a limit, or is asked to stop. -/
theorem Splits.resized (h : w.Splits params split) (hlinked : w'.SplitLinked params split)
    {a : StatsId} (htable : w.chunksStats.get? split.whole = some a)
    (hkey : split.kept ∉ w.chunksStats.keys)
    (hresized : w.Resized params w' split.whole split.kept a split.limit) :
    w'.Splits params split := by
  have hapart : ∀ (i : TaskId) (t : Task), w'.tasks[i]? = some t → Apart params split w'.files t :=
    fun i t => h.apart_creates hresized.toCreates hresized.toGrows fun i t' hi ht' => by
      obtain ⟨t, ht, rfl | ⟨-, -, hasked⟩⟩ := hresized.asked i t' hi ht'
      · exact ⟨t', ht, .refl t'⟩
      · exact ⟨t, ht, hasked⟩
  obtain ⟨halt, harange⟩ := h.registered.stats _ _ htable
  have hentry : ∀ i, w.chunksTasks.get? split.whole = some i →
      ∃ t, w.tasks[i]? = some t ∧ t.range = split.whole := fun i hi => h.registered.entry _ i hi
  have hrest : w.Untouched params w' split.rest := by
    refine untouched_of_creates hresized.toCreates hresized.toGrows split.rest_ne_kept
      (fun i t' hi ht' => ?_) fun s hs hr => hresized.other s hs fun he => ?_
    · obtain ⟨t, ht, rfl | ⟨-, hget, hasked⟩⟩ := hresized.asked i t' hi ht'
      · exact ⟨t', ht, Or.inl rfl⟩
      · obtain ⟨t₁, ht₁, hrange₁⟩ := hentry i hget
        obtain rfl := Option.some.inj (ht₁.symm.trans ht)
        exact ⟨t₁, ht, Or.inr ⟨hrange₁ ▸ split.rest_ne_whole.symm, hasked⟩⟩
    · exact split.rest_ne_whole (hr.symm.trans (he ▸ harange))
  have hnone : ∀ (i : TaskId) (t : Task), w.tasks[i]? = some t → t.range ≠ split.kept :=
    fun i t ht hr => hkey (hr ▸ h.mem_keys ht)
  have hnew : ∀ (i : TaskId) (t' : Task), w'.tasks[i]? = some t' → t'.range = split.kept →
      t' = { range := split.kept, stats := w.stats.length,
             job := .succession a (w.chunksTasks.get? split.whole) } := by
    intro i t' ht' hrange
    by_cases hi : i = w.tasks.length
    · rw [hi, hresized.newTask] at ht'
      exact (Option.some.inj ht').symm
    · obtain ⟨t, ht, hsame⟩ := hresized.asked i t' hi ht'
      obtain ⟨t₁, ht₁, hl⟩ := hresized.task i t ht
      obtain rfl := Option.some.inj (ht₁.symm.trans ht')
      exact absurd (hl.range.symm.trans hrange) (hnone i t ht)
  refine ⟨hlinked, hapart, fun i t' ht' hrange _ => ?_, fun i t' ht' hrange =>
    hrest.rest h ht' hrange, fun i t' p k ht' hrange hjob => ?_,
    fun i j t₁ t₂ ht₁ ht₂ hrange hcropped _ => ?_⟩
  · exact h.resized_whole htable hnone hresized ht' hrange
  · obtain rfl := hnew i t' ht' hrange
    obtain ⟨speed, hfresh⟩ := hresized.fresh
    show (w'.record w.stats.length).status = .awaitingSuccession
    rw [hfresh]
  · rw [hnew i t₁ ht₁ hrange] at hcropped
    exact absurd hcropped (by simp [Task.Cropped])

theorem splits_init (params : ChunkManagerParams) (split : ChunkSplit source.length)
    (files : Files) : (World.init files []).Splits params split := by
  refine ⟨splitLinked_init params split files, ?_, ?_, ?_, ?_, ?_⟩ <;> simp [World.init]

/-- **Every step** of a run with the split keeps the invariant. -/
theorem Splits.step (h : w.Splits params split)
    (hsize : ∀ n ∈ params.fileSize, n = (source.length : Int)) {e : Event} {out : List Returned}
    (hused : UsedToSplit split w e) (hstep : SDownload.step params w e = some (w', out)) :
    w'.Splits params split := by
  have hlinked := h.toSplitLinked.step hused hstep
  obtain ⟨hhonest, hsplit⟩ := hused
  cases (h.honestStep hhonest hstep).1 with
  | collects hcollects =>
      refine h.untouched hlinked (fun i t ht => ?_) fun r _ =>
        ⟨fun i t _ => ?_, fun s _ _ => ?_, ?_⟩
      · rw [hcollects.tasks] at ht
        exact (h.apart i t ht).of_same rfl rfl hcollects.files
      · rw [hcollects.tasks]
      · rw [record, record, hcollects.stats]
      · rw [hcollects.files]
        exact .refl _ _
  | started hin hfree hkey hstarted => exact h.started hlinked hstarted hsplit
  | @resized currentRange newRange e a _ hbounded hnew hresizes htable hresized =>
      obtain ⟨rfl, rfl⟩ | ⟨hcurrent, hnotNew⟩ := hsplit
      · obtain rfl := Option.some.inj hbounded
        exact h.resized hlinked htable hnew hresized
      · obtain ⟨halt, harange⟩ := h.registered.stats _ _ htable
        refine h.untouched hlinked (fun i t => h.apart_creates hresized.toCreates hresized.toGrows
          fun i t' hi ht' => ?_) fun r hname => untouched_of_creates hresized.toCreates
            hresized.toGrows (fun he => hnotNew (he ▸ hname)) (fun i t' hi ht' => ?_)
              fun s hs hr => hresized.other s hs fun he => hcurrent ?_
        · obtain ⟨t, ht, rfl | ⟨-, -, hasked⟩⟩ := hresized.asked i t' hi ht'
          · exact ⟨t', ht, .refl t'⟩
          · exact ⟨t, ht, hasked⟩
        · obtain ⟨t, ht, rfl | ⟨-, hget, hasked⟩⟩ := hresized.asked i t' hi ht'
          · exact ⟨t', ht, Or.inl rfl⟩
          · obtain ⟨t₁, ht₁, hrange₁⟩ := h.registered.entry _ i hget
            obtain rfl := Option.some.inj (ht₁.symm.trans ht)
            exact ⟨t₁, ht, Or.inr ⟨fun he => hcurrent (hrange₁ ▸ he ▸ hname), hasked⟩⟩
        · rw [← harange, ← he, hr]
          exact hname
  | turn ht hturnHonest hturn =>
      unfold HonestTurn at hturnHonest
      split at hturnHonest
      · rename_i hjob
        obtain ⟨d, called, hd⟩ := h.downloadStep ht hjob hturnHonest hturn
        exact hd.splits hlinked
      · rename_i hjob
        obtain ⟨u, hu, hrun⟩ := h.successionStep ht hjob hturnHonest hturn
        exact hu.splits hlinked hsize hturnHonest hrun

end World

/-! ### Runs -/

/-- **Work stealing.** A chunk is cut at any byte before its last one and at any moment: when all
tasks have ended, the chunk is deprecated and its file gone, and the two parts are complete with
exactly their bytes of the source, which are as many as the chunk had. -/
theorem work_stealing_exact {source : Bytes} (params : ChunkManagerParams) (files : Files)
    (split : ChunkSplit source.length) (hsize : ∀ n ∈ params.fileSize, n = (source.length : Int))
    {w : World} (h : Reaches (step params) (UsedToSplit split) (World.init files []) w)
    (hdone : w.AllDone) (hkept : split.kept ∈ w.chunksStats.keys)
    (hrest : split.rest ∈ w.chunksStats.keys) :
    ∃ whole kept rest, w.statsOf split.whole = some whole ∧ w.statsOf split.kept = some kept ∧
      w.statsOf split.rest = some rest ∧ whole.status = .deprecated ∧ kept.status = .completed ∧
      rest.status = .completed ∧
      w.files.read (formatChunkFileName split.kept params.fileName) =
        some (split.kept.bytesOf source) ∧
      w.files.read (formatChunkFileName split.rest params.fileName) =
        some (split.rest.bytesOf source) ∧
      w.files.lookup (formatChunkFileName split.whole params.fileName) = none ∧
      kept.bytesDownloaded + rest.bytesDownloaded =
        split.whole.stop source.length - split.whole.start := by
  have hsplits : w.Splits params split := h.invariant (World.splits_init params split files)
    fun hsplits hused hstep => hsplits.step hsize hused hstep
  rw [World.allDone_iff] at hdone
  obtain ⟨b, hb⟩ := Dict.mem_keys_iff.mp hkept
  obtain ⟨c, hc⟩ := Dict.mem_keys_iff.mp hrest
  obtain ⟨i, t, ht, hrange, rfl⟩ := hsplits.task_of_entry hb
  obtain ⟨j, t', ht', hrange', rfl⟩ := hsplits.task_of_entry hc
  cases hjob : t.job with
  | download => exact absurd hjob (hsplits.keptJob i t ht hrange)
  | succession p k =>
      -- the succession is at its end, and its predecessor is the chunk
      obtain ⟨r, hr⟩ := Task.done_iff.mp (hdone i t ht)
      have hok := hsplits.kept i t p k ht hrange hjob
      rw [hr] at hok
      obtain ⟨hdeprecated, hcompleted, hbytes, hread, hgone⟩ := hok
      obtain ⟨hp, -⟩ | ⟨-, hnot⟩ := hsplits.successors i t p k ht hjob
      swap
      · exact absurd (Or.inr (Or.inl hrange)) hnot
      obtain ⟨l, t₁, ht₁, hstats₁⟩ :=
        hsplits.tasked p (hsplits.succession i t p k ht hjob).predecessor
      have hrange₁ : t₁.range = split.whole := by rw [← hp, ← hstats₁, (hsplits.task l t₁ ht₁).2]
      have ha : w.chunksStats.get? split.whole = some p := by
        rw [← hrange₁, ← hstats₁]
        exact hsplits.named l t₁ ht₁ (Or.inl hrange₁)
      -- nothing stops the download of the rest
      have hin : t'.range.InFile source.length := hrange' ▸ split.rest_inFile
      obtain ⟨-, hcompleted', bytes, hread', hbytes', rfl⟩ | ⟨-, ⟨l, hl, -⟩, -⟩ :=
        (hsplits.rest j t' ht' hrange').done hsplits.toLinked ht' hin hsize (hdone j t' ht')
      swap
      · cases hl
      obtain ⟨hlt', hstats'⟩ := hsplits.task j t' ht'
      have hname : (w.record t'.stats).chunkFileName =
          formatChunkFileName split.rest params.fileName := by
        rw [hsplits.chunkFileName hlt', hstats', hrange']
      refine ⟨w.record p, w.record t.stats, w.record t'.stats, ?_, ?_, ?_, hdeprecated, hcompleted,
        hcompleted', hread, ?_, hgone, ?_⟩
      · rw [World.statsOf, ha, Option.map_some]
      · rw [World.statsOf, hb, Option.map_some]
      · rw [World.statsOf, hc, Option.map_some]
      · rw [← hname, ← hrange']
        exact hread'
      · have hcount : (w.record t'.stats).bytesDownloaded =
            split.whole.stop source.length - (split.last + 1) := by
          refine hbytes'.trans ?_
          rw [hin.length_bytesOf, hrange']
          rfl
        rw [hbytes, hcount, ChunkSplit.limit]
        omega

/-- Four bytes of a file of unknown size, cut in the middle when three of them have come. -/
def stolenRun : List Event :=
  [.startChunk ⟨0, none⟩ none, .task 0 .begins, .task 0 .opened, .task 0 (.piece [1, 2, 3]),
    .task 0 .written, .resizeChunk ⟨0, none⟩ ⟨0, some 1⟩, .startChunk ⟨2, none⟩ none,
    .task 1 .begins, .task 0 (.cancelled none), .task 2 .begins, .task 0 .closed, .task 2 .opened,
    .task 1 .predecessorEnded, .task 2 (.piece [3]), .task 1 .cropped, .task 2 .written,
    .task 1 .moved, .task 2 (.piece [4]), .task 2 .written, .task 2 .eof, .task 2 .closed]

theorem work_stealing_exact_four :
    let params : ChunkManagerParams := ⟨"f", none, 1⟩
    let split : ChunkSplit ([1, 2, 3, 4] : Bytes).length :=
      ⟨⟨0, none⟩, 1, by decide, by decide, by decide⟩
    let w := runTo (step params) (UsedToSplit split) (World.init FileSystem.empty []) stolenRun
    w.tasks.length = 3 ∧ ∃ kept rest, w.statsOf split.kept = some kept ∧
      w.statsOf split.rest = some rest ∧ kept.bytesDownloaded + rest.bytesDownloaded = 4 := by
  intro params split w
  obtain ⟨-, kept, rest, -, hkept, hrest, -, -, -, -, -, -, hsum⟩ :=
    work_stealing_exact params FileSystem.empty split (by simp [params])
      (reaches_runTo _ _ _ stolenRun) (by decide) (by decide) (by decide)
  exact ⟨by decide, kept, rest, hkept, hrest, hsum⟩

end SDownload
