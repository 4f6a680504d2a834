import Mathlib.Algebra.Order.BigOperators.Group.List
import SDownload.Lib.Intervals
import SDownload.Manager.Counting

/-!
# SDownload.Manager.Shares

Every record has a share of its range, the bytes it may yet count: the whole range,
or what is left of it once the chunk is split. The shares of the records that are
counted lie apart in the file (`Accounts`), so together they are no more than it, and
`get_downloaded_bytes` is at most the file.

The turns of the tasks keep this, as long as no piece takes a chunk with a limit past
it, and so does registering a range that is apart from the shares.
-/

namespace SDownload

/-- How many bytes a range has in a file of `fileSize` bytes. -/
def ChunkRange.span (fileSize : Int) (r : ChunkRange) : Int := r.stop fileSize - r.start

/-! ### A turn of a succession -/

/-- Only one who knows the end of the predecessor gets past it. -/
theorem SuccessionState.Hands.pastPredecessor {u u' : SuccessionState} {ended : Bool}
    (h : u.Hands ended u') (hpast : u'.task.PastPredecessor) :
    ended = true ∨ u.task.PastPredecessor := by
  unfold Task.PastPredecessor at hpast
  cases h with
  | fails phase _ _ _ _ =>
      obtain ⟨e, he⟩ := phase
      rw [he] at hpast
      exact hpast.elim
  | goesOn phase _ _ _ =>
      rcases phase with hphase | ⟨hended, -⟩ | ⟨_, _, hcropping, -⟩
      · rw [hphase] at hpast
        exact hpast.elim
      · exact Or.inl hended
      · exact Or.inr (Task.pastPredecessor_of_cropping hcropping)
  | completes _ phase _ _ _ _ =>
      rw [phase] at hpast
      exact hpast.elim

theorem SuccessionState.Hands.cancelRequested {u u' : SuccessionState} {ended : Bool}
    (h : u.Hands ended u') : u'.task.cancelRequested = u.task.cancelRequested := by
  cases h with
  | fails _ _ _ _ requested => exact requested
  | goesOn _ _ _ requested => exact requested
  | completes _ _ _ _ _ requested => exact requested

/-- The predecessor's record is left alone, or deprecated by a succession that is past it. -/
theorem SuccessionState.Hands.leaves {u u' : SuccessionState} {ended : Bool}
    (h : u.Hands ended u') : u'.predecessor = u.predecessor ∨
      u.task.PastPredecessor ∧ u'.predecessor = u.predecessor.setStatus .deprecated := by
  cases h with
  | fails _ _ _ predecessor _ => exact Or.inl predecessor
  | goesOn _ _ predecessor _ => exact Or.inl predecessor
  | completes moving _ _ _ predecessor _ =>
      exact Or.inr ⟨Task.pastPredecessor_of_moving moving, predecessor⟩

namespace World

/-- The statuses `get_downloaded_bytes` counts. -/
def Counted (w : World) (s : StatsId) : Prop :=
  (w.record s).status ∈ [EDownloadStatus.completed, .downloading]

instance (w : World) (s : StatsId) : Decidable (w.Counted s) :=
  inferInstanceAs (Decidable (_ ∈ _))

/-- `get_downloaded_bytes`. -/
def getDownloadedBytes (w : World) : Int :=
  ((w.chunksStats.values.filter fun s => w.Counted s).map fun s =>
    (w.record s).bytesDownloaded).sum

variable {source : Bytes} {params : ChunkManagerParams} {cap : StatsId → Int} {w w' : World}

/-! ### The invariant -/

/-- A download and its record. -/
structure Fetching (source : Bytes) (w : World) (cap : Int) (i : TaskId) (t : Task) : Prop where
  counted : t.Counted source (w.record t.stats)
  held : cap = t.range.span source.length ∧ (w.record t.stats).limited = false ∨
    t.Held i (w.record t.stats) cap

/-- A succession, its record and its predecessor's. -/
structure Succeeding (source : Bytes) (w : World) (cap : Int) (t : Task) (p : StatsId)
    (predecessorTask : Option TaskId) : Prop extends w.SuccessionLinked t p predecessorTask where
  live : ¬ t.Done → cap = t.range.span source.length ∧ (w.record t.stats).status ≠ .completed
  crops : ∀ startCrop endCrop, t.phase = .cropping startCrop endCrop ∨
    t.phase = .moving startCrop endCrop → endCrop - startCrop + 1 = t.range.span source.length
  completed : (w.record t.stats).status = .completed →
    (w.record t.stats).bytesDownloaded = t.range.span source.length ∧
      (w.record p).status = .deprecated ∧ w.Ended p

/-- The record `b` is that of a succession of `p`. -/
def Succeeds (w : World) (p b : StatsId) : Prop :=
  ∃ (i : TaskId) (t : Task) (predecessorTask : Option TaskId), w.tasks[i]? = some t ∧
    t.job = .succession p predecessorTask ∧ t.stats = b

/-- Where the share of a record begins. -/
def shareStart (w : World) (s : StatsId) : Int := (w.record s).range.start

/-- The invariant: `cap` says how long the share of each record is. -/
structure Accounts (source : Bytes) (cap : StatsId → Int) (w : World) : Prop where
  registered : w.Registered
  waits : ∀ f ∈ w.calls, f.ofWait = true
  table : ∀ s < w.stats.length, w.chunksStats.get? (w.record s).range = some s
  inFile : ∀ s < w.stats.length, (w.record s).range.InFile source.length ∧
    (w.record s).fileSize = some ((w.record s).range.span source.length)
  share : ∀ s < w.stats.length, 0 ≤ (w.record s).bytesDownloaded ∧
    (w.record s).bytesDownloaded ≤ cap s ∧ cap s ≤ (w.record s).range.span source.length
  unsplit : ∀ s < w.stats.length, cap s = (w.record s).range.span source.length ∨
    ∃ s' < w.stats.length, (w.record s').range ≠ (w.record s).range ∧
      (w.record s).range.contains (w.record s').range = true
  apart : ∀ s < w.stats.length, ∀ s' < w.stats.length, s ≠ s' →
    Intervals.Apart w.shareStart cap s s' ∨ w.Succeeds s s' ∨ w.Succeeds s' s
  task : ∀ (i : TaskId) (t : Task), w.tasks[i]? = some t →
    t.stats < w.stats.length ∧ (w.record t.stats).range = t.range
  own : ∀ (i j : TaskId) (t t' : Task), w.tasks[i]? = some t → w.tasks[j]? = some t' →
    t.stats = t'.stats → i = j
  owner : ∀ s < w.stats.length, ∃ (i : TaskId) (t : Task), w.tasks[i]? = some t ∧
    t.stats = s
  download : ∀ (i : TaskId) (t : Task), w.tasks[i]? = some t → t.job = .download →
    w.Fetching source (cap t.stats) i t
  succession : ∀ (i : TaskId) (t : Task) (p : StatsId) (predecessorTask : Option TaskId),
    w.tasks[i]? = some t → t.job = .succession p predecessorTask →
      w.Succeeding source (cap t.stats) t p predecessorTask

/-- Every record has a share. -/
def Accounted (source : Bytes) (w : World) : Prop := ∃ cap, w.Accounts source cap

theorem accounts_init (source : Bytes) (files : Files) :
    (World.init files []).Accounts source (fun _ => 0) := by
  constructor
  · exact registered_init files []
  all_goals simp [World.init]

/-! ### What is counted -/

/-- A succession counts when its predecessor no longer does. -/
theorem Accounts.not_both (h : w.Accounts source cap) {p b : StatsId} (hsucceeds : w.Succeeds p b)
    (hp : w.Counted p) : ¬ w.Counted b := by
  obtain ⟨i, t, predecessorTask, ht, hjob, rfl⟩ := hsucceeds
  have hs := h.succession i t p predecessorTask ht hjob
  intro hb
  unfold Counted at hp hb
  have hcompleted : (w.record t.stats).status = .completed := by
    have hnot := hs.status
    simp only [List.mem_cons, List.not_mem_nil, or_false, not_or] at hb hnot
    exact hb.resolve_right hnot.2
  rw [(hs.completed hcompleted).2.1] at hp
  simp at hp

/-- The records of the table are different ones. -/
theorem Accounts.values_nodup (h : w.Accounts source cap) : w.chunksStats.values.Nodup := by
  have hkeys := w.chunksStats.nodup
  rw [List.Nodup, List.pairwise_map] at hkeys
  rw [Dict.values, List.Nodup, List.pairwise_map]
  refine hkeys.imp_of_mem fun {e e'} he he' hne heq => hne ?_
  have hrange := (h.registered.stats _ _ (Dict.get?_eq_some_iff.mpr he)).2
  have hrange' := (h.registered.stats _ _ (Dict.get?_eq_some_iff.mpr he')).2
  rw [← hrange, ← hrange', heq]

/-- **The total** is at most the file. -/
theorem Accounts.total_le (h : w.Accounts source cap) :
    w.getDownloadedBytes ≤ source.length := by
  let counted := w.chunksStats.values.filter fun s => w.Counted s
  have hmem : ∀ s ∈ counted, s < w.stats.length ∧ w.Counted s := by
    intro s hs
    obtain ⟨hvalue, hcounted⟩ := List.mem_filter.mp hs
    obtain ⟨r, hr⟩ := Dict.mem_values_iff.mp hvalue
    exact ⟨(h.registered.stats _ _ hr).1, by simpa using hcounted⟩
  have hapart : counted.Pairwise (Intervals.Apart w.shareStart cap) := by
    refine (h.values_nodup.filter _).imp_of_mem fun {s s'} hs hs' hne => ?_
    obtain ⟨hlt, hc⟩ := hmem s hs
    obtain ⟨hlt', hc'⟩ := hmem s' hs'
    rcases h.apart s hlt s' hlt' hne with hapart | hsucceeds | hsucceeds
    · exact hapart
    · exact absurd hc' (h.not_both hsucceeds hc)
    · exact absurd hc (h.not_both hsucceeds hc')
  have hbytes : (counted.map fun s => (w.record s).bytesDownloaded).sum ≤ (counted.map cap).sum :=
    List.sum_le_sum fun s hs => (h.share s (hmem s hs).1).2.1
  have hin : ∀ s ∈ counted, 0 ≤ cap s ∧ 0 ≤ w.shareStart s ∧
      w.shareStart s + cap s ≤ (source.length : Int) := by
    intro s hs
    obtain ⟨hlt, -⟩ := hmem s hs
    obtain ⟨hnonneg, hle, hcap⟩ := h.share s hlt
    obtain ⟨hinFile, -⟩ := h.inFile s hlt
    have hstop := hinFile.stop_le
    have hstart := hinFile.start_nonneg
    unfold ChunkRange.span at hcap
    unfold shareStart
    exact ⟨hnonneg.trans hle, hstart, by omega⟩
  have htotal := Intervals.total_le_of_apart (Int.natCast_nonneg source.length) hin hapart
  rw [sub_zero] at htotal
  exact hbytes.trans htotal

/-! ### A turn of a task -/

/-- The record is left alone, or deprecated after its tasks have ended. -/
def LeavesRecord (w w' : World) (s : StatsId) : Prop :=
  w'.record s = w.record s ∨ w.Ended s ∧ w'.record s = (w.record s).setStatus .deprecated

/-- What a world further on has to keep of a download that has no turn. -/
theorem Fetching.leaves {c : Int} {i : TaskId} {t : Task} (h : w.Fetching source c i t)
    (ht : w.tasks[i]? = some t) (hrecord : w.LeavesRecord w' t.stats) :
    w'.Fetching source c i t := by
  obtain ⟨hcounted, hheld⟩ := h
  rcases hrecord with hsame | ⟨hended, hdeprecated⟩
  · exact ⟨hsame ▸ hcounted, hsame ▸ hheld⟩
  · have hdone := hended i t ht rfl
    refine ⟨⟨fun hlive => absurd hdone hlive, ?_, fun hlive => absurd hdone hlive⟩, ?_⟩
    · rw [hdeprecated]
      exact hcounted.le
    · exact Or.inr (Or.inl (.of_done hdone))

/-- And of a succession. -/
theorem Succeeding.leaves {c : Int} {i : TaskId} {t : Task} {p : StatsId}
    {predecessorTask : Option TaskId} (h : w.Succeeding source c t p predecessorTask)
    (ht : w.tasks[i]? = some t) (hev : w.Evolves w') (hrecord : w.LeavesRecord w' t.stats)
    (hdeprecated : w.Ended p → (w.record p).status = .deprecated →
      (w'.record p).status = .deprecated) :
    w'.Succeeding source c t p predecessorTask := by
  have hrange : (w'.record p).range = (w.record p).range := (hev.record p).range
  have hstatus : (w'.record t.stats).status = (w.record t.stats).status ∨
      t.Done ∧ (w'.record t.stats).status = .deprecated := by
    rcases hrecord with hsame | ⟨hended, hsame⟩
    · exact Or.inl (by rw [hsame])
    · exact Or.inr ⟨hended i t ht rfl, by rw [hsame]; rfl⟩
  have hcompleted : (w'.record t.stats).status = .completed →
      (w.record t.stats).status = .completed ∧ w'.record t.stats = w.record t.stats := by
    intro hcompleted
    rcases hrecord with hsame | ⟨-, hsame⟩
    · exact ⟨hsame ▸ hcompleted, hsame⟩
    · rw [hsame] at hcompleted
      cases hcompleted
  constructor
  · constructor
    · rw [hev.numStats]
      exact h.predecessor
    · rw [hrange]
      exact h.inside
    · rw [hrange]
      exact h.proper
    · exact h.bounded
    · exact fun j hj => hev.task_stats (h.task j hj)
    · exact fun hpast => Ended.evolves (h.ended hpast) hev
    · rw [hev.numStats]
      exact fun hor s hs hsame => h.only (hor.imp_right fun hc => (hcompleted hc).1) s hs
        ((hev.record s).range ▸ hsame)
    · exact h.unstopped
    · rcases hstatus with hsame | ⟨-, hsame⟩
      · rw [hsame]
        exact h.status
      · rw [hsame]
        simp
  · intro hlive
    refine ⟨(h.live hlive).1, fun hc => (h.live hlive).2 (hcompleted hc).1⟩
  · exact h.crops
  · intro hc
    obtain ⟨hc, hsame⟩ := hcompleted hc
    obtain ⟨hbytes, hstatus, hended⟩ := h.completed hc
    exact ⟨hsame ▸ hbytes, hdeprecated hended hstatus, hended.evolves hev⟩

theorem Succeeds.evolves {p b : StatsId} (h : w.Succeeds p b) (hev : w.Evolves w') :
    w'.Succeeds p b := by
  obtain ⟨i, t, predecessorTask, ht, hjob, hstats⟩ := h
  obtain ⟨t', ht', hl⟩ := hev.task i t ht
  exact ⟨i, t', predecessorTask, ht', hl.job.trans hjob, hl.stats.trans hstats⟩

/-- What has to be shown of a world further on. -/
theorem Accounts.evolves (h : w.Accounts source cap) (hev : w.Evolves w')
    (hbytes : ∀ s < w.stats.length, 0 ≤ (w'.record s).bytesDownloaded ∧
      (w'.record s).bytesDownloaded ≤ cap s)
    (hdownload : ∀ (i : TaskId) (t : Task), w'.tasks[i]? = some t → t.job = .download →
      w'.Fetching source (cap t.stats) i t)
    (hsuccession : ∀ (i : TaskId) (t : Task) (p : StatsId) (predecessorTask : Option TaskId),
      w'.tasks[i]? = some t → t.job = .succession p predecessorTask →
        w'.Succeeding source (cap t.stats) t p predecessorTask) :
    w'.Accounts source cap := by
  have hrange : ∀ s, (w'.record s).range = (w.record s).range := fun s => (hev.record s).range
  refine ⟨h.registered.evolves hev, by rw [hev.calls]; exact h.waits, ?_, ?_, ?_, ?_, ?_, ?_, ?_,
    ?_, hdownload, hsuccession⟩
  · rw [hev.numStats, hev.chunksStats]
    exact fun s hs => (hrange s).symm ▸ h.table s hs
  · rw [hev.numStats]
    exact fun s hs => by rw [hrange, (hev.record s).fileSize]; exact h.inFile s hs
  · rw [hev.numStats]
    exact fun s hs => ⟨(hbytes s hs).1, (hbytes s hs).2, hrange s ▸ (h.share s hs).2.2⟩
  · rw [hev.numStats]
    simp only [hrange]
    exact h.unsplit
  · rw [hev.numStats]
    intro s hs s' hs' hne
    have hstart : ∀ s, w'.shareStart s = w.shareStart s := fun s =>
      congrArg ChunkRange.start (hrange s)
    rcases h.apart s hs s' hs' hne with hapart | hsucceeds | hsucceeds
    · exact Or.inl (by unfold Intervals.Apart; rw [hstart, hstart]; exact hapart)
    · exact Or.inr (Or.inl (hsucceeds.evolves hev))
    · exact Or.inr (Or.inr (hsucceeds.evolves hev))
  · exact hev.taskRanges h.task
  · exact hev.ownRecords h.own
  · rw [hev.numStats]
    exact fun s hs => (h.owner s hs).imp fun i hi => hev.task_stats hi

/-- The callback of a record stops the download it was placed for, unless that has all its bytes. -/
theorem stopPredecessor_download {cb : StopCallback} {i : TaskId} {t : Task}
    (hcb : cb.predecessorTask = some i) (ht : w.tasks[i]? = some t) (hjob : t.job = .download)
    (hlive : ¬ t.Done) :
    w.stopPredecessor cb =
      if (w.record cb.stats).fileSize = some (w.record cb.stats).bytesDownloaded then w
      else { w with tasks := w.tasks.set i { t with cancelRequested := true } } := by
  have hnot : ¬ w.TaskDone i := by
    rw [taskDone_iff]
    exact fun ⟨t', ht', hdone⟩ => hlive (Option.some.inj (ht'.symm.trans ht) ▸ hdone)
  unfold stopPredecessor
  rw [hcb]
  dsimp only
  by_cases hsize : (w.record cb.stats).fileSize = some (w.record cb.stats).bytesDownloaded
  · rw [if_neg fun h => h.2 hsize, if_pos hsize]
  · rw [if_pos ⟨hnot, hsize⟩, if_neg hsize]
    unfold cancelTask
    rw [cancelTarget_download ht hjob]
    congr 1
    refine List.ext_getElem? fun j => ?_
    rw [List.getElem?_modify, List.getElem?_set]
    by_cases hij : i = j
    · subst hij
      have hlt := (List.getElem?_eq_some_iff.mp ht).1
      rw [ht, if_pos rfl, if_pos hlt]
      simp [requestCancel, hlive]
    · simp [hij]

theorem Accounts.span (h : w.Accounts source cap) {s : StatsId} (hs : s < w.stats.length) :
    cap s ≤ (w.record s).range.span source.length := (h.share s hs).2.2

/-- Whom a turn of a download leaves: itself, perhaps stopped by its observer. -/
theorem Accounts.leaves (h : w.Accounts source cap) {i : TaskId} {t : Task} {e : TaskEvent}
    (ht : w.tasks[i]? = some t) (hjob : t.job = .download)
    (hwithin : ∀ data : Bytes, e = .piece data → (w.record t.stats).limited = true →
      (w.record t.stats).bytesDownloaded + data.length ≤ (w.record t.stats).limitQtBytes)
    (hstep : w.taskStep i e = some w') :
    ∃ d called t', DownloadState.step ⟨t, w.record t.stats, w.files⟩ e = some (d, called) ∧
      d.task.Asked t' ∧ w'.tasks = w.tasks.set i t' ∧
      (∀ s, w'.record s = if s = t.stats then d.stats else w.record s) ∧
      (d.stats.bytesDownloaded ≤ (t.range.bytesOf source).length →
        d.stats.bytesDownloaded ≤ cap t.stats) ∧
      (cap t.stats = t.range.span source.length ∧ d.stats.limited = false ∨
        t'.Held i d.stats (cap t.stats)) := by
  obtain ⟨d, called, hturn, hput⟩ := taskStep_download ht hjob hstep
  have hlater := DownloadState.step_later hturn
  have hadvances := DownloadState.advances_of_step hturn
  obtain ⟨hlt, hrange⟩ := h.task i t ht
  obtain ⟨hin, hfileSize⟩ := h.inFile t.stats hlt
  rw [hrange] at hin hfileSize
  have hcap := h.span hlt
  rw [hrange] at hcap
  have hstats : d.task.stats = t.stats := hlater.task.stats
  have hrecord : ∀ s, (w.putDownload i d).record s =
      if s = t.stats then d.stats else w.record s := by
    intro s
    rw [record_putDownload, hstats]
    exact if_congr (and_iff_left hlt) rfl rfl
  have hquiet : called = none → w' = w.putDownload i d := fun hnone => by rw [hput, hnone]; rfl
  rcases (h.download i t ht hjob).held with ⟨hwhole, hlimited⟩ | hheld
  · -- no observer: its share is its whole range
    obtain ⟨hnone, hlimited'⟩ := hadvances.unlimited hlimited
    refine ⟨d, called, d.task, hturn, .refl _, ?_, ?_, fun hle => ?_, Or.inl ⟨hwhole, hlimited'⟩⟩
    · rw [hquiet hnone]
      rfl
    · rw [hquiet hnone]
      exact hrecord
    · rw [hwhole]
      exact hle.trans (le_of_eq hin.length_bytesOf)
  · obtain ⟨hbytes, ⟨hnone, hheld'⟩ | ⟨hcalled, hlimited', hlive'⟩⟩ :=
      hadvances.held hlater hheld (h.share t.stats hlt).2.1 hwithin
    · refine ⟨d, called, d.task, hturn, .refl _, ?_, ?_, fun _ => hbytes, Or.inr hheld'⟩
      · rw [hquiet hnone]
        rfl
      · rw [hquiet hnone]
        exact hrecord
    · -- the observer asks the download itself, unless it has every byte of its range
      have hself : (w.putDownload i d).tasks[i]? = some d.task :=
        List.getElem?_set_self (List.getElem?_eq_some_iff.mp ht).1
      have hstop := @stopPredecessor_download (w.putDownload i d) ⟨t.stats, some i⟩ i d.task rfl
        hself (hlater.task.job.trans hjob) hlive'
      have hw' : w' = (w.putDownload i d).stopPredecessor ⟨t.stats, some i⟩ := by
        rw [hput, hcalled]
        rfl
      rw [← hw', hrecord, if_pos rfl, hlater.stats.fileSize, hfileSize] at hstop
      by_cases hall : some (t.range.span (source.length : Int)) = some d.stats.bytesDownloaded
      · rw [if_pos hall] at hstop
        refine ⟨d, called, d.task, hturn, .refl _, by rw [hstop]; rfl, by rw [hstop]; exact hrecord,
          fun _ => hbytes, Or.inl ⟨le_antisymm hcap ?_, hlimited'⟩⟩
        rw [Option.some.inj hall]
        exact hbytes
      · rw [if_neg hall] at hstop
        refine ⟨d, called, { d.task with cancelRequested := true }, hturn, ⟨true, rfl⟩, ?_, ?_,
          fun _ => hbytes, Or.inr (Or.inl (Or.inl rfl))⟩
        · rw [hstop]
          show (w.tasks.set i d.task).set i _ = _
          rw [List.set_set]
        · rw [hstop]
          exact hrecord

/-- **A turn of a download** within its limit keeps the invariant. -/
theorem Accounts.turn_download (h : w.Accounts source cap) {i : TaskId} {t : Task} {e : TaskEvent}
    (ht : w.tasks[i]? = some t) (hjob : t.job = .download)
    (hallowed : DownloadState.Allowed (rangedService source t.range)
      ⟨t, w.record t.stats, w.files⟩ e)
    (hwithin : ∀ data : Bytes, e = .piece data → (w.record t.stats).limited = true →
      (w.record t.stats).bytesDownloaded + data.length ≤ (w.record t.stats).limitQtBytes)
    (hstep : w.taskStep i e = some w') : w'.Accounts source cap := by
  obtain ⟨d, called, t', hturn, ⟨c, rfl⟩, htasks, hrecord, hbytes, hheld⟩ :=
    h.leaves ht hjob hwithin hstep
  have hlive := DownloadState.not_done_of_step hturn
  have hlater := DownloadState.step_later hturn
  have hcounted := (DownloadState.advances_of_step hturn).counted hlater hlive
    (h.download i t ht hjob).counted hallowed
  have hrange : d.task.range = t.range := hlater.task.range
  have hstats : d.task.stats = t.stats := hlater.task.stats
  have hself : w'.record t.stats = d.stats := by rw [hrecord, if_pos rfl]
  have hle := hcounted.le.2
  rw [hrange] at hle
  have hev := taskStep_evolves hstep
  refine h.evolves hev (fun s hs => ?_) (fun j t₁ ht₁ hjob₁ => ?_) fun j t₁ p k ht₁ hjob₁ => ?_
  · by_cases hst : s = t.stats
    · subst hst
      rw [hself]
      exact ⟨hcounted.le.1, hbytes hle⟩
    · rw [hrecord, if_neg hst]
      exact ⟨(h.share s hs).1, (h.share s hs).2.1⟩
  · rcases task_of_set ht (htasks ▸ ht₁) with ⟨rfl, rfl⟩ | ⟨hji, ht₁⟩
    · refine ⟨?_, ?_⟩
      · show Task.Counted source _ (w'.record d.task.stats)
        rw [hstats, hself]
        exact ⟨hcounted.live, hcounted.le, hcounted.running⟩
      · show cap d.task.stats = d.task.range.span _ ∧ (w'.record d.task.stats).limited = false ∨
          Task.Held _ j (w'.record d.task.stats) (cap d.task.stats)
        have hspan : t.range.span (source.length : Int) = d.task.range.span source.length := by
          rw [hrange]
        rw [show w'.record d.task.stats = d.stats by rw [hstats, hself],
          show cap d.task.stats = cap t.stats by rw [hstats]]
        exact hheld.imp_left fun hwhole => ⟨hwhole.1.trans hspan, hwhole.2⟩
    · refine (h.download j t₁ ht₁ hjob₁).leaves ht₁ (Or.inl ?_)
      rw [hrecord, if_neg fun he => hji (h.own j i t₁ t ht₁ ht he)]
  · rcases task_of_set ht (htasks ▸ ht₁) with ⟨-, rfl⟩ | ⟨hji, ht₁⟩
    · cases (hlater.task.job.trans hjob).symm.trans hjob₁
    · refine (h.succession j t₁ p k ht₁ hjob₁).leaves ht₁ hev (Or.inl ?_) fun hended hstatus => ?_
      · rw [hrecord, if_neg fun he => hji (h.own j i t₁ t ht₁ ht he)]
      · rw [hrecord, if_neg fun he => hlive (hended i t ht he.symm)]
        exact hstatus

/-- The bytes a succession crops to are those of its range. -/
theorem endCrop_sub_startCrop {u : SuccessionState} {r : ChunkRange} {e : Int}
    (hrange : u.successor.range = r) (hend : r.endByte = some e) (fileSize : Int) :
    u.endCrop - u.startCrop + 1 = r.span fileSize := by
  unfold SuccessionState.endCrop SuccessionState.startCrop ChunkRange.span ChunkRange.stop
  rw [hrange, hend]
  dsimp only
  omega

/-- A succession that has had a turn. -/
theorem Succeeding.turn {c : Int} {t : Task} {p : StatsId}
    {predecessorTask : Option TaskId} {u : SuccessionState} {known : Bool}
    (h : w.Succeeding source c t p predecessorTask) (hlive : ¬ t.Done) (hev : w.Evolves w')
    (hlater : t.Later u.task) (hrange : (w.record t.stats).range = t.range)
    (hhands : SuccessionState.Hands ⟨t, w.record t.stats, w.record p, w.files⟩ known u)
    (hself : w'.record u.task.stats = u.successor) (hpredecessor : w'.record p = u.predecessor)
    (hended : known = true → w.Ended p) :
    w'.Succeeding source c u.task p predecessorTask := by
  obtain ⟨hcap, hnotCompleted⟩ := h.live hlive
  -- nothing is cropped before the predecessor's task has ended
  have hpast : u.task.PastPredecessor → w.Ended p := fun hpast =>
    (hhands.pastPredecessor hpast).elim hended fun hbefore => h.ended (Or.inr hbefore)
  constructor
  · constructor
    · rw [hev.numStats]
      exact h.predecessor
    · rw [(hev.record p).range, hlater.range]
      exact h.inside
    · rw [(hev.record p).range, hlater.range]
      exact h.proper
    · rw [hlater.range]
      exact h.bounded
    · exact fun j hj => hev.task_stats (h.task j hj)
    · exact fun hor => Ended.evolves (hor.elim (fun hnone => h.ended (Or.inl hnone)) hpast) hev
    · rw [hev.numStats, hlater.range, hlater.stats]
      exact fun _ s hs hsame => h.only (Or.inl hlive) s hs ((hev.record s).range ▸ hsame)
    · refine ⟨hhands.cancelRequested.trans h.unstopped.1, ?_⟩
      cases hhands with
      | fails phase _ _ _ _ =>
          obtain ⟨e, he⟩ := phase
          rw [he]
          exact nofun
      | goesOn phase _ _ _ =>
          rcases phase with hphase | ⟨-, hphase⟩ | ⟨_, _, -, hphase⟩ <;> rw [hphase] <;>
            exact nofun
      | completes _ phase _ _ _ _ =>
          rw [phase]
          exact nofun
    · rw [hself]
      cases hhands with
      | fails _ status _ _ _ => simp [status]
      | goesOn _ successor _ _ => exact successor ▸ h.status
      | completes _ _ status _ _ _ => simp [status]
  · intro hlive'
    rw [hself, hlater.range]
    refine ⟨hcap, ?_⟩
    cases hhands with
    | fails _ status _ _ _ => simp [status]
    | goesOn _ successor _ _ => exact successor ▸ hnotCompleted
    | completes _ phase _ _ _ _ => exact absurd (Task.done_iff.mpr ⟨_, phase⟩) hlive'
  · -- the bounds of the crop are set in the turn that starts it, and carried to the move
    intro startCrop endCrop hphase'
    rw [hlater.range]
    cases hhands with
    | fails phase _ _ _ _ =>
        obtain ⟨e, he⟩ := phase
        rw [he] at hphase'
        rcases hphase' with heq | heq <;> cases heq
    | goesOn phase _ _ _ =>
        rcases phase with hphase | ⟨-, hphase⟩ | ⟨_, _, hcropping, hphase⟩ <;>
          rw [hphase] at hphase' <;> rcases hphase' with heq | heq <;> cases heq
        · obtain ⟨e, he⟩ := Option.isSome_iff_exists.mp h.bounded
          exact endCrop_sub_startCrop hrange he _
        · exact h.crops _ _ (Or.inl hcropping)
    | completes _ phase _ _ _ _ =>
        rw [phase] at hphase'
        rcases hphase' with heq | heq <;> cases heq
  · rw [hself, hlater.range, hpredecessor]
    intro hcompleted
    cases hhands with
    | fails _ status _ _ _ =>
        rw [status] at hcompleted
        cases hcompleted
    | goesOn _ successor _ _ =>
        rw [successor] at hcompleted
        exact absurd hcompleted hnotCompleted
    | completes moving _ _ bytes predecessor _ =>
        refine ⟨bytes.trans (h.crops _ _ (Or.inr moving)), by rw [predecessor]; rfl, ?_⟩
        exact Ended.evolves (h.ended (Or.inr (Task.pastPredecessor_of_moving moving))) hev

/-- **A turn of a succession** keeps the invariant. -/
theorem Accounts.turn_succession (h : w.Accounts source cap) {i : TaskId} {t : Task}
    {e : TaskEvent} {p : StatsId} {predecessorTask : Option TaskId} (ht : w.tasks[i]? = some t)
    (hjob : t.job = .succession p predecessorTask) (hstep : w.taskStep i e = some w') :
    w'.Accounts source cap := by
  have hsucceeding := h.succession i t p predecessorTask ht hjob
  obtain ⟨hfree, hphase⟩ := hsucceeding.unstopped
  obtain ⟨u, hrun, hleft⟩ := successionTurn ht hjob hfree hstep
  have hlive := SuccessionState.not_done_of_run hrun
  have hlater := (SuccessionState.run_later hrun).task
  have hhands := SuccessionState.hands_of_run hphase hrun
  have hev := taskStep_evolves hstep
  obtain ⟨hlt, hrange⟩ := h.task i t ht
  have hplt := hsucceeding.predecessor
  obtain ⟨hcap, hnotCompleted⟩ := hsucceeding.live hlive
  have hne : t.stats ≠ p := by
    intro he
    exact hsucceeding.proper (by rw [← he, hrange])
  have hself : w'.record t.stats = u.successor := by
    rw [hleft.record, if_neg fun hand => hne hand.1, if_pos ⟨rfl, hlt⟩]
  have hpredecessor : w'.record p = u.predecessor := by rw [hleft.record, if_pos ⟨rfl, hplt⟩]
  have hother : ∀ s, s ≠ p → s ≠ t.stats → w'.record s = w.record s := fun s hsp hst => by
    rw [hleft.record, if_neg fun hand => hsp hand.1, if_neg fun hand => hst hand.1]
  -- the predecessor's tasks have ended once its end is known
  have hended : (!predecessorTask.isSome || (predecessorTask.bind w.taskResult).isSome) = true →
      w.Ended p := by
    intro hknown
    cases predecessorTask with
    | none => exact hsucceeding.ended (Or.inl rfl)
    | some j =>
        obtain ⟨t₁, ht₁, hstats₁⟩ := hsucceeding.task j rfl
        obtain ⟨t₁', ht₁', hdone⟩ := taskDone_iff.mp hknown
        obtain rfl := Option.some.inj (ht₁'.symm.trans ht₁)
        intro j' t' ht' hstats'
        obtain rfl := h.own j j' t₁' t' ht₁ ht' (hstats₁.trans hstats'.symm)
        exact Option.some.inj (ht'.symm.trans ht₁) ▸ hdone
  have hleaves : u.predecessor = w.record p ∨
      w.Ended p ∧ u.predecessor = (w.record p).setStatus .deprecated :=
    hhands.leaves.imp_right fun hleaves => ⟨hsucceeding.ended (Or.inr hleaves.1), hleaves.2⟩
  have hrecords : ∀ s, s ≠ t.stats → w.LeavesRecord w' s := by
    intro s hst
    by_cases hsp : s = p
    · subst hsp
      unfold LeavesRecord
      rw [hpredecessor]
      exact hleaves
    · exact Or.inl (hother s hsp hst)
  refine h.evolves hev (fun s hs => ?_) (fun j t₁ ht₁ hjob₁ => ?_) fun j t₁ p₁ k₁ ht₁ hjob₁ => ?_
  · obtain ⟨hnonneg, hle, hcaps⟩ := h.share s hs
    by_cases hst : s = t.stats
    · subst hst
      rw [hself]
      cases hhands with
      | fails _ _ bytes _ _ => exact bytes ▸ ⟨hnonneg, hle⟩
      | goesOn _ successor _ _ => exact successor ▸ ⟨hnonneg, hle⟩
      | completes moving _ _ bytes _ _ =>
          rw [bytes, hsucceeding.crops _ _ (Or.inr moving), ← hcap]
          exact ⟨hnonneg.trans hle, le_rfl⟩
    · rcases hrecords s hst with hsame | ⟨-, hsame⟩ <;> rw [hsame] <;> exact ⟨hnonneg, hle⟩
  · rcases task_of_set ht (hleft.tasks ▸ ht₁) with ⟨-, rfl⟩ | ⟨hji, ht₁⟩
    · cases (hlater.job.trans hjob).symm.trans hjob₁
    · exact (h.download j t₁ ht₁ hjob₁).leaves ht₁
        (hrecords _ fun he => hji (h.own j i t₁ t ht₁ ht he))
  · rcases task_of_set ht (hleft.tasks ▸ ht₁) with ⟨rfl, rfl⟩ | ⟨hji, ht₁⟩
    · obtain ⟨rfl, rfl⟩ := Job.succession.inj ((hlater.job.trans hjob).symm.trans hjob₁)
      rw [show cap u.task.stats = cap t.stats by rw [hlater.stats]]
      exact hsucceeding.turn hlive hev hlater hrange hhands (hlater.stats ▸ hself) hpredecessor
        hended
    · refine (h.succession j t₁ p₁ k₁ ht₁ hjob₁).leaves ht₁ hev
        (hrecords _ fun he => hji (h.own j i t₁ t ht₁ ht he)) fun hended₁ hstatus₁ => ?_
      rcases hrecords p₁ (fun he => hlive (hended₁ i t ht he.symm)) with hsame | ⟨-, hsame⟩
      · rw [hsame]
        exact hstatus₁
      · rw [hsame]
        rfl

/-! ### Registering a chunk -/

/-- A succession that is there already, when another range is registered. -/
theorem Succeeding.creates {c c' : Int} {t : Task} {p : StatsId} {predecessorTask : Option TaskId}
    {r : ChunkRange} {job : Job} {status : EDownloadStatus}
    (h : w.Succeeding source c t p predecessorTask) (hcreates : w.Creates params w' r job)
    (hgrows : w.Grows params w' r status) (hc : ¬ t.Done → c' = c)
    (hlt : t.stats < w.stats.length) (hne : t.range ≠ r) :
    w'.Succeeding source c' t p predecessorTask := by
  have hplt := h.predecessor
  obtain ⟨hbytes, hstatus⟩ := hgrows.counts _ hlt
  constructor
  · exact h.toSuccessionLinked.creates hcreates hstatus fun _ => hne.symm
  · rw [hstatus]
    exact fun hlive => ⟨(hc hlive).trans (h.live hlive).1, (h.live hlive).2⟩
  · exact h.crops
  · rw [hstatus, hbytes, (hgrows.counts _ hplt).2]
    intro hcompleted
    obtain ⟨hspan, hdeprecated, hended⟩ := h.completed hcompleted
    exact ⟨hspan, hdeprecated, hended.creates hplt hcreates⟩

theorem Succeeds.creates {r : ChunkRange} {job : Job} {p b : StatsId} (h : w.Succeeds p b)
    (hcreates : w.Creates params w' r job) : w'.Succeeds p b := by
  obtain ⟨i, t, predecessorTask, ht, hjob, hstats⟩ := h
  obtain ⟨t', ht', hl⟩ := hcreates.task i t ht
  exact ⟨i, t', predecessorTask, ht', hl.job.trans hjob, hl.stats.trans hstats⟩

/-- A download that was just created has its whole range for a share. -/
theorem Fetching.of_fresh {c : Int} {i : TaskId} {r : ChunkRange} {s : StatsId}
    (hbytes : (w.record s).bytesDownloaded = 0) (hstatus : (w.record s).status = .pending)
    (hlimited : (w.record s).limited = false) (hcap : c = r.span source.length) :
    w.Fetching source c i { range := r, stats := s, job := .download } := by
  refine ⟨⟨fun _ => ⟨hbytes, List.nil_prefix⟩, ?_, fun _ => Or.inl hstatus⟩,
    Or.inl ⟨hcap, hlimited⟩⟩
  show 0 ≤ (w.record s).bytesDownloaded ∧ (w.record s).bytesDownloaded ≤ _
  rw [hbytes]
  exact ⟨le_rfl, Int.natCast_nonneg _⟩

/-- The shares are apart if the old ones are and each is apart from the new one, or succeeded by
it. -/
theorem Accounts.apart_grows (h : w.Accounts source cap) {r : ChunkRange} {job : Job}
    {cap' : StatsId → Int} (hcreates : w.Creates params w' r job)
    (hcap : ∀ s < w.stats.length, cap' s ≤ cap s)
    (hnew : cap' w.stats.length = r.span source.length)
    (hapart : ∀ s < w.stats.length, w.shareStart s + cap' s ≤ r.start ∨
      r.stop source.length ≤ w.shareStart s ∨ ∃ k, job = .succession s k) :
    ∀ s < w'.stats.length, ∀ s' < w'.stats.length, s ≠ s' →
      Intervals.Apart w'.shareStart cap' s s' ∨ w'.Succeeds s s' ∨ w'.Succeeds s' s := by
  have hstart : ∀ s < w.stats.length, w'.shareStart s = w.shareStart s := fun s hs =>
    congrArg ChunkRange.start (hcreates.record s hs).range
  have hstartNew : w'.shareStart w.stats.length = r.start :=
    congrArg ChunkRange.start hcreates.newRecord.range
  -- the share of an old record and that of the new one
  have hpair : ∀ s < w.stats.length, Intervals.Apart w'.shareStart cap' s w.stats.length ∨
      w'.Succeeds s w.stats.length := by
    intro s hs
    have hstop : r.start + r.span source.length = r.stop source.length := by
      unfold ChunkRange.span
      omega
    rcases hapart s hs with hbefore | hafter | ⟨k, hk⟩
    · refine Or.inl (Or.inl ?_)
      rw [hstart s hs, hstartNew]
      exact hbefore
    · refine Or.inl (Or.inr ?_)
      rw [hstart s hs, hstartNew, hnew, hstop]
      exact hafter
    · exact Or.inr ⟨_, _, k, hcreates.newTask, hk, rfl⟩
  intro s hs s' hs' hne
  rcases hcreates.lt_or_eq hs with hs | rfl
  · rcases hcreates.lt_or_eq hs' with hs' | rfl
    · rcases h.apart s hs s' hs' hne with happ | hsucceeds | hsucceeds
      · refine Or.inl ?_
        have hshrunk := happ.mono (hcap s hs) (hcap s' hs')
        unfold Intervals.Apart at hshrunk ⊢
        rw [hstart s hs, hstart s' hs']
        exact hshrunk
      · exact Or.inr (Or.inl (hsucceeds.creates hcreates))
      · exact Or.inr (Or.inr (hsucceeds.creates hcreates))
    · exact (hpair s hs).imp_right Or.inl
  · rcases hcreates.lt_or_eq hs' with hs' | rfl
    · rcases hpair s' hs' with happ | hsucceeds
      · exact Or.inl happ.symm
      · exact Or.inr (Or.inr hsucceeds)
    · exact absurd rfl hne

/-- **Registering a range** nobody has, apart from the shares but for that of the one it
succeeds. -/
theorem Accounts.grows (h : w.Accounts source cap) (hr' : w'.Registered) {r : ChunkRange}
    {job : Job} {status : EDownloadStatus} {cap' : StatsId → Int}
    (hcreates : w.Creates params w' r job) (hgrows : w.Grows params w' r status)
    (hsize : params.fileSize = some (source.length : Int)) (hin : r.InFile source.length)
    (hkey : r ∉ w.chunksStats.keys)
    (hcap : ∀ s < w.stats.length, (w.record s).bytesDownloaded ≤ cap' s ∧ cap' s ≤ cap s)
    (hnew : cap' w.stats.length = r.span source.length)
    (hunsplit : ∀ s < w.stats.length, cap' s = cap s ∨ (w.record s).range.contains r = true)
    (hapart : ∀ s < w.stats.length, w.shareStart s + cap' s ≤ r.start ∨
      r.stop source.length ≤ w.shareStart s ∨ ∃ k, job = .succession s k)
    (hdownload : ∀ (i : TaskId) (t : Task), i ≠ w.tasks.length → w'.tasks[i]? = some t →
      t.job = .download → w'.Fetching source (cap' t.stats) i t)
    (hsuccession : ∀ (i : TaskId) (t : Task) (p : StatsId) (predecessorTask : Option TaskId),
      i ≠ w.tasks.length → w'.tasks[i]? = some t → t.job = .succession p predecessorTask →
        w'.Succeeding source (cap' t.stats) t p predecessorTask)
    (hnewDownload : job = .download → status = .pending)
    (hnewSuccession : ∀ p predecessorTask, job = .succession p predecessorTask →
      w'.Succeeding source (cap' w.stats.length) { range := r, stats := w.stats.length, job } p
        predecessorTask) :
    w'.Accounts source cap' := by
  obtain ⟨speed, hfresh⟩ := hgrows.fresh
  have hother : ∀ s < w.stats.length, r ≠ (w.record s).range := by
    intro s hs he
    exact hkey (he ▸ Dict.mem_keys_iff.mpr ⟨s, h.table s hs⟩)
  have hrangeNew : (w'.record w.stats.length).range = r := hcreates.newRecord.range
  have hspan : 0 ≤ r.span source.length := by
    have := hin.start_lt_stop
    unfold ChunkRange.span
    omega
  refine ⟨hr', by rw [hcreates.calls]; exact h.waits, ?_, ?_, ?_, ?_, ?_, ?_, ?_, ?_, ?_, ?_⟩
  -- every clause for a record that was there before, and for the new one
  · intro s hs
    rw [hcreates.chunksStats, Dict.get?_set]
    rcases hcreates.lt_or_eq hs with hs | rfl
    · rw [hcreates.range hs, if_neg (hother s hs).symm]
      exact h.table s hs
    · rw [hrangeNew, if_pos rfl]
  · intro s hs
    rcases hcreates.lt_or_eq hs with hs | rfl
    · rw [hcreates.range hs, (hcreates.record s hs).fileSize]
      exact h.inFile s hs
    · refine ⟨hrangeNew.symm ▸ hin, ?_⟩
      rw [hcreates.newRecord.fileSize, hsize, getEffectiveRangeInfo_snd, hrangeNew]
      rfl
  · intro s hs
    rcases hcreates.lt_or_eq hs with hs | rfl
    · rw [(hgrows.counts s hs).1, hcreates.range hs]
      exact ⟨(h.share s hs).1, (hcap s hs).1, (hcap s hs).2.trans (h.share s hs).2.2⟩
    · rw [hfresh, hnew]
      exact ⟨le_rfl, hspan, le_rfl⟩
  · intro s hs
    rcases hcreates.lt_or_eq hs with hs | rfl
    · rw [hcreates.range hs]
      rcases hunsplit s hs with hsame | hcontains
      · rcases h.unsplit s hs with hwhole | ⟨s', hs', hne, hinside⟩
        · exact Or.inl (hsame.trans hwhole)
        · exact Or.inr ⟨s', hcreates.lt_succ hs', by rw [hcreates.range hs']; exact ⟨hne, hinside⟩⟩
      · -- its share may have shrunk, and then the new range lies in its own
        refine Or.inr ⟨w.stats.length, by rw [hcreates.numStats]; exact Nat.lt_succ_self _, ?_⟩
        rw [hrangeNew]
        exact ⟨hother s hs, hcontains⟩
    · rw [hrangeNew]
      exact Or.inl hnew
  · exact h.apart_grows hcreates (fun s hs => (hcap s hs).2) hnew hapart
  · exact hcreates.taskRanges h.task
  · exact hcreates.ownRecords h.own fun i t ht => (h.task i t ht).1
  · intro s hs
    rcases hcreates.lt_or_eq hs with hs | rfl
    · exact (h.owner s hs).imp fun i hi => hcreates.task_stats hi
    · exact ⟨_, _, hcreates.newTask, rfl⟩
  · intro i t' ht' hjob
    by_cases hi : i = w.tasks.length
    · subst hi
      obtain rfl := Option.some.inj (ht'.symm.trans hcreates.newTask)
      obtain rfl : job = .download := hjob
      refine .of_fresh ?_ ?_ ?_ hnew
      · rw [hfresh]
        rfl
      · rw [hfresh]
        exact hnewDownload rfl
      · rw [hfresh]
        rfl
    · exact hdownload i t' hi ht' hjob
  · intro i t' p k ht' hjob
    by_cases hi : i = w.tasks.length
    · subst hi
      obtain rfl := Option.some.inj (ht'.symm.trans hcreates.newTask)
      exact hnewSuccession p k hjob
    · exact hsuccession i t' p k hi ht' hjob

/-- Collecting entries keeps the invariant. -/
theorem Accounts.collects (h : w.Accounts source cap) (hr' : w'.Registered)
    (hwaits : ∀ f ∈ w'.calls, f.ofWait = true) (hcollects : w.Collects w') :
    w'.Accounts source cap := by
  have hrecord : ∀ s, w'.record s = w.record s := fun s => by
    rw [record, record, hcollects.stats]
  have hstart : w'.shareStart = w.shareStart := funext fun s => by
    rw [shareStart, shareStart, hrecord]
  have hended : ∀ s, w'.Ended s ↔ w.Ended s := fun s => by rw [Ended, Ended, hcollects.tasks]
  have hsucceeds : ∀ p b, w'.Succeeds p b ↔ w.Succeeds p b := fun p b => by
    rw [Succeeds, Succeeds, hcollects.tasks]
  constructor
  · exact hr'
  · exact hwaits
  · simp only [hcollects.stats, hrecord, hcollects.chunksStats]
    exact h.table
  · simp only [hcollects.stats, hrecord]
    exact h.inFile
  · simp only [hcollects.stats, hrecord]
    exact h.share
  · simp only [hcollects.stats, hrecord]
    exact h.unsplit
  · simp only [hcollects.stats, hstart, hsucceeds]
    exact h.apart
  · simp only [hcollects.stats, hrecord, hcollects.tasks]
    exact h.task
  · rw [hcollects.tasks]
    exact h.own
  · simp only [hcollects.stats, hcollects.tasks]
    exact h.owner
  · intro i t ht hjob
    rw [hcollects.tasks] at ht
    obtain ⟨hcounted, hheld⟩ := h.download i t ht hjob
    exact ⟨(hrecord _).symm ▸ hcounted, (hrecord _).symm ▸ hheld⟩
  · intro i t p k ht hjob
    rw [hcollects.tasks] at ht
    obtain ⟨hlinked, hlive, hcrops, hcompleted⟩ := h.succession i t p k ht hjob
    refine ⟨?_, by rw [hrecord]; exact hlive, hcrops,
      by rw [hrecord, hrecord, hended]; exact hcompleted⟩
    obtain ⟨h₁, h₂, h₃, h₄, h₅, h₆, h₇, h₈, h₉⟩ := hlinked
    constructor <;> first
      | assumption
      | simp only [hcollects.stats, hcollects.tasks, hrecord]; assumption

theorem Accounts.mem_keys (h : w.Accounts source cap) {s : StatsId} (hs : s < w.stats.length) :
    (w.record s).range ∈ w.chunksStats.keys :=
  Dict.mem_keys_iff.mpr ⟨s, h.table s hs⟩

/-- **Starting a chunk** apart from the shares keeps the invariant. -/
theorem Accounts.started (h : w.Accounts source cap) {r : ChunkRange}
    (hsize : params.fileSize = some (source.length : Int)) (hin : r.InFile source.length)
    (hkey : r ∉ w.chunksStats.keys)
    (hfree : ∀ s < w.stats.length, w.shareStart s + cap s ≤ r.start ∨
      r.stop source.length ≤ w.shareStart s)
    (hnone : r ∉ w.chunksTasks.keys) (hstarted : w.Started params w' r) :
    w'.Accounts source (Function.update cap w.stats.length (r.span source.length)) := by
  have hold : ∀ s < w.stats.length,
      Function.update cap w.stats.length (r.span source.length) s = cap s := fun s hs =>
    Function.update_of_ne (Nat.ne_of_lt hs) _ _
  have hr' := h.registered.creates (entryDone_of_not_mem hnone) (not_gathers_of_waits h.waits)
    hstarted.toCreates
  refine h.grows hr' hstarted.toCreates hstarted.toGrows hsize hin hkey (fun s hs => ?_)
    (Function.update_self ..) (fun s hs => Or.inl (hold s hs)) (fun s hs => ?_)
    (fun i t hi ht hjob => ?_) (fun i t p k hi ht hjob => ?_) (fun _ => rfl) nofun
  · rw [hold s hs]
    exact ⟨(h.share s hs).2.1, le_rfl⟩
  · rw [hold s hs]
    exact (hfree s hs).imp_right Or.inl
  · rw [hstarted.tasks i hi] at ht
    have hlt := (h.task i t ht).1
    rw [hold _ hlt]
    exact (h.download i t ht hjob).leaves ht (Or.inl (hstarted.same _ hlt))
  · rw [hstarted.tasks i hi] at ht
    obtain ⟨hlt, hrange⟩ := h.task i t ht
    refine (h.succession i t p k ht hjob).creates hstarted.toCreates hstarted.toGrows
      (fun _ => hold _ hlt) hlt fun he => hkey ?_
    rw [← he, ← hrange]
    exact h.mem_keys hlt

end World

end SDownload
