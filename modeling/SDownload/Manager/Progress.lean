import SDownload.Manager.Shares
import SDownload.Manager.Splitting

/-!
# SDownload.Manager.Progress

`get_downloaded_bytes` over runs in which chunks are split while they download.

That every chunk stays within its share takes two things the code does not see to: a
split comes before the chunk has counted past the cut, and no piece takes a chunk
with a limit past it (`CountsOnce`). A piece that does is counted twice, by the chunk
and by the one started behind the cut.
-/

namespace SDownload

/-! ### Splits -/

/-- The calls of the program, and a split: `resize_chunk` to the first part, and `start_chunk` on
the second. -/
inductive SplitEvent (fileSize : Int)
  | program (event : Event)
  | split (split : ChunkSplit fileSize) (targetSpeedBps : Option Int)

/-- One step of a program that splits chunks. -/
def splitStep {fileSize : Int} (params : ChunkManagerParams) (w : World) :
    SplitEvent fileSize → Option (World × List Returned)
  | .program e => step params w e
  | .split split speed =>
      match w.resizeChunk params split.whole split.kept with
      | .error e => some (w, [⟨.resizeChunk, .raised e⟩])
      | .ok w =>
          some (w.startChunk params split.rest speed,
            [⟨.resizeChunk, .none⟩, ⟨.startChunk, .none⟩])

/-- The steps of a manager whose chunks are started apart from each other and split, over a server
that honours ranges; any operation may fail. -/
def UsedWithSplits (source : Bytes) (w : World) : SplitEvent source.length → Prop
  | .program (.startChunk r _) =>
      r.InFile source.length ∧ ∀ r' ∈ w.chunksStats.keys, r.Disjoint r'
  | .program (.wait _ _) | .program (.resume _ _) | .split _ _ => True
  | .program (.task i e) => ∀ t ∈ w.tasks[i]?,
      DownloadState.Allowed (rangedService source t.range) ⟨t, w.record t.stats, w.files⟩ e
  | _ => False

instance (source : Bytes) (w : World) (e : SplitEvent source.length) :
    Decidable (UsedWithSplits source w e) := by
  delta UsedWithSplits
  induction e using SplitEvent.casesOn with
  | program e => induction e using Event.casesOn <;> infer_instance
  | split split speed => infer_instance

/-- No byte is counted by two chunks: a chunk is split once, and before it has counted past the
cut, and no piece takes a chunk past its limit. -/
def CountsOnce {fileSize : Int} (w : World) : SplitEvent fileSize → Prop
  | .split split _ => ∀ a ∈ w.chunksStats.get? split.whole,
      (w.record a).status ∈ [EDownloadStatus.pending, .downloading, .completed] →
        (w.record a).bytesDownloaded ≤ split.limit ∧
          ∀ r ∈ w.chunksStats.keys, r ≠ split.whole → split.whole.contains r = false
  | .program (.task i (.piece data)) => ∀ t ∈ w.tasks[i]?, (w.record t.stats).limited = true →
      (w.record t.stats).bytesDownloaded + data.length ≤ (w.record t.stats).limitQtBytes
  | _ => True

instance {fileSize : Int} (w : World) (e : SplitEvent fileSize) : Decidable (CountsOnce w e) := by
  delta CountsOnce
  induction e using SplitEvent.casesOn with
  | program e =>
      induction e using Event.casesOn with
      | task i e => induction e using TaskEvent.casesOn <;> infer_instance
      | _ => infer_instance
  | split split speed => infer_instance

namespace World

variable {source : Bytes} {params : ChunkManagerParams} {cap : StatsId → Int} {w w' : World}

/-! ### The resize -/

/-- A resize that comes after the chunk has the bytes to be kept stops its download. -/
theorem resizeChunk_stops {currentRange newRange : ChunkRange} {e : Int} {a : StatsId} {i : TaskId}
    {t : Task} (hend : newRange.endByte = some e) (ha : w.chunksStats.get? currentRange = some a)
    (hlt : a < w.stats.length) (hresizes : w.Resizes currentRange newRange)
    (hstatus : (w.record a).status ∈ [EDownloadStatus.pending, .downloading])
    (hentry : w.chunksTasks.get? currentRange = some i) (ht : w.tasks[i]? = some t)
    (hjob : t.job = .download) (hlive : ¬ t.Done)
    (hlimit : e - currentRange.start + 1 ≠ 0)
    (hreached : e - currentRange.start + 1 ≤ (w.record a).bytesDownloaded)
    (hsize : (w.record a).fileSize ≠ some (w.record a).bytesDownloaded)
    (h : w.resizeChunk params currentRange newRange = .ok w') :
    w'.tasks[i]? = some { t with cancelRequested := true } := by
  obtain rfl := Except.ok.inj ((resizeChunk_eq params hresizes ha).symm.trans h)
  let w₂ := w.awaiting params newRange (w.record a).targetSpeedBps
  have hsame : w₂.record a = w.record a :=
    (record_awaiting params w newRange _ a).trans (if_neg (Nat.ne_of_lt hlt))
  have hset : (w₂.setRecord a (w₂.record a)).record a = w.record a := by
    rw [record_setRecord, hsame, ite_self]
  have hstop := @stopPredecessor_download (w₂.setRecord a (w₂.record a)) ⟨a, some i⟩ i t rfl ht
    hjob hlive
  rw [hset, if_neg hsize] at hstop
  have hobserver : w.observing currentRange newRange a w₂ =
      (w₂.setRecord a (w₂.record a)).stopPredecessor ⟨a, some i⟩ := by
    unfold observing
    rw [hend, hentry]
    dsimp only
    rw [if_pos ⟨hlimit, hstatus⟩]
    unfold addLimitObserver ChunkDownloadStats.addLimitObserver
    rw [hsame, if_pos hreached]
    rfl
  have hilt := (List.getElem?_eq_some_iff.mp ht).1
  rw [hentry, hobserver, hstop]
  refine (getElem?_createTask _ _ _ _ ?_).trans ?_
  · show i ≠ (w.tasks.set i _).length
    rw [List.length_set]
    exact Nat.ne_of_lt hilt
  · exact List.getElem?_set_self hilt

/-- The task in the table of a chunk that is being downloaded is a download of its record. -/
theorem Accounts.entry (h : w.Accounts source cap) {r : ChunkRange} {a : StatsId} {i : TaskId}
    (ha : w.chunksStats.get? r = some a) (hentry : w.chunksTasks.get? r = some i) :
    ∃ t, w.tasks[i]? = some t ∧ t.stats = a := by
  obtain ⟨t, ht, rfl⟩ := h.registered.entry r i hentry
  obtain ⟨hlt, hrange⟩ := h.task i t ht
  have htable := h.table _ hlt
  rw [hrange] at htable
  exact ⟨t, ht, Option.some.inj (htable.symm.trans ha)⟩

theorem Accounts.job (h : w.Accounts source cap) {i : TaskId} {t : Task}
    (ht : w.tasks[i]? = some t)
    (hstatus : (w.record t.stats).status ∈ [EDownloadStatus.pending, .downloading]) :
    t.job = .download := by
  cases hjob : t.job with
  | download => rfl
  | succession p k => exact absurd hstatus (h.succession i t p k ht hjob).status

/-- What `resize_chunk` tells the succession it creates. -/
theorem Accounts.newSuccession (h : w.Accounts source cap) {currentRange newRange : ChunkRange}
    {a : StatsId} (hbounded : newRange.endByte.isSome = true)
    (hnew : newRange ∉ w.chunksStats.keys) (hresizes : w.Resizes currentRange newRange)
    (ha : w.chunksStats.get? currentRange = some a) :
    w.NewSuccession newRange a (w.chunksTasks.get? currentRange) :=
  h.registered.newSuccession (fun j t ht => (h.task j t ht).2) (fun _ hj => h.entry ha hj)
    hbounded hnew hresizes ha

/-- The shares of the others are outside a chunk that has not been split. -/
theorem Accounts.alone (h : w.Accounts source cap) {split : ChunkSplit source.length}
    {a : StatsId} (ha : w.chunksStats.get? split.whole = some a)
    (hstatus : (w.record a).status ∈ [EDownloadStatus.pending, .downloading, .completed])
    (hbytes : (w.record a).bytesDownloaded ≤ split.limit)
    (hone : ∀ r ∈ w.chunksStats.keys, r ≠ split.whole → split.whole.contains r = false) :
    cap a = split.whole.span source.length ∧ ∀ s < w.stats.length, s ≠ a →
      w.shareStart s + cap s ≤ split.whole.start ∨
        split.whole.stop source.length ≤ w.shareStart s := by
  obtain ⟨hlt, hrange⟩ := h.registered.stats _ _ ha
  have hwhole : cap a = split.whole.span source.length := by
    rcases h.unsplit a hlt with hwhole | ⟨s, hs, hne, hinside⟩
    · rw [hwhole, hrange]
    · rw [hrange] at hne hinside
      rw [hone _ (h.mem_keys hs) hne] at hinside
      cases hinside
  refine ⟨hwhole, fun s hs hsa => ?_⟩
  have hstart : w.shareStart a = split.whole.start := congrArg ChunkRange.start hrange
  rcases h.apart s hs a hlt hsa with hapart | hsucceeds | hsucceeds
  · unfold Intervals.Apart at hapart
    rw [hstart, hwhole] at hapart
    refine hapart.imp_right fun hafter => ?_
    unfold ChunkRange.span at hafter
    omega
  · -- a succession that has completed has counted more than is to be kept
    obtain ⟨i, t, k, ht, hjob, rfl⟩ := hsucceeds
    have hsucceeding := h.succession i t s k ht hjob
    have hnot := hsucceeding.status
    simp only [List.mem_cons, List.not_mem_nil, or_false, not_or] at hstatus hnot
    have hcompleted := (hstatus.resolve_left hnot.1).resolve_left hnot.2
    have hall := (hsucceeding.completed hcompleted).1
    rw [← (h.task i t ht).2, hrange] at hall
    have hlimit := split.limit_lt
    unfold ChunkRange.span at hall
    omega
  · obtain ⟨i, t, k, ht, hjob, rfl⟩ := hsucceeds
    have hsucceeding := h.succession i t a k ht hjob
    have hinside := hsucceeding.inside
    have hproper := hsucceeding.proper
    rw [← (h.task i t ht).2, hrange] at hinside hproper
    rw [hone _ (h.mem_keys hs) hproper] at hinside
    cases hinside

/-- **The download of a chunk that is split** is held to the bytes to be kept. -/
theorem Accounts.resized_download (h : w.Accounts source cap) {split : ChunkSplit source.length}
    {a : StatsId} (ha : w.chunksStats.get? split.whole = some a)
    (hresizes : w.Resizes split.whole split.kept)
    (hok : w.resizeChunk params split.whole split.kept = .ok w')
    (hresized : w.Resized params w' split.whole split.kept a split.limit)
    (hbytes : (w.record a).bytesDownloaded ≤ split.limit) {i : TaskId} {t' : Task}
    (hi : i ≠ w.tasks.length) (ht' : w'.tasks[i]? = some t') (hjob : t'.job = .download)
    (hstats : t'.stats = a) : w'.Fetching source split.limit i t' := by
  obtain ⟨hlt, hrange⟩ := h.registered.stats _ _ ha
  obtain ⟨t, ht, hor⟩ := hresized.asked i t' hi ht'
  have hasked : t.Asked t' := by
    rcases hor with rfl | ⟨-, -, hasked⟩
    · exact .refl _
    · exact hasked
  obtain ⟨c, rfl⟩ := hasked
  replace hstats : t.stats = a := hstats
  subst hstats
  obtain ⟨hcounted, -⟩ := h.download i t ht hjob
  obtain ⟨hsame, hsameStatus⟩ := hresized.counts _ hlt
  refine ⟨⟨fun hlive => ?_, ?_, fun hlive => ?_⟩, Or.inr ?_⟩
  · rw [hsame]
    exact hcounted.live hlive
  · rw [hsame]
    exact hcounted.le
  · rw [hsameStatus]
    exact hcounted.running hlive
  by_cases hdone : t.Done
  · exact Or.inl (.of_done hdone)
  have hwhole : t.range = split.whole := (h.task i t ht).2.symm.trans hrange
  have hstatus : (w.record t.stats).status ∈ [EDownloadStatus.pending, .downloading] := by
    rcases hcounted.running hdone with hpending | hdownloading
    · simp [hpending]
    · simp [hdownloading]
  have hentry : w.chunksTasks.get? split.whole = some i := hwhole ▸ h.registered.live i t ht hdone
  have hlimit := split.limit_pos
  by_cases hreached : split.limit ≤ (w.record t.stats).bytesDownloaded
  · -- the observer is called at once
    have hsize : (w.record t.stats).fileSize ≠ some (w.record t.stats).bytesDownloaded := by
      have hlimitLt := split.limit_lt
      rw [(h.inFile _ hlt).2, hrange]
      intro hall
      have hspan := Option.some.inj hall
      unfold ChunkRange.span at hspan
      omega
    have hstopped := resizeChunk_stops rfl ha hlt hresizes hstatus hentry ht hjob hdone hlimit.ne'
      hreached hsize hok
    obtain rfl : c = true :=
      congrArg Task.cancelRequested (Option.some.inj (ht'.symm.trans hstopped))
    exact Or.inl (Or.inl rfl)
  · have hobserved : w'.record t.stats = { w.record t.stats with
        limitQtBytes := split.limit
        onLimit := some ⟨t.stats, some i⟩
        limited := true } := by
      rw [hresized.predecessor, hentry]
      unfold observed ChunkDownloadStats.addLimitObserver
      rw [if_pos ⟨hlimit.ne', hstatus⟩, if_neg hreached]
    refine Or.inr ?_
    show (w'.record t.stats).limited = true ∧ _
    rw [hobserved]
    exact ⟨rfl, rfl, not_le.mp hreached, rfl⟩

/-- A range without a record has no task. -/
theorem Accounts.notMem_tasks (h : w.Accounts source cap) {r : ChunkRange}
    (hkey : r ∉ w.chunksStats.keys) : r ∉ w.chunksTasks.keys := by
  intro hmem
  obtain ⟨i, hentry⟩ := Dict.mem_keys_iff.mp hmem
  obtain ⟨t, ht, hkept⟩ := h.registered.entry _ _ hentry
  obtain ⟨hlt, hrange⟩ := h.task i t ht
  refine hkey ?_
  rw [← hkept, ← hrange]
  exact h.mem_keys hlt

/-- What still waits for a predecessor is not the task of a chunk that can be split. -/
theorem Accounts.waiting_ne (h : w.Accounts source cap) {a : StatsId}
    (hstatus : (w.record a).status ∈ [EDownloadStatus.pending, .downloading, .completed])
    {i : TaskId} {t : Task} {p : StatsId} {predecessorTask : Option TaskId}
    (ht : w.tasks[i]? = some t) (hjob : t.job = .succession p predecessorTask)
    (hlive : ¬ t.Done) : t.stats ≠ a := by
  rintro rfl
  have hsucceeding := h.succession i t p predecessorTask ht hjob
  have hnot := hsucceeding.status
  simp only [List.mem_cons, List.not_mem_nil, or_false, not_or] at hstatus hnot
  rcases hstatus with hpending | hdownloading | hcompleted
  · exact hnot.1 hpending
  · exact hnot.2 hdownloading
  · exact (hsucceeding.live hlive).2 hcompleted

/-- Who is asked to stop by a resize is the download of the chunk. -/
theorem Accounts.resized_task (h : w.Accounts source cap) {currentRange newRange : ChunkRange}
    {a : StatsId} {limit : Int} (ha : w.chunksStats.get? currentRange = some a)
    (hresized : w.Resized params w' currentRange newRange a limit) {i : TaskId} {t' : Task}
    (hi : i ≠ w.tasks.length) (ht' : w'.tasks[i]? = some t')
    (hnot : t'.job ≠ .download ∨ t'.stats ≠ a) : w.tasks[i]? = some t' := by
  obtain ⟨t, ht, rfl | ⟨hcalled, hentry, c, rfl⟩⟩ := hresized.asked i t' hi ht'
  · exact ht
  obtain ⟨t₁, ht₁, hstats⟩ := h.entry ha hentry
  obtain rfl := Option.some.inj (ht₁.symm.trans ht)
  have hjob : t₁.job = .download := by
    refine h.job ht ?_
    rw [hstats]
    obtain ⟨-, hnone⟩ | ⟨hdownloading, -⟩ := observed_onLimit w a limit
      ⟨a, w.chunksTasks.get? currentRange⟩
    · rw [hnone] at hcalled
      cases hcalled
    · exact hdownloading
  rcases hnot with hnot | hnot
  · exact absurd hjob hnot
  · exact absurd hstats hnot

/-- **Resizing a chunk** that has not been split, before it has counted past the cut. -/
theorem Accounts.resized (h : w.Accounts source cap) {split : ChunkSplit source.length}
    (hsize : params.fileSize = some (source.length : Int))
    {a : StatsId} (ha : w.chunksStats.get? split.whole = some a)
    (hresizes : w.Resizes split.whole split.kept)
    (hstatus : (w.record a).status ∈ [EDownloadStatus.pending, .downloading, .completed])
    (hbytes : (w.record a).bytesDownloaded ≤ split.limit)
    (hone : ∀ r ∈ w.chunksStats.keys, r ≠ split.whole → split.whole.contains r = false)
    (hok : w.resizeChunk params split.whole split.kept = .ok w')
    (hresized : w.Resized params w' split.whole split.kept a split.limit) :
    w'.Accounts source
      (Function.update (Function.update cap a split.limit) w.stats.length split.limit) := by
  obtain ⟨hlt, hrange⟩ := h.registered.stats _ _ ha
  obtain ⟨hwhole, halone⟩ := h.alone ha hstatus hbytes hone
  have hspan : split.kept.span source.length = split.limit := by
    show split.last + 1 - split.whole.start = split.last - split.whole.start + 1
    omega
  -- a registered range inside the chunk would have split it already
  have hunregistered : split.kept ∉ w.chunksStats.keys := fun hkey => by
    have hinside := hone _ hkey hresizes.2.1
    rw [hresizes.1] at hinside
    cases hinside
  have hlimitLt := split.limit_lt
  have hself : Function.update (Function.update cap a split.limit) w.stats.length split.limit a =
      split.limit := by
    rw [Function.update_of_ne (Nat.ne_of_lt hlt), Function.update_self]
  have hother : ∀ s < w.stats.length, s ≠ a →
      Function.update (Function.update cap a split.limit) w.stats.length split.limit s = cap s :=
    fun s hs hsa => by rw [Function.update_of_ne (Nat.ne_of_lt hs), Function.update_of_ne hsa]
  have hlinked := h.newSuccession rfl hunregistered hresizes ha
  have hr' := h.registered.creates (entryDone_of_not_mem (h.notMem_tasks hunregistered))
    (not_gathers_of_waits h.waits) hresized.toCreates
  refine h.grows hr' hresized.toCreates hresized.toGrows hsize split.kept_inFile hunregistered
    (fun s hs => ?_) (hspan.symm ▸ Function.update_self ..) (fun s hs => ?_) (fun s hs => ?_)
    (fun i t hi ht hjob => ?_) (fun i t p k hi ht hjob => ?_) nofun fun p k hjob => ?_
  -- the chunk `a` that is cut keeps the kept part as its share, all others keep theirs
  · by_cases hsa : s = a
    · subst hsa
      rw [hself, hwhole]
      exact ⟨hbytes, le_of_lt hlimitLt⟩
    · rw [hother s hs hsa]
      exact ⟨(h.share s hs).2.1, le_rfl⟩
  · by_cases hsa : s = a
    · subst hsa
      rw [hrange]
      exact Or.inr hresizes.1
    · exact Or.inl (hother s hs hsa)
  · by_cases hsa : s = a
    · subst hsa
      exact Or.inr (Or.inr ⟨_, rfl⟩)
    · rw [hother s hs hsa]
      refine (halone s hs hsa).imp_right fun hafter => Or.inl ?_
      refine le_trans ?_ hafter
      show split.last + 1 ≤ _
      exact le_of_lt split.last_lt_stop
  · by_cases hsa : t.stats = a
    · rw [hsa, hself]
      exact h.resized_download ha hresizes hok hresized hbytes hi ht hjob hsa
    · have ht₀ := h.resized_task ha hresized hi ht (Or.inr hsa)
      have htlt := (h.task i t ht₀).1
      rw [hother _ htlt hsa]
      exact (h.download i t ht₀ hjob).leaves ht₀ (Or.inl (hresized.other _ htlt hsa))
  · have hnot : t.job ≠ .download := by
      rw [hjob]
      exact nofun
    have ht₀ := h.resized_task ha hresized hi ht (Or.inl hnot)
    obtain ⟨htlt, htrange⟩ := h.task i t ht₀
    refine (h.succession i t p k ht₀ hjob).creates hresized.toCreates hresized.toGrows
      (fun hlive => hother _ htlt (h.waiting_ne hstatus ht₀ hjob hlive)) htlt fun he =>
        hunregistered ?_
    rw [← he, ← htrange]
    exact h.mem_keys htlt
  · -- the new succession waits for `a`, and its share is the whole kept part
    obtain ⟨rfl, rfl⟩ := Job.succession.inj hjob
    obtain ⟨speed, hfresh⟩ := hresized.fresh
    have hnewStatus : (w'.record w.stats.length).status = .awaitingSuccession := by rw [hfresh]
    refine ⟨hlinked.linked hresized.toCreates (fun s hs => h.mem_keys hs) hnewStatus,
      fun _ => ⟨?_, ?_⟩, nofun, fun hcompleted => ?_⟩
    · rw [Function.update_self]
      exact hspan.symm
    · show (w'.record w.stats.length).status ≠ _
      rw [hnewStatus]
      exact nofun
    · have hcompleted' : (w'.record w.stats.length).status = .completed := hcompleted
      rw [hnewStatus] at hcompleted'
      cases hcompleted'

/-- After a resize the shares end before the cut, or begin behind the chunk. -/
theorem Accounts.apart_rest (h : w.Accounts source cap) {split : ChunkSplit source.length}
    {a : StatsId} (ha : w.chunksStats.get? split.whole = some a)
    (halone : ∀ s < w.stats.length, s ≠ a →
      w.shareStart s + cap s ≤ split.whole.start ∨ split.whole.stop source.length ≤ w.shareStart s)
    (hresized : w.Resized params w' split.whole split.kept a split.limit) {s : StatsId}
    (hs : s < w'.stats.length) :
    w'.shareStart s +
        Function.update (Function.update cap a split.limit) w.stats.length split.limit s ≤
        split.rest.start ∨
      split.rest.stop source.length ≤ w'.shareStart s := by
  show _ ≤ split.last + 1 ∨ split.whole.stop _ ≤ _
  have hcut : split.whole.start + split.limit = split.last + 1 := by
    unfold ChunkSplit.limit
    omega
  rw [hresized.numStats] at hs
  rcases Nat.lt_succ_iff_lt_or_eq.mp hs with hs | rfl
  · have hstart : w'.shareStart s = w.shareStart s :=
      congrArg ChunkRange.start (hresized.record s hs).range
    rw [hstart, Function.update_of_ne (Nat.ne_of_lt hs)]
    by_cases hsa : s = a
    · subst hsa
      rw [Function.update_self, show w.shareStart s = split.whole.start from
        congrArg ChunkRange.start (h.registered.stats _ _ ha).2]
      exact Or.inl hcut.le
    · rw [Function.update_of_ne hsa]
      have hstartLe := split.start_le_last
      exact (halone s hs hsa).imp_left fun hbefore => by omega
  · have hstart : w'.shareStart w.stats.length = split.whole.start := by
      unfold shareStart
      rw [hresized.newRecord.range]
      rfl
    rw [hstart, Function.update_self]
    exact Or.inl hcut.le

/-! ### Every step -/

/-- **A split** of a chunk that has not been split, before it has counted past the cut. -/
theorem Accounts.split (h : w.Accounts source cap)
    (hsize : params.fileSize = some (source.length : Int))
    {split : ChunkSplit source.length} {speed : Option Int} {out : List Returned}
    (hcounts : CountsOnce w (.split split speed))
    (hstep : splitStep params w (.split split speed) = some (w', out)) :
    w'.Accounted source := by
  unfold splitStep at hstep
  dsimp only at hstep
  split at hstep
  · obtain ⟨rfl, -⟩ := Prod.mk.inj (Option.some.inj hstep)
    exact ⟨cap, h⟩
  rename_i w₁ hok
  obtain ⟨rfl, -⟩ := Prod.mk.inj (Option.some.inj hstep)
  have hresizes := resizes_of_ok split.kept_ne_whole hok
  have hdownloads : ∀ a, w.chunksStats.get? split.whole = some a →
      (w.record a).status ∈ [EDownloadStatus.pending, .downloading] →
        w.Downloads (w.chunksTasks.get? split.whole) := by
    intro a ha hstatus i hi
    obtain ⟨t, ht, hstats⟩ := h.entry ha hi
    exact ⟨t, ht, h.job ht (hstats ▸ hstatus)⟩
  obtain rfl | ⟨-, a, ha, hresized⟩ := resizeChunk_resized (e := split.last) rfl
    (fun r s hs => (h.registered.stats r s hs).1) hdownloads hok
  · obtain ⟨hsame, hnot⟩ | ⟨-, a, ha, hcreates⟩ := resizeChunk_cases hok
    · exact absurd hresizes hnot
    · exact absurd hcreates.numTasks (Nat.ne_of_lt (Nat.lt_succ_self _))
  · have hstatus : (w.record a).status ∈
        [EDownloadStatus.pending, .downloading, .completed] := by
      have hany := hresizes.2.2
      rw [statsOf, ha] at hany
      exact of_decide_eq_true hany
    obtain ⟨hbytes, hone⟩ := hcounts a ha hstatus
    obtain ⟨-, halone⟩ := h.alone ha hstatus hbytes hone
    have h₁ := h.resized hsize ha hresizes hstatus hbytes hone hok hresized
    obtain hsame | ⟨-, hnone, hstarted⟩ := startChunk_started params w₁ split.rest speed
    · rw [hsame]
      exact ⟨_, h₁⟩
    refine ⟨_, h₁.started hsize split.rest_inFile (fun hkey => ?_)
      (fun s hs => h.apart_rest ha halone hresized hs) hnone hstarted⟩
    rw [hresized.chunksStats, Dict.mem_keys_set] at hkey
    refine hkey.elim split.rest_ne_kept fun hkey => ?_
    have hinside := hone _ hkey split.rest_ne_whole
    rw [split.contains_rest] at hinside
    cases hinside

/-- The range of a chunk that is started apart from the others. -/
theorem Accounts.start (h : w.Accounts source cap)
    (hsize : params.fileSize = some (source.length : Int)) {r : ChunkRange} {speed : Option Int}
    (hin : r.InFile source.length) (hdisjoint : ∀ r' ∈ w.chunksStats.keys, r.Disjoint r') :
    (w.startChunk params r speed).Accounted source := by
  obtain hsame | ⟨-, hnone, hstarted⟩ := startChunk_started params w r speed
  · rw [hsame]
    exact ⟨cap, h⟩
  refine ⟨_, h.started hsize hin (fun hkey => ?_) (fun s hs => ?_) hnone hstarted⟩
  · exact hdisjoint r hkey r.start ⟨hin.has_start, hin.has_start⟩
  · obtain ⟨hsin, -⟩ := h.inFile s hs
    have hapart := hdisjoint _ (h.mem_keys hs)
    have hspan := h.span hs
    unfold ChunkRange.span at hspan
    unfold shareStart
    rcases le_total r.start (w.record s).range.start with hle | hle
    · exact Or.inr (ChunkRange.stop_le_start_of_disjoint hsin hapart hle)
    · have hstop := ChunkRange.stop_le_start_of_disjoint hin
        (fun x hx => hapart x ⟨hx.2, hx.1⟩) hle
      exact Or.inl (by omega)

/-- **Every step** in which no byte is counted by two chunks. -/
theorem Accounts.step (h : w.Accounts source cap)
    (hsize : params.fileSize = some (source.length : Int)) {e : SplitEvent source.length}
    {out : List Returned} (hused : UsedWithSplits source w e) (hcounts : CountsOnce w e)
    (hstep : splitStep params w e = some (w', out)) : w'.Accounted source := by
  cases e with
  | split split speed => exact h.split hsize hcounts hstep
  | program e =>
      have hstep : SDownload.step params w e = some (w', out) := hstep
      cases e with
      | startChunk r speed =>
          obtain ⟨rfl, -⟩ := Prod.mk.inj (Option.some.inj hstep)
          exact h.start hsize hused.1 hused.2
      | wait timed returnWhen =>
          have hr' := (@Registered.step params w w' (.wait timed returnWhen) out h.registered
            trivial hstep).1
          obtain ⟨hcollects, hwaits⟩ :=
            ((waitForChunks_turn w timed returnWhen).ok.step h.waits 0).1
          obtain ⟨rfl, -⟩ := Prod.mk.inj (Option.some.inj hstep)
          exact ⟨cap, h.collects hr' hwaits hcollects⟩
      | resume i ok =>
          have hr' := (h.registered.step (keepsTasks_of_waits h.waits i ok) hstep).1
          obtain ⟨f, result, hf, hresume, heq⟩ := step_resume hstep
          obtain ⟨hcollects, hwaits⟩ :=
            ((resume_turn (h.waits f (List.mem_of_getElem? hf)) hresume).ok.step h.waits i).2
          rw [heq] at hcollects hwaits
          exact ⟨cap, h.collects hr' hwaits hcollects⟩
      | task i e =>
          obtain ⟨hturn, -⟩ := step_task hstep
          cases ht : w.tasks[i]? with
          | none => simp [taskStep, ht] at hturn
          | some t =>
              cases hjob : t.job with
              | download =>
                  refine ⟨cap, h.turn_download ht hjob (hused t ht) (fun data he => ?_) hturn⟩
                  subst he
                  exact hcounts t ht
              | succession p k => exact ⟨cap, h.turn_succession ht hjob hturn⟩
      | _ => exact hused.elim

end World

/-- **`get_downloaded_bytes`** is at most the file in every run in which no byte is counted by two
chunks. -/
theorem progress_bounded (params : ChunkManagerParams) (files : Files) (source : Bytes)
    (hsize : params.fileSize = some (source.length : Int)) {w : World}
    (h : Reaches (splitStep params) (fun w e => UsedWithSplits source w e ∧ CountsOnce w e)
      (World.init files []) w) :
    w.getDownloadedBytes ≤ source.length := by
  have haccounted : w.Accounted source := by
    refine h.invariant ⟨_, World.accounts_init source files⟩ ?_
    rintro w w' e out ⟨cap, hw⟩ ⟨hused, hcounts⟩ hstep
    exact hw.step hsize hused hcounts hstep
  obtain ⟨cap, hw⟩ := haccounted
  exact hw.total_le

/-- Four bytes, cut in the middle while they come. -/
def cutInHalf : ChunkSplit ([1, 2, 3, 4] : Bytes).length :=
  ⟨⟨0, some 3⟩, 1, by decide, by decide, by decide⟩

/-- The first half gets `piece` after the cut, the second half all its bytes. -/
def halvedRun (piece : Bytes) : List (SplitEvent ([1, 2, 3, 4] : Bytes).length) :=
  [.program (.startChunk ⟨0, some 3⟩ none), .program (.task 0 .begins),
    .program (.task 0 .opened), .split cutInHalf none, .program (.task 2 .begins),
    .program (.task 2 .opened), .program (.task 0 (.piece piece)),
    .program (.task 2 (.piece [3, 4]))]

theorem progress_bounded_four :
    let w := runTo (splitStep ⟨"f", some 4, 1⟩)
      (fun w e => UsedWithSplits [1, 2, 3, 4] w e ∧ CountsOnce w e)
      (World.init FileSystem.empty []) (halvedRun [1, 2])
    w.stats.length = 3 ∧ w.getDownloadedBytes ≤ 4 :=
  ⟨by decide, progress_bounded ⟨"f", some 4, 1⟩ FileSystem.empty [1, 2, 3, 4] rfl
    (reaches_runTo _ _ _ (halvedRun [1, 2]))⟩

/-- **The byte after the cut** is counted twice when it comes with the last one before it. -/
theorem progress_exceeds :
    ¬ ∀ w, Reaches (splitStep ⟨"f", some 4, 1⟩) (UsedWithSplits [1, 2, 3, 4])
      (World.init FileSystem.empty []) w → w.getDownloadedBytes ≤ 4 := by
  intro h
  have hreach := reaches_runTo (splitStep ⟨"f", some 4, 1⟩) (UsedWithSplits [1, 2, 3, 4])
    (World.init FileSystem.empty []) (halvedRun [1, 2, 3])
  exact absurd (h _ hreach) (by decide)

end SDownload
