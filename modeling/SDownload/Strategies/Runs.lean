import SDownload.Ranges.Planner
import SDownload.Strategies.Strategies

/-!
# SDownload.Strategies.Runs

What the strategies issue over a run of calls.

* `finishesResumed_iff`: a resumed download is finished by either strategy exactly
  when there was nothing to resume, or nothing left to download. The early return
  on a non-empty stats table comes before the plan is made, and no later call
  makes it up.
* `multiChunk_budget_iff`: `MultiChunkDownloadStrategy.on_start` keeps to the
  connections it is offered exactly when the pieces of the plan, which are counted
  in rounded-up gaps and not in connections, are that few.
-/

namespace SDownload

variable {κ : Type}

/-- Every byte of the file is in one of the ranges. -/
def Covered (fileSize : Int) (ranges : List ChunkRange) : Prop :=
  ∀ x, 0 ≤ x → x < fileSize → ∃ r ∈ ranges, r.Has x

@[simp] theorem map_range_startActions (ranges : List ChunkRange) :
    (startActions ranges).map StartChunkAction.range = ranges := by
  simp [startActions, Function.comp_def]

@[simp] theorem length_startActions (ranges : List ChunkRange) :
    (startActions ranges).length = ranges.length := by
  simp [startActions]

/-! ### The pending queue of `SequentialChunkStrategy` -/

namespace SequentialChunkStrategy

theorem popPending_eq : ∀ (n : Nat) (pending : List ChunkRange),
    popPending n pending = (startActions (pending.take n), pending.drop n)
  | 0, _ => rfl
  | _ + 1, [] => rfl
  | n + 1, rng :: pending => by
      simp [popPending, popPending_eq n pending, startActions]

/-- `_issue_pending` issues as many pending ranges as there are slots, from the front. -/
theorem issuePending_eq (self : SequentialChunkStrategy) (availableSlots : Int) :
    self.issuePending availableSlots =
      (startActions (self.pendingRanges.take availableSlots.toNat),
        { self with pendingRanges := self.pendingRanges.drop availableSlots.toNat }) := by
  unfold issuePending
  split
  · rename_i hnone
    rcases hnone with hslots | hpending
    · have hzero : availableSlots.toNat = 0 := Int.toNat_of_nonpos hslots
      simp [hzero, startActions]
    · obtain ⟨_, _, _, pending, _⟩ := self
      subst hpending
      simp [startActions]
  · simp only [popPending_eq]
    have hmin : (min availableSlots (self.pendingRanges.length : Int)).toNat =
        min availableSlots.toNat self.pendingRanges.length := by omega
    rcases Nat.le_total availableSlots.toNat self.pendingRanges.length with hle | hle
    · rw [hmin, Nat.min_eq_left hle]
    · rw [hmin, Nat.min_eq_right hle, List.take_of_length_le hle, List.drop_of_length_le hle]
      simp

/-- Over a row of `on_update` calls the queue is issued from the front, a call taking as many
ranges as it has slots. -/
theorem updates_eq (calls : List (UpdateCall κ)) (self : SequentialChunkStrategy) :
    strategy.updates self calls =
      startActions (self.pendingRanges.take (calls.map fun c => c.availableSlots.toNat).sum) := by
  induction calls generalizing self with
  | nil => simp [DownloadStrategyProtocol.updates, startActions]
  | cons call rest ih =>
      simp only [DownloadStrategyProtocol.updates, strategy, onUpdate, issuePending_eq,
        List.map_cons, List.sum_cons]
      have hrest := ih { self with
        pendingRanges := self.pendingRanges.drop call.availableSlots.toNat }
      simp only [strategy] at hrest
      rw [hrest, List.take_add]
      simp [startActions]

/-- The run of a fresh strategy over an empty stats table issues its plan from the front. -/
theorem run_fresh_eq (maxConn : Int) (useChunkedDownload : Bool)
    (cache : Option (List ChunkRange)) (dlStats : DownloadStats) (availableSlots : Int)
    (calls : List (UpdateCall κ)) :
    strategy.run (init maxConn useChunkedDownload cache) dlStats Dict.empty availableSlots calls =
      startActions (((init maxConn useChunkedDownload cache).calcInitialRanges
        dlStats.fileSize).take
          (availableSlots.toNat + (calls.map fun c => c.availableSlots.toNat).sum)) := by
  have hrest := updates_eq calls
    { maxConn, useChunkedDownload, cache, initialized := true
      pendingRanges := ((init maxConn useChunkedDownload cache).calcInitialRanges
        dlStats.fileSize).drop availableSlots.toNat }
  simp only [strategy] at hrest
  simp only [DownloadStrategyProtocol.run, strategy, onStart, Dict.keys_empty, ne_eq,
    not_true_eq_false, if_false, init, Bool.false_eq_true, issuePending_eq]
  simp only [init] at hrest
  rw [hrest, List.take_add]
  simp [startActions]

end SequentialChunkStrategy

/-! ### Fewer connections, fewer ranges -/

theorem piecesOf_anti {target target' : Int} (htarget : 0 < target) (hle : target ≤ target')
    (len : Int) :
    piecesOf target' len ≤ piecesOf target len := by
  by_cases hlen : len ≤ 0
  · rw [piecesOf, if_pos hlen, piecesOf, if_pos hlen]
  have htarget' : 0 < target' := lt_of_lt_of_le htarget hle
  have split : ∀ t : Int, 0 < t → piecesOf t len = (len - 1) / t + 1 := by
    intro t ht
    have hsum : len + t - 1 = (len - 1) + 1 * t := by ring
    rw [piecesOf, if_neg hlen, hsum, Int.add_mul_ediv_right _ _ (ne_of_gt ht)]
  have hquot : 0 ≤ (len - 1) / target' := Int.ediv_nonneg (by omega) htarget'.le
  have hfit : (len - 1) / target' * target ≤ len - 1 :=
    calc (len - 1) / target' * target ≤ (len - 1) / target' * target' :=
          Int.mul_le_mul_of_nonneg_left hle hquot
      _ ≤ len - 1 := Int.ediv_mul_le _ (ne_of_gt htarget')
  have hdiv := (Int.le_ediv_iff_mul_le htarget).mpr hfit
  rw [split target' htarget', split target htarget]
  omega

theorem targetChunkSize_anti {fileSize n n' : Int} (hsize : 0 ≤ fileSize) (hn : 1 ≤ n)
    (hle : n ≤ n') : targetChunkSize fileSize n' ≤ targetChunkSize fileSize n := by
  have hn0 : ¬ n ≤ 0 := by omega
  have hn0' : ¬ n' ≤ 0 := by omega
  rw [targetChunkSize, targetChunkSize, if_neg hn0, if_neg hn0',
    Int.fdiv_eq_ediv_of_nonneg _ (by omega), Int.fdiv_eq_ediv_of_nonneg _ (by omega)]
  refine max_le_max le_rfl ((Int.le_ediv_iff_mul_le (by omega)).mpr ?_)
  calc fileSize / n' * n ≤ fileSize / n' * n' :=
        Int.mul_le_mul_of_nonneg_left hle (Int.ediv_nonneg hsize (by omega))
    _ ≤ fileSize := Int.ediv_mul_le _ (by omega)

/-- Without a cache, a plan for fewer parts has no more ranges. -/
theorem length_calculateRanges_mono {fileSize n n' : Int} (hsize : 0 ≤ fileSize) (hn : 1 ≤ n)
    (hle : n ≤ n') :
    (calculateRanges fileSize n (some [])).length ≤
      (calculateRanges fileSize n' (some [])).length := by
  have hpieces := piecesOf_anti (targetChunkSize_pos fileSize n')
    (targetChunkSize_anti hsize hn hle) fileSize
  have hlen := length_calculateRanges fileSize n (some [])
  have hlen' := length_calculateRanges fileSize n' (some [])
  simp only [sortedCache, Option.getD_some, List.length_nil, List.insertionSort_nil, gapLengths,
    List.map_cons, List.map_nil, List.sum_cons, List.sum_nil, sub_zero] at hlen hlen'
  omega

/-- The connections that the rule of 2 MB per connection leaves. -/
def reducedConn (fileSize maxConn : Int) : Int :=
  if Int.fdiv fileSize maxConn < limitSizePerChunk then
    max 1 (Int.fdiv fileSize limitSizePerChunk)
  else maxConn

theorem SequentialChunkStrategy.calcInitialRanges_open {fileSize : Int} {useChunkedDownload : Bool}
    (maxConn : Int) (cache : Option (List ChunkRange))
    (h : useChunkedDownload = false ∨ fileSize ≤ 0) :
    (init maxConn useChunkedDownload cache).calcInitialRanges fileSize = [⟨0, none⟩] := by
  rw [calcInitialRanges, if_pos]
  rcases h with rfl | h
  · rfl
  · simp [h]

theorem SequentialChunkStrategy.calcInitialRanges_chunked {fileSize : Int}
    {useChunkedDownload : Bool} (maxConn : Int) (cache : Option (List ChunkRange))
    (h : ¬ (useChunkedDownload = false ∨ fileSize ≤ 0)) :
    (init maxConn useChunkedDownload cache).calcInitialRanges fileSize =
      calculateRanges fileSize (reducedConn fileSize maxConn) cache := by
  obtain ⟨hchunked, hsize⟩ := not_or.mp h
  have hrule : ¬ ((!useChunkedDownload || decide (fileSize ≤ 0)) = true) := by
    simp [hchunked, hsize]
  rw [calcInitialRanges, if_neg]
  · rfl
  · exact hrule

theorem reducedConn_le {fileSize maxConn : Int} (hconn : 1 ≤ maxConn) :
    1 ≤ reducedConn fileSize maxConn ∧ reducedConn fileSize maxConn ≤ maxConn := by
  rw [reducedConn]
  split
  · rename_i hsmall
    refine ⟨le_max_left _ _, ?_⟩
    rw [Int.fdiv_eq_ediv_of_nonneg _ (by omega)] at hsmall
    rw [Int.fdiv_eq_ediv_of_nonneg _ (by decide)]
    have hbound : fileSize < limitSizePerChunk * maxConn :=
      (Int.ediv_lt_iff_lt_mul (by omega)).mp hsmall
    have hfew : fileSize / limitSizePerChunk < maxConn :=
      (Int.ediv_lt_iff_lt_mul (by decide)).mpr (by rwa [mul_comm])
    exact max_le hconn hfew.le
  · exact ⟨hconn, le_rfl⟩

/-- Every fresh plan of `SequentialChunkStrategy` is one open range or a plan for at most
`max_conn` parts. -/
theorem sequential_plan_cases {maxConn fileSize : Int} (useChunkedDownload : Bool)
    (cache : Option (List ChunkRange)) (hconn : 1 ≤ maxConn) :
    (SequentialChunkStrategy.init maxConn useChunkedDownload cache).calcInitialRanges fileSize =
        [⟨0, none⟩] ∨
      ∃ n, 1 ≤ n ∧ n ≤ maxConn ∧
        (SequentialChunkStrategy.init maxConn useChunkedDownload cache).calcInitialRanges fileSize =
          calculateRanges fileSize n cache := by
  by_cases hopen : useChunkedDownload = false ∨ fileSize ≤ 0
  · exact Or.inl (SequentialChunkStrategy.calcInitialRanges_open maxConn cache hopen)
  · obtain ⟨hone, hle⟩ := @reducedConn_le fileSize maxConn hconn
    exact Or.inr ⟨_, hone, hle,
      SequentialChunkStrategy.calcInitialRanges_chunked maxConn cache hopen⟩

/-- With nothing cached, the plan of `SequentialChunkStrategy` covers the file with no more
ranges than `max_conn` parts have. -/
theorem sequential_plan {maxConn fileSize : Int} (useChunkedDownload : Bool)
    (hconn : 1 ≤ maxConn) (hsize : 0 < fileSize) :
    Covered fileSize
      ((SequentialChunkStrategy.init maxConn useChunkedDownload (some [])).calcInitialRanges
        fileSize) ∧
    ((SequentialChunkStrategy.init maxConn useChunkedDownload (some [])).calcInitialRanges
      fileSize).length ≤ (calculateRanges fileSize maxConn (some [])).length := by
  have hcovers : ∀ n, Covered fileSize (calculateRanges fileSize n (some [])) := fun n x h0 hx =>
    calculateRanges_covers n (some []) h0 hx
  rcases sequential_plan_cases useChunkedDownload (some []) hconn with hopen | ⟨n, h1, hn, hn'⟩
  · rw [hopen]
    obtain ⟨r, hr, -⟩ := hcovers maxConn 0 le_rfl hsize
    exact ⟨fun x h0 _ => ⟨⟨0, none⟩, List.mem_singleton_self _, h0, by simp⟩,
      List.length_pos_of_mem hr⟩
  · rw [hn']
    exact ⟨hcovers n, length_calculateRanges_mono hsize.le h1 hn⟩

/-! ### Resuming -/

/-- A resumed download gets finished: over `on_start` and as many `on_update` calls as make up
the number of ranges planned for `maxConn` parts, each with a slot to offer, the recovered ranges
and the issued ones cover the file. -/
def FinishesResumed {σ : Type} (strategy : DownloadStrategyProtocol κ σ) (self : σ)
    (fileSize maxConn : Int) (recovered : List (ChunkDownloadStats κ)) : Prop :=
  ∀ (availableSlots : Int) (calls : List (UpdateCall κ)), 1 ≤ availableSlots →
    (∀ c ∈ calls, 1 ≤ c.availableSlots) →
    (calculateRanges fileSize maxConn (some (recovered.map (·.range)))).length ≤
      calls.length + 1 →
    Covered fileSize (recovered.map (·.range) ++
      (strategy.run self ⟨fileSize⟩ (recoveredTable recovered) availableSlots calls).map (·.range))

theorem recoveredTable_keys_ne_nil (stat : ChunkDownloadStats κ)
    (recovered : List (ChunkDownloadStats κ)) :
    (recoveredTable (stat :: recovered)).keys ≠ [] := by
  have key : ∀ (rest : List (ChunkDownloadStats κ))
      (table : Dict ChunkRange (ChunkDownloadStats κ)),
      stat.range ∈ table.keys →
      stat.range ∈ (rest.foldl (fun table s => table.set s.range s) table).keys := by
    intro rest
    induction rest with
    | nil => exact fun _ h => h
    | cons s rest ih => exact fun table h => ih _ (Dict.mem_keys_set.mpr (Or.inr h))
  exact List.ne_nil_of_mem (key recovered _ (Dict.mem_keys_set.mpr (Or.inl rfl)))

/-- `MultiChunkDownloadStrategy` issues nothing over a table that is not empty. -/
theorem MultiChunkDownloadStrategy.run_resumed (self : MultiChunkDownloadStrategy)
    (dlStats : DownloadStats) {stat : ChunkDownloadStats κ}
    {recovered : List (ChunkDownloadStats κ)} (availableSlots : Int)
    (calls : List (UpdateCall κ)) :
    strategy.run self dlStats (recoveredTable (stat :: recovered)) availableSlots calls = [] := by
  have hkeys := recoveredTable_keys_ne_nil stat recovered
  have hupdates : ∀ self : MultiChunkDownloadStrategy, strategy.updates self calls = [] := by
    induction calls with
    | nil => exact fun _ => rfl
    | cons call rest ih => exact fun self => ih self
  show (strategy.onStart _ _ _ _).1 ++ strategy.updates _ calls = []
  rw [hupdates, List.append_nil]
  simp [strategy, onStart, hkeys]

/-- `SequentialChunkStrategy`, new, issues nothing over a table that is not empty: the plan is
never made, and the later calls find an empty queue. -/
theorem SequentialChunkStrategy.run_resumed (maxConn : Int) (useChunkedDownload : Bool)
    (cache : Option (List ChunkRange)) (dlStats : DownloadStats) {stat : ChunkDownloadStats κ}
    {recovered : List (ChunkDownloadStats κ)} (availableSlots : Int)
    (calls : List (UpdateCall κ)) :
    strategy.run (init maxConn useChunkedDownload cache) dlStats
      (recoveredTable (stat :: recovered)) availableSlots calls = [] := by
  have hkeys := recoveredTable_keys_ne_nil stat recovered
  show (strategy.onStart _ _ _ _).1 ++ strategy.updates _ calls = []
  rw [updates_eq]
  simp [strategy, onStart, hkeys, init, startActions]

/-- A strategy that issues nothing on a non-empty table finishes a resumed download only when
nothing is left to download. -/
theorem finishesResumed_of_silent {σ : Type} {strategy : DownloadStrategyProtocol κ σ} {self : σ}
    {fileSize maxConn : Int} {stat : ChunkDownloadStats κ}
    {recovered : List (ChunkDownloadStats κ)}
    (hsilent : ∀ availableSlots calls, strategy.run self ⟨fileSize⟩
      (recoveredTable (stat :: recovered)) availableSlots calls = []) :
    FinishesResumed strategy self fileSize maxConn (stat :: recovered) ↔
      Covered fileSize ((stat :: recovered).map (·.range)) := by
  constructor
  · intro h
    set needed := (calculateRanges fileSize maxConn
      (some ((stat :: recovered).map (·.range)))).length with hneeded
    have hrun := h 1 (List.replicate needed ⟨⟨fileSize⟩, Dict.empty, 1⟩) le_rfl
      (fun c hc => by rw [List.eq_of_mem_replicate hc]) (by simp [hneeded])
    rwa [hsilent, List.map_nil, List.append_nil] at hrun
  · intro h availableSlots calls _ _ _
    rwa [hsilent, List.map_nil, List.append_nil]

theorem sum_slots_ge {calls : List (UpdateCall κ)} (h : ∀ c ∈ calls, 1 ≤ c.availableSlots) :
    calls.length ≤ (calls.map fun c => c.availableSlots.toNat).sum := by
  induction calls with
  | nil => simp
  | cons c rest ih =>
      have hc := h c List.mem_cons_self
      have hrest := ih fun c hc => h c (List.mem_cons_of_mem _ hc)
      simp only [List.length_cons, List.map_cons, List.sum_cons]
      omega

/-- **Resuming.** Each built-in strategy, given the recovered ranges as its cache and as the
manager's stats, finishes the download exactly when nothing was recovered or nothing is left. -/
theorem finishesResumed_iff (fileSize maxConn : Int) (useChunkedDownload : Bool)
    (recovered : List (ChunkDownloadStats κ)) (hsize : 0 < fileSize) (hconn : 1 ≤ maxConn) :
    (FinishesResumed MultiChunkDownloadStrategy.strategy
        (.init maxConn useChunkedDownload (some (recovered.map (·.range)))) fileSize maxConn
        recovered ↔
      recovered = [] ∨ Covered fileSize (recovered.map (·.range))) ∧
    (FinishesResumed SequentialChunkStrategy.strategy
        (.init maxConn useChunkedDownload (some (recovered.map (·.range)))) fileSize maxConn
        recovered ↔
      recovered = [] ∨ Covered fileSize (recovered.map (·.range))) := by
  cases recovered with
  | nil =>
      refine ⟨iff_of_true ?_ (Or.inl rfl), iff_of_true ?_ (Or.inl rfl)⟩
      · intro availableSlots calls hslots _ _ x h0 hx
        have htarget : min maxConn availableSlots ≠ 0 := by omega
        have hstart : ¬ availableSlots ≤ 0 := by omega
        obtain ⟨r, hr, hhas⟩ :=
          calculateRanges_covers (min maxConn availableSlots) (some []) h0 hx
        refine ⟨r, List.mem_append_right _ ?_, hhas⟩
        simp only [DownloadStrategyProtocol.run, MultiChunkDownloadStrategy.strategy,
          MultiChunkDownloadStrategy.onStart, recoveredTable, List.foldl_nil, Dict.keys_empty,
          MultiChunkDownloadStrategy.init, List.map_nil, ne_eq, not_true_eq_false, false_or,
          if_neg hstart, if_neg htarget, List.map_append, map_range_startActions]
        exact List.mem_append_left _ hr
      · intro availableSlots calls hslots hcalls hlen x h0 hx
        obtain ⟨hcovers, hfew⟩ := sequential_plan useChunkedDownload hconn hsize
        have hsum := sum_slots_ge hcalls
        simp only [List.map_nil] at hlen
        have hrun := SequentialChunkStrategy.run_fresh_eq maxConn useChunkedDownload (some [])
          ⟨fileSize⟩ availableSlots calls
        simp only [recoveredTable, List.foldl_nil, List.map_nil, List.nil_append]
        have hall : ((SequentialChunkStrategy.init maxConn useChunkedDownload
            (some [])).calcInitialRanges fileSize).length ≤
            availableSlots.toNat + (calls.map fun c => c.availableSlots.toNat).sum := by omega
        rw [hrun, map_range_startActions, List.take_of_length_le hall]
        exact hcovers x h0 hx
  | cons stat recovered =>
      refine ⟨?_, ?_⟩
      · rw [finishesResumed_of_silent (MultiChunkDownloadStrategy.run_resumed _ _)]
        simp
      · rw [finishesResumed_of_silent (SequentialChunkStrategy.run_resumed _ _ _ _)]
        simp

/-- Nothing recovered, a file of ten bytes. -/
theorem finishesResumed_iff_ten :
    FinishesResumed (κ := Unit) MultiChunkDownloadStrategy.strategy (.init 2 true (some [])) 10 2 []
      ∧ FinishesResumed (κ := Unit) SequentialChunkStrategy.strategy (.init 2 true (some [])) 10 2
        [] :=
  have h := finishesResumed_iff (κ := Unit) 10 2 true [] (by decide) (by decide)
  ⟨h.1.mpr (Or.inl rfl), h.2.mpr (Or.inl rfl)⟩

/-- The first five of ten bytes, recovered. -/
def recoveredHalf : ChunkDownloadStats Unit :=
  { chunkFileName := "half", range := ⟨0, some 4⟩, fileSize := some 10, bytesDownloaded := 5,
    status := .completed }

/-- With half the file recovered, neither strategy ever asks for the other half. -/
theorem resumed_half_stays_half :
    ¬ FinishesResumed MultiChunkDownloadStrategy.strategy
        (.init 2 true (some ([recoveredHalf].map (·.range)))) 10 2 [recoveredHalf] ∧
    ¬ FinishesResumed SequentialChunkStrategy.strategy
        (.init 2 true (some ([recoveredHalf].map (·.range)))) 10 2 [recoveredHalf] := by
  have hgap : ¬ Covered 10 ([recoveredHalf].map (·.range)) := by
    intro h
    obtain ⟨r, hr, -, hlast⟩ := h 5 (by decide) (by decide)
    obtain rfl := List.mem_singleton.mp hr
    exact absurd (hlast 4 rfl) (by decide)
  rw [finishesResumed_of_silent (MultiChunkDownloadStrategy.run_resumed _ _),
    finishesResumed_of_silent (SequentialChunkStrategy.run_resumed _ _ _ _)]
  exact ⟨hgap, hgap⟩

/-! ### The connection budget -/

/-- The `Start` actions of `on_start` over an empty table: none without a slot, otherwise one for
each range of a plan for as many parts as `max_conn` and the slots allow. -/
theorem MultiChunkDownloadStrategy.onStart_fresh (maxConn : Int) (useChunkedDownload : Bool)
    (cache : Option (List ChunkRange)) (dlStats : DownloadStats) {availableSlots : Int}
    (hconn : 1 ≤ maxConn) (hslots : 0 < availableSlots) :
    ((init maxConn useChunkedDownload cache).onStart dlStats (Dict.empty : Dict _
      (ChunkDownloadStats κ)) availableSlots).1 =
        startActions (calculateRanges dlStats.fileSize (min maxConn availableSlots) cache) := by
  have htarget : min maxConn availableSlots ≠ 0 := by
    rcases min_choice maxConn availableSlots with h | h <;> rw [h] <;> omega
  unfold onStart
  rw [if_neg (by simp [not_le.mpr hslots])]
  exact congrArg Prod.fst (if_neg htarget)

/-- **The connection budget.** A first `on_start` keeps to its slots exactly when there is none,
or the cached ranges and the pieces of the gaps between them are that few; a piece has
`fileSize / min max_conn slots` bytes, rounded down, and every gap rounds its pieces up. -/
theorem multiChunk_budget_iff (fileSize maxConn availableSlots : Int) (useChunkedDownload : Bool)
    (cache : Option (List ChunkRange)) (hconn : 1 ≤ maxConn) :
    ((((MultiChunkDownloadStrategy.init maxConn useChunkedDownload cache).onStart ⟨fileSize⟩
      (Dict.empty : Dict _ (ChunkDownloadStats κ)) availableSlots).1.length : Int) ≤
        max 0 availableSlots) ↔
    availableSlots ≤ 0 ∨
      ((cache.getD []).length : Int) +
        ((gapLengths fileSize 0 (sortedCache cache)).map
          (piecesOf (targetChunkSize fileSize (min maxConn availableSlots)))).sum ≤
        availableSlots := by
  by_cases hslots : availableSlots ≤ 0
  · refine iff_of_true ?_ (Or.inl hslots)
    unfold MultiChunkDownloadStrategy.onStart
    rw [if_pos (Or.inr hslots)]
    exact le_max_left _ _
  · have hpos : 0 < availableSlots := not_le.mp hslots
    rw [MultiChunkDownloadStrategy.onStart_fresh _ _ _ _ hconn hpos, length_startActions,
      length_calculateRanges, max_eq_right hpos.le]
    exact ⟨Or.inr, fun h => h.resolve_left hslots⟩

/-- Twelve bytes over four connections. -/
theorem multiChunk_budget_iff_twelve :
    ((((MultiChunkDownloadStrategy.init 4 true none).onStart ⟨12⟩
      (Dict.empty : Dict _ (ChunkDownloadStats Unit)) 4).1.length : Int) ≤ max 0 4) :=
  (multiChunk_budget_iff 12 4 4 true none (by decide)).mpr (Or.inr (by decide))

/-- Ten bytes over four connections make five pieces of at most two bytes. -/
theorem multiChunk_exceeds_budget :
    ¬ ((((MultiChunkDownloadStrategy.init 4 true none).onStart ⟨10⟩
      (Dict.empty : Dict _ (ChunkDownloadStats Unit)) 4).1.length : Int) ≤ max 0 4) := by
  decide

end SDownload
