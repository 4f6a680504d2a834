import SDownload.Strategies.Runs

/-!
# SDownload.Strategies.Plans

The plan behind the `Start` actions.

* `sequential_issues_plan_once`: whatever slots `SequentialChunkStrategy` is
  offered, call by call, what it issues is a front of one list of ranges, and
  that list is a partition of the file. Everything past the first call is
  `updates_eq`: the queue only moves forward.
* `plansAlike_iff`: `MultiChunkDownloadStrategy` carries the same
  `_calc_initial_ranges` and never calls it. Its `on_start` goes to the planner
  with all its connections, for a server without range support and for a file of
  unknown size too, so the two plans are the same list only where the rules that
  it leaves out make no difference.
-/

namespace SDownload

variable {κ : Type}

/-! ### What a tiling schedules -/

/-- The ranges of a tiling of the file share no byte. -/
theorem Tiles.pairwise_disjoint {fileSize : Int} {xs : List ChunkRange} {a : Int}
    (h : Tiles fileSize a xs fileSize) : xs.Pairwise ChunkRange.Disjoint := by
  induction xs generalizing a with
  | nil => exact List.Pairwise.nil
  | cons r rest ih =>
      obtain ⟨-, -, hrest⟩ := h
      refine List.Pairwise.cons ?_ (ih hrest)
      intro r' hr' x hboth
      obtain ⟨hle, hlt, hend⟩ := hrest.bounds hr'
      have hx : r'.start ≤ x := hboth.2.1
      obtain ⟨s, e⟩ := r
      cases e with
      | none =>
          -- an open range ends with the file, and nothing starts there
          simp only [ChunkRange.stop_none] at hle
          omega
      | some e =>
          have hxe : x ≤ e := hboth.1.2 e rfl
          simp only [ChunkRange.stop_some] at hle
          omega

/-- One open range tiles a file. -/
theorem tiles_open {fileSize : Int} (hsize : 0 < fileSize) :
    Tiles fileSize 0 [⟨0, none⟩] fileSize :=
  ⟨rfl, hsize, rfl⟩

/-! ### Slots -/

/-- The sum of the slots, a call without slots offering none. -/
theorem sum_toNat_eq (slots : List Int) :
    (((slots.map Int.toNat).sum : Nat) : Int) = (slots.map (max 0)).sum := by
  induction slots with
  | nil => rfl
  | cons a rest ih =>
      simp only [List.map_cons, List.sum_cons, Nat.cast_add, ih]
      omega

namespace DownloadStrategyProtocol

variable {σ : Type}

theorem flatten_updateCalls (strategy : DownloadStrategyProtocol κ σ) (calls : List (UpdateCall κ))
    (self : σ) : (strategy.updateCalls self calls).flatten = strategy.updates self calls := by
  induction calls generalizing self with
  | nil => rfl
  | cons call rest ih => simp only [updateCalls, updates, List.flatten_cons, ih]

theorem flatten_runCalls (strategy : DownloadStrategyProtocol κ σ) (self : σ)
    (dlStats : DownloadStats) (chunksStats : Dict ChunkRange (ChunkDownloadStats κ))
    (availableSlots : Int) (calls : List (UpdateCall κ)) :
    (strategy.runCalls self dlStats chunksStats availableSlots calls).flatten =
      strategy.run self dlStats chunksStats availableSlots calls := by
  simp only [runCalls, run, List.flatten_cons, flatten_updateCalls]

end DownloadStrategyProtocol

namespace SequentialChunkStrategy

theorem length_issuePending_le (self : SequentialChunkStrategy) (availableSlots : Int) :
    ((self.issuePending availableSlots).1.length : Int) ≤ max 0 availableSlots := by
  rw [issuePending_eq, length_startActions]
  have htake := List.length_take_le availableSlots.toNat self.pendingRanges
  omega

/-- No call issues more actions than it has slots. -/
theorem updateCalls_within (calls : List (UpdateCall κ)) (self : SequentialChunkStrategy) :
    List.Forall₂ (fun actions slots => (actions.length : Int) ≤ max 0 slots)
      (strategy.updateCalls self calls) (calls.map UpdateCall.availableSlots) := by
  induction calls generalizing self with
  | nil => exact List.Forall₂.nil
  | cons call rest ih =>
      exact List.Forall₂.cons (length_issuePending_le self call.availableSlots) (ih _)

/-- The plan of a new strategy partitions the file. -/
theorem calcInitialRanges_tiles {maxConn fileSize : Int} (useChunkedDownload : Bool)
    {cache : Option (List ChunkRange)} (hsize : 0 < fileSize) (hconn : 1 ≤ maxConn)
    (hin : ∀ r ∈ cache.getD [], r.InFile fileSize)
    (hdis : (cache.getD []).Pairwise ChunkRange.Disjoint) :
    Tiles fileSize 0 ((init maxConn useChunkedDownload cache).calcInitialRanges fileSize)
      fileSize := by
  rcases sequential_plan_cases useChunkedDownload cache hconn with hopen | ⟨n, -, -, hplan⟩
  · rw [hopen]
    exact tiles_open hsize
  · have hcache : calculateRanges fileSize n cache =
        calculateRanges fileSize n (some (cache.getD [])) := by
      cases cache <;> rfl
    rw [hplan, hcache]
    exact calculateRanges_tiles hsize.le n hin hdis

end SequentialChunkStrategy

/-- **The plan is issued once.** There is one list of ranges, a partition of the file, such that
over any slots, offered to `on_start` and to any number of `on_update` calls: no call issues more
than its slots, all that is issued is the front of that list which the slots make up, nothing is
scheduled twice, and once the slots make up the list every byte is scheduled. -/
theorem sequential_issues_plan_once (fileSize maxConn : Int) (useChunkedDownload : Bool)
    (cache : Option (List ChunkRange)) (hsize : 0 < fileSize) (hconn : 1 ≤ maxConn)
    (hin : ∀ r ∈ cache.getD [], r.InFile fileSize)
    (hdis : (cache.getD []).Pairwise ChunkRange.Disjoint) :
    ∃ plan : List ChunkRange, Tiles fileSize 0 plan fileSize ∧
      ∀ (availableSlots : Int) (calls : List (UpdateCall κ)),
        let slots := availableSlots :: calls.map UpdateCall.availableSlots
        let offered := (slots.map (max 0)).sum
        let returned := SequentialChunkStrategy.strategy.runCalls
          (.init maxConn useChunkedDownload cache) ⟨fileSize⟩ Dict.empty availableSlots calls
        let issued := returned.flatten.map StartChunkAction.range
        List.Forall₂ (fun actions slots => (actions.length : Int) ≤ max 0 slots) returned slots ∧
        issued = plan.take (min offered plan.length).toNat ∧
        issued.Pairwise ChunkRange.Disjoint ∧
        (plan.length ≤ offered → Covered fileSize issued) := by
  refine ⟨_, SequentialChunkStrategy.calcInitialRanges_tiles useChunkedDownload hsize hconn hin
    hdis, ?_⟩
  intro availableSlots calls slots offered returned issued
  set plan := (SequentialChunkStrategy.init maxConn useChunkedDownload cache).calcInitialRanges
    fileSize with hplan
  have htiles : Tiles fileSize 0 plan fileSize :=
    SequentialChunkStrategy.calcInitialRanges_tiles useChunkedDownload hsize hconn hin hdis
  have hoffered : offered = ((availableSlots.toNat +
      (calls.map fun c => c.availableSlots.toNat).sum : Nat) : Int) := by
    have hcomp : (calls.map fun c => c.availableSlots.toNat) =
        (calls.map UpdateCall.availableSlots).map Int.toNat := by
      rw [List.map_map]
      rfl
    rw [hcomp]
    exact (sum_toNat_eq slots).symm
  -- however the slots are dealt out, the ranges leave the plan from the front
  have hissued : issued = plan.take (min offered plan.length).toNat := by
    have hrun := SequentialChunkStrategy.run_fresh_eq maxConn useChunkedDownload cache
      ⟨fileSize⟩ availableSlots calls
    have hfront : (min offered plan.length).toNat = min (availableSlots.toNat +
        (calls.map fun c => c.availableSlots.toNat).sum) plan.length := by omega
    show (returned.flatten.map StartChunkAction.range) = _
    rw [DownloadStrategyProtocol.flatten_runCalls, hrun, map_range_startActions, hfront,
      List.take_eq_take_min]
  refine ⟨?_, hissued, ?_, ?_⟩
  · exact List.Forall₂.cons (SequentialChunkStrategy.length_issuePending_le _ availableSlots)
      (SequentialChunkStrategy.updateCalls_within calls _)
  · rw [hissued]
    exact htiles.pairwise_disjoint.sublist (List.take_sublist _ _)
  · intro hall x h0 hx
    have hwhole : (min offered plan.length).toNat = plan.length := by omega
    rw [hissued, hwhole, List.take_length]
    exact htiles.covers h0 hx hx

/-- Seven bytes over two connections, a cached byte and a cached tail; a call without slots, then
one with more than are left. -/
theorem sequential_issues_plan_once_seven :
    ∃ plan : List ChunkRange, Tiles 7 0 plan 7 ∧
      (((SequentialChunkStrategy.strategy (κ := Unit)).runCalls
        (.init 2 true (some [⟨6, none⟩, ⟨2, some 2⟩])) ⟨7⟩ Dict.empty 2
        [⟨⟨7⟩, Dict.empty, -1⟩, ⟨⟨7⟩, Dict.empty, 9⟩]).flatten.map StartChunkAction.range) =
          plan.take (min 11 plan.length : Int).toNat := by
  obtain ⟨plan, htiles, hruns⟩ := sequential_issues_plan_once (κ := Unit) 7 2 true
    (some [⟨6, none⟩, ⟨2, some 2⟩]) (by decide) (by decide) (by decide)
    (by
      simp only [Option.getD_some, List.pairwise_cons, List.mem_singleton, forall_eq,
        List.not_mem_nil, false_implies, implies_true, List.Pairwise.nil, and_true]
      intro x hboth
      have hlow : 6 ≤ x := hboth.1.1
      have hhigh : x ≤ 2 := hboth.2.2 2 rfl
      omega)
  exact ⟨plan, htiles, (hruns 2 [⟨⟨7⟩, Dict.empty, -1⟩, ⟨⟨7⟩, Dict.empty, 9⟩]).2.1⟩

/-! ### Plans with pieces of two sizes -/

/-- A gap of at most one piece is the same range for every larger piece. -/
theorem fillGap_eq_of_le {a b s gapEnd : Int} {closing : Option Int} (hab : a ≤ b)
    (hlen : gapEnd + 1 - s ≤ a) :
    fillGap a s gapEnd closing = fillGap b s gapEnd closing := by
  by_cases hlt : gapEnd < s
  · rw [fillGap_of_lt hlt, fillGap_of_lt hlt]
  · rw [fillGap_last (by omega) (by omega), fillGap_last (by omega) (by omega)]

/-- A gap of more than one piece starts with a range that no larger piece starts with. -/
theorem fillGap_append_ne {a b s gapEnd : Int} {closing : Option Int} (ha : 0 < a) (hab : a < b)
    (hlen : a < gapEnd + 1 - s) (hclosing : ∀ e ∈ closing, e = gapEnd)
    (xs ys : List ChunkRange) :
    fillGap a s gapEnd closing ++ xs ≠ fillGap b s gapEnd closing ++ ys := by
  intro heq
  rw [fillGap_cons ha (by omega), List.cons_append] at heq
  by_cases hlast : gapEnd - s + 1 ≤ b
  · rw [fillGap_last (by omega) hlast, List.cons_append] at heq
    have hend : some (s + a - 1) = closing :=
      congrArg ChunkRange.endByte (List.cons.inj heq).1
    have := hclosing _ hend.symm
    omega
  · rw [fillGap_cons (ha.trans hab) (not_le.mp hlast), List.cons_append] at heq
    have hend : some (s + a - 1) = some (s + b - 1) :=
      congrArg ChunkRange.endByte (List.cons.inj heq).1
    have := Option.some.inj hend
    omega

/-- The part of a plan in front of a cached range, or behind all of them, and what follows it. -/
theorem gap_append_eq_iff {a b pos next : Int} {closing : Option Int} (ha : 0 < a) (hab : a < b)
    (hclosing : ∀ e ∈ closing, e = next - 1) (xs ys : List ChunkRange) :
    (if pos < next then fillGap a pos (next - 1) closing else []) ++ xs =
        (if pos < next then fillGap b pos (next - 1) closing else []) ++ ys ↔
      next - pos ≤ a ∧ xs = ys := by
  by_cases hlt : pos < next
  · rw [if_pos hlt, if_pos hlt]
    by_cases hlen : next - pos ≤ a
    · rw [fillGap_eq_of_le hab.le (by omega), List.append_cancel_left_eq]
      exact ⟨fun h => ⟨hlen, h⟩, fun h => h.2⟩
    · exact iff_of_false (fillGap_append_ne ha hab (by omega) hclosing xs ys) fun h => hlen h.1
  · rw [if_neg hlt, if_neg hlt, List.nil_append, List.nil_append]
    exact ⟨fun h => ⟨by omega, h⟩, fun h => h.2⟩

/-- Two piece sizes give the same plan exactly when no gap is longer than the smaller of them. -/
theorem planFrom_eq_iff {fileSize a b : Int} (ha : 0 < a) (hab : a < b) :
    ∀ (cache : List ChunkRange) (pos : Int),
      planFrom fileSize a pos cache = planFrom fileSize b pos cache ↔
        ∀ len ∈ gapLengths fileSize pos cache, len ≤ a := by
  intro cache
  induction cache with
  | nil =>
      intro pos
      have hgap := @gap_append_eq_iff a b pos fileSize none ha hab (by simp) [] []
      simp only [List.append_nil, and_true] at hgap
      simpa only [planFrom, gapLengths, List.mem_singleton, forall_eq] using hgap
  | cons r rest ih =>
      intro pos
      simp only [planFrom, gapLengths, List.forall_mem_cons]
      rw [gap_append_eq_iff ha hab (by simp), List.cons_inj_right, ih]

/-! ### The plans of the two strategies -/

/-- `calculate_ranges` plans one open range exactly over a cache of just that range, or over no
cache for one connection or one byte. -/
theorem calculateRanges_eq_open_iff {fileSize maxConn : Int} (hconn : 1 ≤ maxConn)
    (cache : Option (List ChunkRange)) :
    calculateRanges fileSize maxConn cache = [⟨0, none⟩] ↔
      cache.getD [] = [⟨0, none⟩] ∨
        cache.getD [] = [] ∧ 0 < fileSize ∧ (maxConn = 1 ∨ fileSize = 1) := by
  have hperm : (sortedCache cache).Perm (cache.getD []) := List.perm_insertionSort _ _
  have htarget := targetChunkSize_pos fileSize maxConn
  rw [calculateRanges]
  cases hsorted : sortedCache cache with
  | nil =>
      have hnil : cache.getD [] = [] := by
        rw [hsorted] at hperm
        exact hperm.nil_eq.symm
      simp only [hnil, planFrom, reduceCtorEq, true_and, false_or]
      by_cases hsize : 0 < fileSize
      · rw [if_pos hsize]
        have hone : fileSize ≤ targetChunkSize fileSize maxConn ↔
            maxConn = 1 ∨ fileSize = 1 := by
          rw [targetChunkSize, if_neg (by omega), Int.fdiv_eq_ediv_of_nonneg _ (by omega)]
          constructor
          · intro hle
            by_contra hmore
            have hmul : fileSize < fileSize * maxConn := by
              have h := Int.mul_lt_mul_of_pos_left (show 1 < maxConn by omega) hsize
              rwa [Int.mul_one] at h
            have hshare : fileSize / maxConn < fileSize :=
              Int.ediv_lt_of_lt_mul (by omega) hmul
            omega
          · intro h
            rcases h with rfl | rfl
            · rw [Int.ediv_one]
              exact le_max_right _ _
            · exact le_max_left _ _
        rw [← hone]
        constructor
        · intro heq
          by_contra hmore
          have hlong : targetChunkSize fileSize maxConn < fileSize - 1 - 0 + 1 := by omega
          rw [fillGap_cons htarget hlong] at heq
          exact absurd (congrArg ChunkRange.endByte (List.cons.inj heq).1) (by simp)
        · intro hle
          exact fillGap_last (by omega) (by omega)
      · rw [if_neg hsize]
        exact iff_of_false (by simp) fun h => hsize h.1
  | cons r rest =>
      have hne : cache.getD [] ≠ [] := by
        intro hnil
        rw [hsorted, hnil] at hperm
        exact absurd hperm.eq_nil (by simp)
      simp only [hne, false_and, or_false]
      constructor
      · intro heq
        -- the cached ranges are planned, in order, so they are the one planned range
        have hsub := @sublist_planFrom fileSize (targetChunkSize fileSize maxConn) (r :: rest) 0
        rw [heq] at hsub
        have hone : r :: rest = [⟨0, none⟩] := hsub.eq_of_length_le (by simp)
        rw [hsorted, hone] at hperm
        exact hperm.symm.eq_singleton
      · intro hcache
        rw [hcache, hsorted] at hperm
        obtain ⟨rfl, rfl⟩ : r = ⟨0, none⟩ ∧ rest = [] := by
          simpa using hperm.eq_singleton
        simp [planFrom]

/-- What is asked of the two plans: over an empty table both strategies issue the same ranges, one
open range where chunked download is off or the size is unknown. -/
def PlansAlike (κ : Type) (fileSize maxConn : Int) (useChunkedDownload : Bool)
    (cache : Option (List ChunkRange)) (availableSlots : Int) : Prop :=
  let noStats : Dict ChunkRange (ChunkDownloadStats κ) := Dict.empty
  let multi := ((MultiChunkDownloadStrategy.init maxConn useChunkedDownload cache).onStart
    ⟨fileSize⟩ noStats availableSlots).1.map StartChunkAction.range
  let sequential := ((SequentialChunkStrategy.init maxConn useChunkedDownload cache).onStart
    ⟨fileSize⟩ noStats availableSlots).1.map StartChunkAction.range
  multi = sequential ∧
    (useChunkedDownload = false ∨ fileSize ≤ 0 →
      multi = [⟨0, none⟩] ∧ sequential = [⟨0, none⟩])

/-- The inputs on which the rules of `_calc_initial_ranges` that `on_start` of
`MultiChunkDownloadStrategy` does not apply change nothing. Where one open range is due, nothing
else is cached and nothing would be cut; otherwise the 2 MB rule leaves the piece size as it is, or
no gap between cached ranges is longer than a piece for all connections. -/
def RulesChangeNothing (fileSize maxConn : Int) (useChunkedDownload : Bool)
    (cache : Option (List ChunkRange)) : Prop :=
  if useChunkedDownload = false ∨ fileSize ≤ 0 then
    cache.getD [] = [⟨0, none⟩] ∨
      cache.getD [] = [] ∧ 0 < fileSize ∧ (maxConn = 1 ∨ fileSize = 1)
  else
    targetChunkSize fileSize (reducedConn fileSize maxConn) = targetChunkSize fileSize maxConn ∨
      ∀ len ∈ gapLengths fileSize 0 (sortedCache cache), len ≤ targetChunkSize fileSize maxConn

/-- The plan for all connections is the plan that the rules ask for exactly where they change
nothing. -/
theorem calculateRanges_eq_plan_iff {fileSize maxConn : Int} (useChunkedDownload : Bool)
    (cache : Option (List ChunkRange)) (hconn : 1 ≤ maxConn) :
    calculateRanges fileSize maxConn cache =
        (SequentialChunkStrategy.init maxConn useChunkedDownload cache).calcInitialRanges fileSize ↔
      RulesChangeNothing fileSize maxConn useChunkedDownload cache := by
  by_cases hopen : useChunkedDownload = false ∨ fileSize ≤ 0
  · rw [SequentialChunkStrategy.calcInitialRanges_open maxConn cache hopen, RulesChangeNothing,
      if_pos hopen]
    exact calculateRanges_eq_open_iff hconn cache
  · obtain ⟨hone, hle⟩ := @reducedConn_le fileSize maxConn hconn
    have hsize : 0 < fileSize := not_le.mp fun h => hopen (Or.inr h)
    -- fewer connections, longer pieces
    have hlonger := targetChunkSize_anti hsize.le hone hle
    rw [SequentialChunkStrategy.calcInitialRanges_chunked maxConn cache hopen, RulesChangeNothing,
      if_neg hopen, calculateRanges, calculateRanges]
    rcases eq_or_lt_of_le hlonger with hsame | hlt
    · rw [hsame]
      exact iff_of_true rfl (Or.inl rfl)
    · rw [planFrom_eq_iff (targetChunkSize_pos _ _) hlt]
      exact ⟨Or.inr, fun h => h.resolve_left hlt.ne'⟩

/-- The first call of a new `SequentialChunkStrategy`. -/
theorem SequentialChunkStrategy.onStart_fresh (maxConn : Int) (useChunkedDownload : Bool)
    (cache : Option (List ChunkRange)) (dlStats : DownloadStats) (availableSlots : Int) :
    ((init maxConn useChunkedDownload cache).onStart dlStats (Dict.empty : Dict _
      (ChunkDownloadStats κ)) availableSlots).1.map StartChunkAction.range =
        ((init maxConn useChunkedDownload cache).calcInitialRanges dlStats.fileSize).take
          availableSlots.toNat := by
  have hrun := run_fresh_eq (κ := κ) maxConn useChunkedDownload cache dlStats availableSlots []
  simp only [List.map_nil, List.sum_nil, Nat.add_zero, DownloadStrategyProtocol.run,
    DownloadStrategyProtocol.updates, List.append_nil] at hrun
  have hranges := congrArg (List.map StartChunkAction.range) hrun
  rwa [map_range_startActions] at hranges

/-- **The plans of the two strategies.** With a slot for every connection and every planned range,
the two first calls issue the same ranges exactly where the rules that only one of them applies
change nothing. -/
theorem plansAlike_iff (fileSize maxConn : Int) (useChunkedDownload : Bool)
    (cache : Option (List ChunkRange)) (availableSlots : Int) (hconn : 1 ≤ maxConn)
    (hslots : maxConn ≤ availableSlots)
    (hplan : ((SequentialChunkStrategy.init maxConn useChunkedDownload cache).calcInitialRanges
      fileSize).length ≤ availableSlots) :
    PlansAlike κ fileSize maxConn useChunkedDownload cache availableSlots ↔
      RulesChangeNothing fileSize maxConn useChunkedDownload cache := by
  have hmulti := MultiChunkDownloadStrategy.onStart_fresh (κ := κ) maxConn useChunkedDownload cache
    ⟨fileSize⟩ hconn (show 0 < availableSlots by omega)
  have hsequential := SequentialChunkStrategy.onStart_fresh (κ := κ) maxConn useChunkedDownload
    cache ⟨fileSize⟩ availableSlots
  have hall : ((SequentialChunkStrategy.init maxConn useChunkedDownload cache).calcInitialRanges
      fileSize).length ≤ availableSlots.toNat := by omega
  rw [List.take_of_length_le hall] at hsequential
  rw [min_eq_left hslots] at hmulti
  rw [← calculateRanges_eq_plan_iff useChunkedDownload cache hconn]
  simp only [PlansAlike, hsequential, hmulti, map_range_startActions]
  constructor
  · exact And.left
  · intro heq
    refine ⟨heq, fun hopen => ?_⟩
    have hone := SequentialChunkStrategy.calcInitialRanges_open maxConn cache hopen
    exact ⟨heq.trans hone, hone⟩

/-- Six million bytes over two connections: two pieces, each longer than 2 MB. -/
theorem plansAlike_iff_sixMillion : PlansAlike Unit 6000000 2 true none 2 :=
  (plansAlike_iff 6000000 2 true none 2 (by decide) (by decide) (by decide)).mpr (by
    rw [RulesChangeNothing, if_neg (by decide)]
    exact Or.inl (by decide))

/-- A server without range support: ten bytes, two connections, chunked download off. One strategy
asks for the whole file, the other opens both connections. -/
theorem unchunked_opens_two_connections :
    (1 : Int) ≤ 2 ∧ (2 : Int) ≤ 2 ∧
      (((SequentialChunkStrategy.init 2 false none).calcInitialRanges 10).length : Int) ≤ 2 ∧
      ¬ PlansAlike Unit 10 2 false none 2 := by
  refine ⟨by decide, by decide, by decide, ?_⟩
  intro h
  exact absurd h.1 (by decide)

end SDownload
