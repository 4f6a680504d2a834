import Mathlib.Algebra.Ring.Int.Defs
import SDownload.Models.Stats

/-!
# SDownload.Models.Observers

What the limit observers of one record may rely on (`stats_models.py`).

A record has room for one waiting observer. One that is registered while another
waits, and is not called at once, takes its place, and the first is not called any
more. That apart an observer is called once, at the first moment the counter
reaches its limit; this is `limit_observers_called`, for every sequence of calls.

A sequence is a list of calls, a moment a place in it. Callbacks are told apart by
the place of the call that registers them.
-/

namespace SDownload

/-- A call of one of the two methods. -/
inductive StatsCall
  | addQtBytesDownloaded (qtBytes : Int)
  | addLimitObserver (qtMaxUsefulBytes : Int)
  deriving Repr, DecidableEq

/-- The bytes a call reports. -/
def StatsCall.qtBytes : StatsCall → Int
  | .addQtBytesDownloaded qtBytes => qtBytes
  | .addLimitObserver _ => 0

namespace ChunkDownloadStats

/-- One call, the one at `place`, and the callback it calls. -/
def perform (s : ChunkDownloadStats Nat) (place : Nat) :
    StatsCall → ChunkDownloadStats Nat × Option Nat
  | .addQtBytesDownloaded qtBytes => s.addQtBytesDownloaded qtBytes
  | .addLimitObserver qtMaxUsefulBytes => s.addLimitObserver qtMaxUsefulBytes place

/-- The record once the first `moment` calls are made. -/
def atMoment (s : ChunkDownloadStats Nat) (calls : List StatsCall) : Nat → ChunkDownloadStats Nat
  | 0 => s
  | moment + 1 =>
      match calls[moment]? with
      | some call => ((s.atMoment calls moment).perform moment call).1
      | none => s.atMoment calls moment

/-- The callback that the call at `moment` calls. -/
def calledAt (s : ChunkDownloadStats Nat) (calls : List StatsCall) (moment : Nat) : Option Nat :=
  match calls[moment]? with
  | some call => ((s.atMoment calls moment).perform moment call).2
  | none => none

/-! ### What is promised -/

/-- The bytes the record starts from and those of the first `moment` calls. -/
def bytesAt (s : ChunkDownloadStats Nat) (calls : List StatsCall) (moment : Nat) : Int :=
  s.bytesDownloaded + ((calls.take moment).map StatsCall.qtBytes).sum

/-- The call at `moment` is the first, from the registration at `place` on, after which the counter
is at the limit. -/
structure FirstReached (s : ChunkDownloadStats Nat) (calls : List StatsCall) (place : Nat)
    (limit : Int) (moment : Nat) : Prop where
  since : place ≤ moment
  reached : limit ≤ s.bytesAt calls (moment + 1)
  first : ∀ u, place ≤ u → u < moment → s.bytesAt calls (u + 1) < limit

/-- Between the registration at `place` and `moment` another observer is registered that is not
called at once. -/
def Replaced (s : ChunkDownloadStats Nat) (calls : List StatsCall) (place moment : Nat) : Prop :=
  ∃ j limit, place < j ∧ j < moment ∧ calls[j]? = some (.addLimitObserver limit) ∧
    s.bytesAt calls j < limit

/-- The observer registered at `place` is the one that waits at `moment`. -/
structure Waiting (s : ChunkDownloadStats Nat) (calls : List StatsCall) (place : Nat)
    (limit : Int) (moment : Nat) : Prop where
  registered : calls[place]? = some (.addLimitObserver limit)
  before : place < moment
  short : ∀ u, place ≤ u → u < moment → s.bytesAt calls (u + 1) < limit
  kept : ¬ s.Replaced calls place moment

/-- The record holds the observer registered at `place`. -/
def Holds (s : ChunkDownloadStats Nat) (place : Nat) (limit : Int) : Prop :=
  s.limited = true ∧ s.onLimit = some place ∧ s.limitQtBytes = limit

variable {s : ChunkDownloadStats Nat} {calls : List StatsCall} {call : StatsCall}
  {place moment : Nat} {limit : Int}

/-! ### The counter -/

theorem bytesAt_succ (h : calls[moment]? = some call) :
    s.bytesAt calls (moment + 1) = s.bytesAt calls moment + call.qtBytes := by
  unfold bytesAt
  rw [List.take_add_one, h, Option.toList_some, List.map_append, List.sum_append, Int.add_assoc,
    List.map_singleton, List.sum_singleton]

theorem bytesAt_succ_of_none (h : calls[moment]? = none) :
    s.bytesAt calls (moment + 1) = s.bytesAt calls moment := by
  unfold bytesAt
  rw [List.take_add_one, h, Option.toList_none, List.append_nil]

theorem atMoment_succ (h : calls[moment]? = some call) :
    s.atMoment calls (moment + 1) = ((s.atMoment calls moment).perform moment call).1 := by
  rw [atMoment, h]

theorem atMoment_succ_of_none (h : calls[moment]? = none) :
    s.atMoment calls (moment + 1) = s.atMoment calls moment := by
  rw [atMoment, h]

theorem perform_bytesDownloaded (s : ChunkDownloadStats Nat) (place : Nat) (call : StatsCall) :
    (s.perform place call).1.bytesDownloaded = s.bytesDownloaded + call.qtBytes := by
  cases call with
  | addQtBytesDownloaded qtBytes =>
      simp only [perform, addQtBytesDownloaded]
      split
      · split <;> rfl
      · rfl
  | addLimitObserver limit =>
      simp only [perform, addLimitObserver, StatsCall.qtBytes, Int.add_zero]
      split <;> rfl

/-- **The counter is the sum.** -/
theorem atMoment_bytesDownloaded (s : ChunkDownloadStats Nat) (calls : List StatsCall)
    (moment : Nat) : (s.atMoment calls moment).bytesDownloaded = s.bytesAt calls moment := by
  induction moment with
  | zero => simp [atMoment, bytesAt]
  | succ moment ih =>
      cases h : calls[moment]? with
      | none => rw [atMoment_succ_of_none h, bytesAt_succ_of_none h, ih]
      | some call => rw [atMoment_succ h, bytesAt_succ h, perform_bytesDownloaded, ih]

/-! ### The observer that waits -/

theorem firstReached_unique {moment' : Nat} (h : s.FirstReached calls place limit moment)
    (h' : s.FirstReached calls place limit moment') : moment = moment' := by
  rcases Nat.lt_trichotomy moment moment' with hlt | heq | hgt
  · exact absurd h.reached (Int.not_le.mpr (h'.first moment h.since hlt))
  · exact heq
  · exact absurd h'.reached (Int.not_le.mpr (h.first moment' h'.since hgt))

/-- A limit the counter gets to has a first moment. -/
theorem exists_firstReached (hsince : place ≤ moment)
    (hreached : limit ≤ s.bytesAt calls (moment + 1)) :
    ∃ t, s.FirstReached calls place limit t := by
  induction moment using Nat.strongRecOn with
  | ind moment ih =>
      by_cases hfirst : ∀ u, place ≤ u → u < moment → s.bytesAt calls (u + 1) < limit
      · exact ⟨moment, hsince, hreached, hfirst⟩
      · push Not at hfirst
        obtain ⟨u, hu, hlt, hle⟩ := hfirst
        exact ih u hlt hu hle

theorem bytesAt_lt (hlt : place < moment)
    (hshort : ∀ u, place ≤ u → u < moment → s.bytesAt calls (u + 1) < limit) :
    s.bytesAt calls moment < limit := by
  obtain ⟨u, rfl⟩ := Nat.exists_eq_add_one_of_ne_zero (Nat.ne_zero_of_lt hlt)
  exact hshort u (Nat.le_of_lt_succ hlt) (Nat.lt_succ_self u)

/-- A limit is first reached by a call that reports bytes, or at once. -/
theorem FirstReached.eq_place (h : s.FirstReached calls place limit moment)
    (hbytes : s.bytesAt calls (moment + 1) = s.bytesAt calls moment) : place = moment := by
  refine (Nat.eq_or_lt_of_le h.since).resolve_right fun hlt => ?_
  exact absurd (hbytes ▸ h.reached) (Int.not_le.mpr (bytesAt_lt hlt h.first))

/-- Until the counter is at its limit, an observer waits that is not replaced. -/
theorem firstReached_iff_waiting (hlt : place < moment)
    (hplace : calls[place]? = some (.addLimitObserver limit)) :
    (s.FirstReached calls place limit moment ∧ ¬ s.Replaced calls place moment) ↔
      s.Waiting calls place limit moment ∧ limit ≤ s.bytesAt calls (moment + 1) :=
  ⟨fun ⟨h, hkept⟩ => ⟨⟨hplace, hlt, h.first, hkept⟩, h.reached⟩,
    fun ⟨h, hreached⟩ => ⟨⟨Nat.le_of_lt hlt, hreached, h.short⟩, h.kept⟩⟩

theorem Waiting.bytes_lt (h : s.Waiting calls place limit moment) :
    s.bytesAt calls moment < limit :=
  bytesAt_lt h.before h.short

/-- What the call at `moment` does to an observer that was registered before. -/
theorem waiting_succ_iff (hlt : place < moment) :
    s.Waiting calls place limit (moment + 1) ↔
      s.Waiting calls place limit moment ∧ s.bytesAt calls (moment + 1) < limit ∧
        ∀ limit', calls[moment]? = some (.addLimitObserver limit') →
          limit' ≤ s.bytesAt calls moment := by
  constructor
  · intro h
    refine ⟨⟨h.registered, hlt, fun u hu hum => h.short u hu (Nat.lt_succ_of_lt hum), ?_⟩,
      h.short moment (Nat.le_of_lt hlt) (Nat.lt_succ_self moment), fun limit' hcall => ?_⟩
    · rintro ⟨j, limit', hj, hjm, hcall, hlimit⟩
      exact h.kept ⟨j, limit', hj, Nat.lt_succ_of_lt hjm, hcall, hlimit⟩
    · exact Int.not_lt.mp fun hlimit =>
        h.kept ⟨moment, limit', hlt, Nat.lt_succ_self moment, hcall, hlimit⟩
  · rintro ⟨h, hshort, hcalled⟩
    refine ⟨h.registered, Nat.lt_succ_of_lt hlt, fun u hu hum => ?_, ?_⟩
    · rcases Nat.lt_succ_iff_lt_or_eq.mp hum with hum | rfl
      · exact h.short u hu hum
      · exact hshort
    · rintro ⟨j, limit', hj, hjm, hcall, hlimit⟩
      rcases Nat.lt_succ_iff_lt_or_eq.mp hjm with hjm | rfl
      · exact h.kept ⟨j, limit', hj, hjm, hcall, hlimit⟩
      · exact absurd (hcalled limit' hcall) (Int.not_le.mpr hlimit)

/-- The observer the call at `moment` registers waits after it unless it is called at once. -/
theorem waiting_registered_iff :
    s.Waiting calls moment limit (moment + 1) ↔
      calls[moment]? = some (.addLimitObserver limit) ∧ s.bytesAt calls (moment + 1) < limit := by
  constructor
  · exact fun h => ⟨h.registered, h.bytes_lt⟩
  · rintro ⟨hcall, hshort⟩
    refine ⟨hcall, Nat.lt_succ_self moment, fun u hu hum => ?_, ?_⟩
    · rwa [Nat.le_antisymm (Nat.le_of_lt_succ hum) hu]
    · rintro ⟨j, limit', hj, hjm, -⟩
      exact absurd hj (Nat.not_lt.mpr (Nat.le_of_lt_succ hjm))

theorem lt_of_waiting_succ (h : s.Waiting calls place limit (moment + 1))
    (hcall : ∀ limit', calls[moment]? ≠ some (.addLimitObserver limit')) : place < moment := by
  rcases Nat.lt_succ_iff_lt_or_eq.mp h.before with hlt | rfl
  · exact hlt
  · exact absurd h.registered (hcall limit)

theorem waiting_succ_of_none (hcall : calls[moment]? = none) :
    s.Waiting calls place limit (moment + 1) ↔ s.Waiting calls place limit moment := by
  constructor
  · intro h
    have hlt : place < moment := lt_of_waiting_succ h fun limit' => by simp [hcall]
    exact ((waiting_succ_iff hlt).mp h).1
  · intro h
    refine (waiting_succ_iff h.before).mpr ⟨h, ?_, fun limit' hcall' => ?_⟩
    · rw [bytesAt_succ_of_none hcall]
      exact h.bytes_lt
    · rw [hcall] at hcall'
      cases hcall'

theorem waiting_succ_of_add {qtBytes : Int}
    (hcall : calls[moment]? = some (.addQtBytesDownloaded qtBytes)) :
    s.Waiting calls place limit (moment + 1) ↔
      s.Waiting calls place limit moment ∧ s.bytesAt calls moment + qtBytes < limit := by
  have hbytes : s.bytesAt calls (moment + 1) = s.bytesAt calls moment + qtBytes :=
    bytesAt_succ hcall
  constructor
  · intro h
    have hlt : place < moment := lt_of_waiting_succ h fun limit' => by simp [hcall]
    exact ⟨((waiting_succ_iff hlt).mp h).1, hbytes ▸ h.bytes_lt⟩
  · rintro ⟨h, hshort⟩
    refine (waiting_succ_iff h.before).mpr ⟨h, hbytes ▸ hshort, fun limit' hcall' => ?_⟩
    rw [hcall] at hcall'
    cases hcall'

theorem waiting_succ_of_observe {limit' : Int}
    (hcall : calls[moment]? = some (.addLimitObserver limit')) :
    s.Waiting calls place limit (moment + 1) ↔
      (limit' ≤ s.bytesAt calls moment ∧ s.Waiting calls place limit moment) ∨
        (s.bytesAt calls moment < limit' ∧ place = moment ∧ limit = limit') := by
  have hbytes : s.bytesAt calls (moment + 1) = s.bytesAt calls moment := by
    rw [bytesAt_succ hcall, StatsCall.qtBytes, Int.add_zero]
  constructor
  · intro h
    rcases Nat.lt_succ_iff_lt_or_eq.mp h.before with hlt | rfl
    · obtain ⟨hbefore, -, hcalled⟩ := (waiting_succ_iff hlt).mp h
      exact Or.inl ⟨hcalled limit' hcall, hbefore⟩
    · obtain rfl : limit' = limit := by simpa [hcall] using h.registered
      exact Or.inr ⟨hbytes ▸ h.bytes_lt, rfl, rfl⟩
  · rintro (⟨hreached, h⟩ | ⟨hshort, rfl, rfl⟩)
    · refine (waiting_succ_iff h.before).mpr ⟨h, hbytes ▸ h.bytes_lt, fun limit'' hcall' => ?_⟩
      obtain rfl : limit' = limit'' := by simpa [hcall] using hcall'
      exact hreached
    · exact waiting_registered_iff.mpr ⟨hcall, hbytes ▸ hshort⟩

/-! ### What the record does -/

theorem holds_addQtBytesDownloaded (s : ChunkDownloadStats Nat) (qtBytes : Int) :
    (s.addQtBytesDownloaded qtBytes).1.Holds place limit ↔
      s.Holds place limit ∧ s.bytesDownloaded + qtBytes < limit := by
  unfold addQtBytesDownloaded Holds
  cases hl : s.limited with
  | false => simp
  | true =>
      by_cases hreached : s.limitQtBytes ≤ s.bytesDownloaded + qtBytes
      · simp only [if_pos hreached, if_true, Bool.false_eq_true, false_and, true_and, false_iff]
        rintro ⟨⟨-, rfl⟩, hlt⟩
        exact absurd hreached (Int.not_le.mpr hlt)
      · simp only [if_neg hreached, if_true, true_and, iff_self_and]
        rintro ⟨-, rfl⟩
        exact Int.not_le.mp hreached

theorem holds_addLimitObserver (s : ChunkDownloadStats Nat) (limit' : Int) (moment : Nat) :
    (s.addLimitObserver limit' moment).1.Holds place limit ↔
      (limit' ≤ s.bytesDownloaded ∧ s.Holds place limit) ∨
        (s.bytesDownloaded < limit' ∧ place = moment ∧ limit = limit') := by
  unfold addLimitObserver Holds
  by_cases hreached : limit' ≤ s.bytesDownloaded
  · rw [if_pos hreached]
    simp only [hreached, true_and, Int.not_lt.mpr hreached, false_and, or_false]
  · rw [if_neg hreached]
    simp only [hreached, false_and, false_or, Int.not_le.mp hreached, true_and, Option.some.injEq]
    exact ⟨fun h => ⟨h.1.symm, h.2.symm⟩, fun h => ⟨h.1.symm, h.2.symm⟩⟩

/-- **The slot.** The record holds the observer that waits, and no other. -/
theorem holds_iff_waiting (hs : s.limited = false) :
    (s.atMoment calls moment).Holds place limit ↔ s.Waiting calls place limit moment := by
  induction moment with
  | zero =>
      refine ⟨fun h => ?_, fun h => absurd h.before (Nat.not_lt_zero place)⟩
      exact absurd (hs.symm.trans h.1) Bool.false_ne_true
  | succ moment ih =>
      cases hcall : calls[moment]? with
      | none => rw [atMoment_succ_of_none hcall, waiting_succ_of_none hcall, ih]
      | some call =>
          rw [atMoment_succ hcall]
          cases call with
          | addQtBytesDownloaded qtBytes =>
              rw [waiting_succ_of_add hcall, ← ih, ← atMoment_bytesDownloaded]
              exact holds_addQtBytesDownloaded _ qtBytes
          | addLimitObserver limit' =>
              rw [waiting_succ_of_observe hcall, ← ih, ← atMoment_bytesDownloaded]
              exact holds_addLimitObserver _ limit' moment

theorem addQtBytesDownloaded_snd (s : ChunkDownloadStats Nat) (qtBytes : Int) :
    (s.addQtBytesDownloaded qtBytes).2 = some place ↔
      ∃ limit, s.Holds place limit ∧ limit ≤ s.bytesDownloaded + qtBytes := by
  unfold addQtBytesDownloaded Holds
  cases hl : s.limited with
  | false => simp
  | true =>
      by_cases hreached : s.limitQtBytes ≤ s.bytesDownloaded + qtBytes
      · simp only [if_pos hreached, if_true, true_and]
        exact ⟨fun h => ⟨s.limitQtBytes, ⟨h, rfl⟩, hreached⟩, fun ⟨_, h, _⟩ => h.1⟩
      · simp only [if_neg hreached, if_true, true_and, reduceCtorEq, false_iff]
        rintro ⟨limit, ⟨-, rfl⟩, hle⟩
        exact hreached hle

theorem addLimitObserver_snd (s : ChunkDownloadStats Nat) (limit' : Int) (moment : Nat) :
    (s.addLimitObserver limit' moment).2 = some place ↔
      limit' ≤ s.bytesDownloaded ∧ place = moment := by
  unfold addLimitObserver
  by_cases hreached : limit' ≤ s.bytesDownloaded
  · rw [if_pos hreached]
    simp only [hreached, true_and, Option.some.injEq, eq_comm]
  · rw [if_neg hreached]
    simp only [hreached, false_and, reduceCtorEq]

/-- **One call.** A callback is called when the limit it was registered with is first reached,
provided it was not replaced. -/
theorem calledAt_iff (hs : s.limited = false)
    (hplace : calls[place]? = some (.addLimitObserver limit)) :
    s.calledAt calls moment = some place ↔
      s.FirstReached calls place limit moment ∧ ¬ s.Replaced calls place moment := by
  cases hcall : calls[moment]? with
  | none =>
      simp only [calledAt, hcall, reduceCtorEq, false_iff, not_and]
      intro h
      rw [h.eq_place (bytesAt_succ_of_none hcall), hcall] at hplace
      cases hplace
  | some call =>
      simp only [calledAt, hcall]
      cases call with
      | addQtBytesDownloaded qtBytes =>
          rw [perform, addQtBytesDownloaded_snd, atMoment_bytesDownloaded]
          have hbytes : s.bytesAt calls (moment + 1) = s.bytesAt calls moment + qtBytes :=
            bytesAt_succ hcall
          constructor
          · rintro ⟨limit', hholds, hle⟩
            have hwait := (holds_iff_waiting hs).mp hholds
            obtain rfl : limit = limit' := by simpa [hplace] using hwait.registered
            exact (firstReached_iff_waiting hwait.before hplace).mpr ⟨hwait, hbytes ▸ hle⟩
          · intro h
            have hlt : place < moment := by
              refine lt_of_le_of_ne h.1.since fun heq => ?_
              rw [heq, hcall] at hplace
              cases hplace
            obtain ⟨hwait, hle⟩ := (firstReached_iff_waiting hlt hplace).mp h
            exact ⟨limit, (holds_iff_waiting hs).mpr hwait, hbytes ▸ hle⟩
      | addLimitObserver limit' =>
          rw [perform, addLimitObserver_snd, atMoment_bytesDownloaded]
          have hbytes : s.bytesAt calls (moment + 1) = s.bytesAt calls moment := by
            rw [bytesAt_succ hcall, StatsCall.qtBytes, Int.add_zero]
          constructor
          · rintro ⟨hle, rfl⟩
            obtain rfl : limit = limit' := by simpa [hplace] using hcall
            refine ⟨⟨Nat.le_refl _, hbytes ▸ hle, fun u hu hum => ?_⟩, ?_⟩
            · exact absurd hu (Nat.not_le.mpr hum)
            · rintro ⟨j, limit', hj, hjp, -⟩
              exact absurd hj (Nat.lt_asymm hjp)
          · intro h
            obtain rfl := h.1.eq_place hbytes
            obtain rfl : limit = limit' := by simpa [hplace] using hcall
            exact ⟨hbytes ▸ h.1.reached, rfl⟩

/-- **The observers of a record.** Whatever is added and registered in whatever order, the counter
is the sum, and a callback is called exactly at the first moment the counter is at its limit (at
once, if it is there already), unless another observer took its place before; so it is called at
most once, and once if the limit is ever reached and it is not replaced until then. -/
theorem limit_observers_called (hs : s.limited = false) (calls : List StatsCall) :
    (∀ moment, (s.atMoment calls moment).bytesDownloaded =
      s.bytesDownloaded + ((calls.take moment).map StatsCall.qtBytes).sum) ∧
    ∀ place limit, calls[place]? = some (.addLimitObserver limit) →
      (∀ moment, s.calledAt calls moment = some place ↔
        s.FirstReached calls place limit moment ∧ ¬ s.Replaced calls place moment) ∧
      (∀ moment moment', s.calledAt calls moment = some place →
        s.calledAt calls moment' = some place → moment = moment') ∧
      ((∃ moment, place ≤ moment ∧ limit ≤ s.bytesAt calls (moment + 1)) →
        ∃ first, s.FirstReached calls place limit first ∧
          (¬ s.Replaced calls place first → s.calledAt calls first = some place)) := by
  refine ⟨atMoment_bytesDownloaded s calls, fun place limit hplace => ⟨fun moment =>
    calledAt_iff hs hplace, fun moment moment' h h' => ?_, fun hreached => ?_⟩⟩
  · exact firstReached_unique ((calledAt_iff hs hplace).mp h).1 ((calledAt_iff hs hplace).mp h').1
  · obtain ⟨moment, hsince, hle⟩ := hreached
    obtain ⟨first, hfirst⟩ := exists_firstReached hsince hle
    exact ⟨first, hfirst, fun hkept => (calledAt_iff hs hplace).mpr ⟨hfirst, hkept⟩⟩

/-! ### Two successions of one chunk -/

/-- The record of a chunk that has just begun. -/
def begun : ChunkDownloadStats Nat :=
  { chunkFileName := "0_99_a.sdownload", range := ⟨0, some 99⟩, fileSize := some 100,
    status := .downloading }

/-- It is to be cut behind its tenth byte, then behind its twentieth, and 25 bytes come. -/
def cutTwice : List StatsCall :=
  [.addLimitObserver 10, .addLimitObserver 20, .addQtBytesDownloaded 25]

theorem begun_firstReached {place : Nat} {limit : Int} (hsince : place ≤ 2) (hlimit : 0 < limit)
    (hreached : limit ≤ 25) : begun.FirstReached cutTwice place limit 2 := by
  refine ⟨hsince, hreached, fun u _ hu => ?_⟩
  have hzero : begun.bytesAt cutTwice (u + 1) = 0 :=
    match u, hu with
    | 0, _ => rfl
    | 1, _ => rfl
  rw [hzero]
  exact hlimit

/-- The second observer is called by the call that reaches both limits, and not before. -/
theorem limit_observers_called_cutTwice :
    begun.calledAt cutTwice 2 = some 1 ∧ begun.calledAt cutTwice 1 ≠ some 1 := by
  have hcalled := ((limit_observers_called (s := begun) rfl cutTwice).2 1 20 rfl).1
  have hkept : ¬ begun.Replaced cutTwice 1 2 := fun ⟨j, _, hj, hlt, _⟩ =>
    absurd hj (Nat.not_lt.mpr (Nat.le_of_lt_succ hlt))
  refine ⟨(hcalled 2).mpr ⟨begun_firstReached ?_ ?_ ?_, hkept⟩, fun h => ?_⟩
  · decide
  · decide
  · decide
  · exact absurd ((hcalled 1).mp h).1.reached (by decide)

/-- **The first observer is forgotten.** Both limits are reached, and only the second callback is
called. -/
theorem limit_observer_forgotten :
    ¬ ∀ place limit, cutTwice[place]? = some (.addLimitObserver limit) →
      ∀ moment, begun.calledAt cutTwice moment = some place ↔
        begun.FirstReached cutTwice place limit moment := by
  intro h
  have hcalled : begun.calledAt cutTwice 2 = some 0 :=
    (h 0 10 rfl 2).mpr (begun_firstReached (by decide) (by decide) (by decide))
  exact absurd hcalled (by decide)

end ChunkDownloadStats

end SDownload
