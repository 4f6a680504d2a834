import Mathlib.Algebra.Order.Field.Basic
import Mathlib.Tactic.Linarith
import SDownload.Throttling.Throttler

/-!
# SDownload.Throttling.FixedWindow

`FixedWindowThrottler`: when enough bytes have come since the last check, it sleeps for
what is left of the time they should have taken.

A window starts at a reading of the clock, `lastCheck`. What has been handed on since the
first window started is at most what the speed allows up to the start of this one, and the
bytes of this one (`Paced`); a window ends no earlier than its bytes should have taken, so
the next one starts with that again.
-/

namespace SDownload

/-- `FixedWindowThrottler.__init__`. -/
structure FixedWindowThrottler where
  intervalS : ℚ := 200 / 1000
  minChunkSize : Int := 32768
  maxSleepSeconds : ℚ := 1
  deriving DecidableEq

namespace FixedWindowThrottler

/-- The local variables of `wrap`. -/
structure Locals where
  lastCheck : ℚ
  accumulated : Nat
  lastTarget : Option ℚ
  byteThreshold : ℚ
  deriving DecidableEq

variable (th : FixedWindowThrottler)

/-- `calc_threshold`. -/
def calcThreshold (target : Option ℚ) : ℚ :=
  match target with
  | none => 0
  | some target => if target = 0 then 0 else max (th.minChunkSize : ℚ) (target * th.intervalS)

/-- The local variables when `wrap` begins. -/
def start (clock : ℚ) (target : Option ℚ) : Locals where
  lastCheck := clock
  accumulated := 0
  lastTarget := none
  byteThreshold := th.calcThreshold target

/-- `if target != last_target`. -/
def retarget (l : Locals) (target clock : ℚ) : Locals :=
  if some target ≠ l.lastTarget then
    { lastCheck := clock
      accumulated := 0
      lastTarget := some target
      byteThreshold := th.calcThreshold (some target) }
  else l

/-- From `if accumulated >= byte_threshold` on. -/
def check (l : Locals) (target clock : ℚ) : Resumption Locals :=
  if (l.accumulated : ℚ) < l.byteThreshold then .next l
  else if target = 0 then .zeroDivision
  else
    let elapsed := clock - l.lastCheck
    let expected := l.accumulated / target
    let l := { l with accumulated := 0, byteThreshold := th.calcThreshold (some target) }
    if elapsed < expected then
      .sleep (expected - elapsed) (min (expected - elapsed) th.maxSleepSeconds) fun woken =>
        { l with lastCheck := woken }
    else .next { l with lastCheck := clock }

/-- What `wrap` does with a piece of that size once it has been taken. -/
def resume (l : Locals) (size : Nat) (reading : Reading) : Resumption Locals :=
  match reading.target with
  | none => .next l
  | some target =>
      let l := th.retarget l target reading.changed
      th.check { l with accumulated := l.accumulated + size } target reading.checked

/-- `FixedWindowThrottler.wrap`. -/
def throttler : Throttler Locals where
  start := th.start
  resume := th.resume

variable {th} {r t₀ total now : ℚ} {l : Locals}

theorem lastTarget_retarget (l : Locals) (target clock : ℚ) :
    (th.retarget l target clock).lastTarget = some target := by
  unfold retarget
  split
  · rfl
  · rename_i hsame
    exact (not_not.mp hsame).symm

/-! ### Where it divides by zero -/

/-- A check of a speed that is not 0 raises nothing. -/
theorem check_of_ne_zero {target : ℚ} (htarget : target ≠ 0) (l : Locals) (clock woken : ℚ) :
    ∃ l', (th.check l target clock).locals woken = some l' ∧ l'.lastTarget = l.lastTarget := by
  unfold check
  split
  · exact ⟨_, rfl, rfl⟩
  · dsimp only
    split
    · exact ⟨_, rfl, rfl⟩
    · exact ⟨_, rfl, rfl⟩

/-- The first piece at a speed of 0 is checked at once. -/
theorem resume_zero {reading : Reading} (hlast : l.lastTarget ≠ some 0)
    (htarget : reading.target = some 0) (size : Nat) :
    th.resume l size reading = .zeroDivision := by
  simp only [resume, htarget]
  rw [retarget, if_pos (Ne.symm hlast), check, if_neg, if_pos rfl]
  simp [calcThreshold]

/-- **It divides by zero** exactly at a speed of 0. -/
theorem unbroken_iff {turns : List Turn} (hlast : l.lastTarget ≠ some 0) :
    th.throttler.Unbroken l turns ↔ ∀ turn ∈ turns, turn.reading.target ≠ some 0 := by
  induction turns generalizing l with
  | nil => exact iff_of_true trivial fun _ h => absurd h List.not_mem_nil
  | cons turn turns ih =>
      rw [List.forall_mem_cons]
      cases htarget : turn.reading.target with
      | none =>
          have hnext : (th.throttler.resume l turn.data.length turn.reading).locals
              turn.reading.woken = some l := by
            show (th.resume l turn.data.length turn.reading).locals _ = _
            simp only [resume, htarget]
            rfl
          rw [Throttler.unbroken_cons hnext, ih hlast]
          exact (and_iff_right nofun).symm
      | some target =>
          by_cases hzero : target = 0
          · subst hzero
            exact iff_of_false (Throttler.not_unbroken_cons (resume_zero hlast htarget _))
              fun h => h.1 rfl
          · obtain ⟨l', hnext, hlast'⟩ := @check_of_ne_zero th target hzero
              { th.retarget l target turn.reading.changed with
                accumulated :=
                  (th.retarget l target turn.reading.changed).accumulated + turn.data.length }
              turn.reading.checked turn.reading.woken
            have hresume : (th.throttler.resume l turn.data.length turn.reading).locals
                turn.reading.woken = some l' := by
              show (th.resume l turn.data.length turn.reading).locals _ = _
              simp only [resume, htarget]
              exact hnext
            have hkept : l'.lastTarget = some target :=
              hlast'.trans (lastTarget_retarget l target turn.reading.changed)
            have hne : some target ≠ some (0 : ℚ) := fun h => hzero (Option.some.inj h)
            rw [Throttler.unbroken_cons hresume, ih (hkept ▸ hne)]
            exact (and_iff_right hne).symm

/-! ### The speed it keeps to -/

/-- What a window may hold before it is checked. -/
def window (th : FixedWindowThrottler) (r : ℚ) : ℚ := max (th.minChunkSize : ℚ) (r * th.intervalS)

theorem calcThreshold_of_pos (hr : 0 < r) : th.calcThreshold (some r) = th.window r :=
  if_neg hr.ne'

/-- The speed `r` has been noted, and up to the start of this window it has been kept to. -/
structure Noted (th : FixedWindowThrottler) (r t₀ : ℚ) (l : Locals) (total : ℚ) : Prop where
  target : l.lastTarget = some r
  threshold : l.byteThreshold = th.window r
  started : t₀ ≤ l.lastCheck
  within : total ≤ r * (l.lastCheck - t₀) + l.accumulated

/-- And this window is not full yet. -/
structure Paced (th : FixedWindowThrottler) (r t₀ : ℚ) (l : Locals) (total now : ℚ) : Prop extends
    th.Noted r t₀ l total where
  checked : l.lastCheck ≤ now
  small : (l.accumulated : ℚ) ≤ th.window r

/-- **A check** closes a window that is full, no earlier than its bytes should have taken. -/
theorem check_paced (hr : 0 < r) (hwindow : 0 ≤ th.window r) {clock : ℚ}
    (h : th.Noted r t₀ l total) (hclock : l.lastCheck ≤ clock) :
    (th.check l r clock).Leads th.maxSleepSeconds clock fun l' now =>
      th.Paced r t₀ l' total now := by
  unfold check
  rw [h.threshold]
  by_cases hopen : (l.accumulated : ℚ) < th.window r
  · rw [if_pos hopen]
    exact ⟨h, hclock, hopen.le⟩
  · rw [if_neg hopen, if_neg hr.ne', calcThreshold_of_pos hr]
    dsimp only
    -- the window may end where its bytes should have ended
    have hbytes : r * (l.accumulated / r) = (l.accumulated : ℚ) := mul_div_cancel₀ _ hr.ne'
    have hends : ∀ {next : ℚ}, l.lastCheck + l.accumulated / r ≤ next →
        total ≤ r * (next - t₀) := by
      intro next hle
      have hmul := mul_le_mul_of_nonneg_left hle hr.le
      have hwithin := h.within
      linarith
    have hstarted := h.started
    by_cases hfast : clock - l.lastCheck < l.accumulated / r
    · rw [if_pos hfast]
      intro hwait woken hwoken hslept
      rw [min_eq_left hwait] at hslept
      refine ⟨⟨h.target, rfl, by linarith, ?_⟩, le_rfl, ?_⟩
      · simpa using hends (by linarith)
      · simpa using hwindow
    · rw [if_neg hfast]
      refine ⟨⟨h.target, rfl, by linarith, ?_⟩, le_rfl, ?_⟩
      · simpa using hends (by linarith)
      · simpa using hwindow

/-- A piece more, at a speed that has been noted. -/
theorem Noted.more (h : th.Noted r t₀ l total) (size : Nat) :
    th.Noted r t₀ { l with accumulated := l.accumulated + size } (total + size) := by
  refine ⟨h.target, h.threshold, h.started, ?_⟩
  have hwithin := h.within
  push_cast
  linarith

/-- A turn at the speed that has been noted is a check of the piece. -/
theorem resume_of_noted {reading : Reading} (hnoted : l.lastTarget = some r)
    (htarget : reading.target = some r) (size : Nat) :
    th.resume l size reading =
      th.check { l with accumulated := l.accumulated + size } r reading.checked := by
  simp only [resume, htarget]
  rw [retarget, if_neg (not_not.mpr hnoted.symm)]

/-- The first turn notes the speed, and starts the first window there. -/
theorem resume_of_new {reading : Reading} (hnew : l.lastTarget = none)
    (htarget : reading.target = some r) (size : Nat) :
    th.resume l size reading =
      th.check ⟨reading.changed, 0 + size, some r, th.calcThreshold (some r)⟩ r
        reading.checked := by
  simp only [resume, htarget]
  rw [retarget, if_pos (by rw [hnew]; nofun)]

/-- **A turn keeps to the speed**: a window and a piece more than it allows. -/
theorem Paced.keepsCurve (hr : 0 < r) (hwindow : 0 ≤ th.window r) {p : Nat} {turn : Turn}
    (h : th.Paced r t₀ l total now) (htarget : turn.reading.target = some r)
    (hp : turn.data.length ≤ p) (hhanded : now ≤ turn.handed)
    (hchanged : turn.handed ≤ turn.reading.changed)
    (hchecked : turn.reading.changed ≤ turn.reading.checked) :
    th.throttler.KeepsCurve th.maxSleepSeconds
      (Throttler.rateCurve (th.window r + p) r t₀) (th.Paced r t₀) l total turn := by
  have hlast := h.checked.trans hhanded
  constructor
  · have hpiece : (turn.data.length : ℚ) ≤ p := Nat.cast_le.mpr hp
    have hwithin := h.within
    have hsmall := h.small
    have hmul := mul_le_mul_of_nonneg_left (sub_le_sub_right hlast t₀) hr.le
    rw [Throttler.rateCurve_of_le (h.started.trans hlast)]
    linarith
  · show (th.resume l turn.data.length turn.reading).Leads _ _ _
    rw [resume_of_noted h.target htarget]
    exact check_paced hr hwindow (h.more turn.data.length)
      ((hlast.trans hchanged).trans hchecked)

/-- The first turn does, too. -/
theorem keepsCurve_first (hr : 0 < r) (hwindow : 0 ≤ th.window r) {p : Nat} {first : Turn}
    (hnew : l.lastTarget = none) (htarget : first.reading.target = some r)
    (hp : first.data.length ≤ p) (hchecked : first.reading.changed ≤ first.reading.checked) :
    th.throttler.KeepsCurve th.maxSleepSeconds
      (Throttler.rateCurve (th.window r + p) r first.reading.changed)
      (th.Paced r first.reading.changed) l 0 first := by
  constructor
  · have hpiece : (first.data.length : ℚ) ≤ p := Nat.cast_le.mpr hp
    refine le_trans ?_ (Throttler.le_rateCurve hr.le _ _)
    linarith
  · show (th.resume l first.data.length first.reading).Leads _ _ _
    rw [resume_of_new hnew htarget]
    refine check_paced hr hwindow ⟨rfl, calcThreshold_of_pos hr, le_rfl, ?_⟩ hchecked
    simp

end FixedWindowThrottler

/-- **The fixed window bounds the rate**: at any time after the first piece, a window and a piece
more than the speed allows from there on. -/
theorem fixedWindow_rate (th : FixedWindowThrottler) {r : ℚ} (hr : 0 < r)
    (hmin : 0 ≤ th.minChunkSize) (clock : ℚ) (target : Option ℚ) (first : Turn) (turns : List Turn)
    (htarget : ∀ turn ∈ first :: turns, turn.reading.target = some r) {p : Nat}
    (hp : ∀ turn ∈ first :: turns, turn.data.length ≤ p)
    (htime : th.throttler.OnTime th.maxSleepSeconds (th.throttler.start clock target) clock
      (first :: turns)) {t : ℚ} (ht : first.reading.changed ≤ t) :
    Throttler.handedBy (first :: turns) t ≤
      r * (t - first.reading.changed) + max (th.minChunkSize : ℚ) (r * th.intervalS) + p := by
  have hwindow : 0 ≤ th.window r := le_max_of_le_left (Int.cast_nonneg hmin)
  have hfirst := List.mem_cons_self (a := first) (l := turns)
  have hbound := Throttler.handedBy_le (add_nonneg hwindow (Nat.cast_nonneg p)) hr.le
    (FixedWindowThrottler.keepsCurve_first hr hwindow rfl (htarget _ hfirst) (hp _ hfirst)
      htime.2.2.1)
    (fun hmem hpaced hhanded hchanged hchecked =>
      hpaced.keepsCurve hr hwindow (htarget _ (List.mem_cons_of_mem _ hmem))
        (hp _ (List.mem_cons_of_mem _ hmem)) hhanded hchanged hchecked) htime ht
  unfold FixedWindowThrottler.window at hbound
  linarith

/-- Ten bytes a second, and two pieces of four bytes. -/
theorem fixedWindow_rate_ten :
    let first : Turn := ⟨[1, 2, 3, 4], 0, ⟨some 10, 0, 0, 2 / 5⟩⟩
    let second : Turn := ⟨[5, 6, 7, 8], 1 / 2, ⟨some 10, 1 / 2, 1 / 2, 4 / 5⟩⟩
    Throttler.handedBy [first, second] (3 / 5) ≤
      10 * (3 / 5 - 0) + max ((0 : Int) : ℚ) (10 * (1 / 5)) + (4 : Nat) := by
  intro first second
  refine fixedWindow_rate ⟨1 / 5, 0, 10⟩ (by norm_num) le_rfl 0 none first [second] ?_ ?_ ?_ ?_
  · intro turn hturn
    rcases List.mem_cons.mp hturn with rfl | hturn
    · rfl
    · rw [List.mem_singleton.mp hturn]
  · intro turn hturn
    rcases List.mem_cons.mp hturn with rfl | hturn
    · exact le_rfl
    · rw [List.mem_singleton.mp hturn]
      exact le_rfl
  · simp only [Throttler.OnTime, FixedWindowThrottler.throttler]
    rw [FixedWindowThrottler.resume_of_new rfl rfl]
    norm_num [FixedWindowThrottler.check, FixedWindowThrottler.calcThreshold, first, second]
    rw [FixedWindowThrottler.resume_of_noted rfl rfl]
    norm_num [FixedWindowThrottler.check, FixedWindowThrottler.calcThreshold, first, second]
  · norm_num [first]

end SDownload
