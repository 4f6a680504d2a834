import Mathlib.Algebra.Order.Field.Basic
import Mathlib.Tactic.Linarith
import Mathlib.Tactic.Ring
import SDownload.Throttling.Throttler

/-!
# SDownload.Throttling.TokenBucket

`TokenBucketThrottler`: tokens come in at the speed that is asked for, up to a capacity,
and a check pays for the bytes since the last one. A check that cannot pay sleeps until
the tokens would have come in.

What has been handed on is at most the first filling and what has come in since, less the
tokens that are left, and the bytes that no check has paid for yet (`Paced`). Tokens that
the capacity cuts off only lower that bound.
-/

namespace SDownload

/-- `TokenBucketThrottler.__init__`. -/
structure TokenBucketThrottler where
  burstSeconds : ℚ := 1
  minChunkSize : Int := 32768
  maxSleepSeconds : ℚ := 1
  deriving DecidableEq

namespace TokenBucketThrottler

/-- The local variables of `wrap`. -/
structure Locals where
  lastCheck : ℚ
  tokens : ℚ
  accumulatedSinceCheck : Nat
  lastTarget : Option ℚ
  deriving DecidableEq

variable (th : TokenBucketThrottler)

/-- The local variables when `wrap` begins. -/
def start (clock : ℚ) (_target : Option ℚ) : Locals where
  lastCheck := clock
  tokens := 0
  accumulatedSinceCheck := 0
  lastTarget := none

/-- `if target != last_target`. -/
def retarget (l : Locals) (target clock : ℚ) : Locals :=
  if some target ≠ l.lastTarget then
    { lastCheck := clock
      tokens := target * th.burstSeconds
      accumulatedSinceCheck := 0
      lastTarget := some target }
  else l

/-- `threshold`. -/
def threshold (target : ℚ) : ℚ := max (th.minChunkSize : ℚ) (target * (5 / 100))

/-- From `if accumulated_since_check < threshold` on. -/
def check (l : Locals) (target clock : ℚ) : Resumption Locals :=
  if (l.accumulatedSinceCheck : ℚ) < th.threshold target then .next l
  else
    let elapsed := clock - l.lastCheck
    let capacity := target * th.burstSeconds
    let tokens := l.tokens + elapsed * target
    let tokens := if capacity < tokens then capacity else tokens
    let tokens := tokens - l.accumulatedSinceCheck
    if tokens < 0 then
      if target = 0 then .zeroDivision
      else
        let waitTime := |tokens| / target
        .sleep waitTime (min waitTime th.maxSleepSeconds) fun woken =>
          { l with lastCheck := woken, tokens := 0, accumulatedSinceCheck := 0 }
    else .next { l with lastCheck := clock, tokens, accumulatedSinceCheck := 0 }

/-- What `wrap` does with a piece of that size once it has been taken. -/
def resume (l : Locals) (size : Nat) (reading : Reading) : Resumption Locals :=
  match reading.target with
  | none => .next l
  | some target =>
      let l := th.retarget l target reading.changed
      th.check { l with accumulatedSinceCheck := l.accumulatedSinceCheck + size } target
        reading.checked

/-- `TokenBucketThrottler.wrap`. -/
def throttler : Throttler Locals where
  start := start
  resume := th.resume

variable {th} {r t₀ total now : ℚ} {l : Locals}

theorem lastTarget_retarget (l : Locals) (target clock : ℚ) :
    (th.retarget l target clock).lastTarget = some target := by
  unfold retarget
  split
  · rfl
  · rename_i hsame
    exact (not_not.mp hsame).symm

/-! ### Where it divides by zero -/

/-- The total length of the pieces since the speed became 0, after each piece at that speed. A
piece while there is no limit counts for nothing, and ends nothing. -/
def bytesAtZero (since : Nat) : List Turn → List Nat
  | [] => []
  | turn :: turns =>
      match turn.reading.target with
      | none => bytesAtZero since turns
      | some target =>
          if target = 0 then
            (since + turn.data.length) :: bytesAtZero (since + turn.data.length) turns
          else bytesAtZero 0 turns

/-- So many bytes at a speed of 0 do not lead to a division. -/
def Harmless (th : TokenBucketThrottler) (n : Nat) : Prop := n = 0 ∨ (n : Int) < th.minChunkSize

instance (th : TokenBucketThrottler) (n : Nat) : Decidable (th.Harmless n) :=
  inferInstanceAs (Decidable (_ ∨ _))

/-- A check of a speed that is not 0 raises nothing. -/
theorem check_of_ne_zero {target : ℚ} (htarget : target ≠ 0) (l : Locals) (clock woken : ℚ) :
    ∃ l', (th.check l target clock).locals woken = some l' ∧ l'.lastTarget = l.lastTarget := by
  unfold check
  split
  · exact ⟨_, rfl, rfl⟩
  · dsimp only
    generalize (if target * th.burstSeconds < l.tokens + (clock - l.lastCheck) * target then
      target * th.burstSeconds else l.tokens + (clock - l.lastCheck) * target) = tokens
    split
    · exact ⟨_, rfl, rfl⟩
    · exact ⟨_, rfl, rfl⟩

/-- A check of the speed 0, with no tokens: it cannot pay for anything. -/
theorem check_zero (htokens : l.tokens = 0) (clock woken : ℚ) :
    if th.Harmless l.accumulatedSinceCheck then
      ∃ l', (th.check l 0 clock).locals woken = some l' ∧ l'.lastTarget = l.lastTarget ∧
        l'.tokens = 0 ∧ l'.accumulatedSinceCheck = l.accumulatedSinceCheck
    else th.check l 0 clock = .zeroDivision := by
  have hsize : (0 : ℚ) ≤ l.accumulatedSinceCheck := Nat.cast_nonneg _
  have hthreshold : th.threshold 0 = max (th.minChunkSize : ℚ) 0 := by
    rw [threshold, zero_mul]
  unfold check
  by_cases hopen : (l.accumulatedSinceCheck : ℚ) < th.threshold 0
  · have hharmless : th.Harmless l.accumulatedSinceCheck := by
      rw [hthreshold] at hopen
      have hlt := (lt_max_iff.mp hopen).resolve_right (not_lt.mpr hsize)
      exact Or.inr (by exact_mod_cast hlt)
    rw [if_pos hharmless, if_pos hopen]
    exact ⟨_, rfl, rfl, htokens, rfl⟩
  · have hfull : ¬ (l.accumulatedSinceCheck : Int) < th.minChunkSize := by
      intro hlt
      refine hopen (hthreshold ▸ lt_max_of_lt_left ?_)
      exact_mod_cast hlt
    rw [if_neg hopen, htokens]
    simp only [mul_zero, zero_mul, add_zero, lt_self_iff_false, if_false, if_true, zero_sub,
      neg_neg_iff_pos]
    by_cases hnil : l.accumulatedSinceCheck = 0
    · have hharmless : th.Harmless l.accumulatedSinceCheck := Or.inl hnil
      rw [if_pos hharmless, hnil, if_neg (by simp)]
      exact ⟨_, rfl, rfl, by simp, rfl⟩
    · have hharmful : ¬ th.Harmless l.accumulatedSinceCheck := fun h => h.elim hnil hfull
      rw [if_neg hharmful, if_pos (by exact_mod_cast Nat.pos_of_ne_zero hnil)]

/-- **It divides by zero** exactly when bytes come in at a speed of 0, enough of them for a
check. -/
theorem unbroken_iff {turns : List Turn} {since : Nat}
    (hzero : l.lastTarget = some 0 → l.tokens = 0 ∧ l.accumulatedSinceCheck = since)
    (hother : l.lastTarget ≠ some 0 → since = 0) :
    th.throttler.Unbroken l turns ↔ ∀ n ∈ bytesAtZero since turns, th.Harmless n := by
  -- `since` is what has come in since the speed became 0
  induction turns generalizing l since with
  | nil => exact iff_of_true trivial fun _ h => absurd h List.not_mem_nil
  | cons turn turns ih =>
      unfold bytesAtZero
      have hresume : th.throttler.resume l turn.data.length turn.reading =
          th.resume l turn.data.length turn.reading := rfl
      cases htarget : turn.reading.target with
      | none =>
          simp only [resume, htarget] at hresume
          have hnext : (th.throttler.resume l turn.data.length turn.reading).locals
              turn.reading.woken = some l := by
            rw [hresume]
            rfl
          rw [Throttler.unbroken_cons hnext]
          exact ih hzero hother
      | some target =>
          simp only [resume, htarget] at hresume
          have hlast := @lastTarget_retarget th l target turn.reading.changed
          by_cases hstopped : target = 0
          · subst hstopped
            dsimp only
            rw [if_pos rfl, List.forall_mem_cons]
            have hnoted : (th.retarget l 0 turn.reading.changed).tokens = 0 ∧
                (th.retarget l 0 turn.reading.changed).accumulatedSinceCheck = since := by
              unfold retarget
              split
              · rename_i hnew
                exact ⟨zero_mul _, (hother (Ne.symm hnew)).symm⟩
              · rename_i hsame
                exact hzero (not_not.mp hsame).symm
            obtain ⟨htokens, hsince⟩ := hnoted
            have hcheck := @check_zero th
              { th.retarget l 0 turn.reading.changed with
                accumulatedSinceCheck :=
                  (th.retarget l 0 turn.reading.changed).accumulatedSinceCheck + turn.data.length }
              htokens turn.reading.checked turn.reading.woken
            rw [← hresume, hsince] at hcheck
            dsimp only at hcheck
            by_cases hharmless : th.Harmless (since + turn.data.length)
            · rw [if_pos hharmless] at hcheck
              obtain ⟨l', hnext, hlast', htokens', hsize⟩ := hcheck
              rw [Throttler.unbroken_cons hnext, ih (fun _ => ⟨htokens', hsize⟩)
                fun hne => absurd (hlast'.trans hlast) hne]
              exact (and_iff_right hharmless).symm
            · rw [if_neg hharmless] at hcheck
              exact iff_of_false (Throttler.not_unbroken_cons hcheck) fun h => hharmless h.1
          · -- at any other speed the check goes through, and the count starts again
            dsimp only
            rw [if_neg hstopped]
            obtain ⟨l', hnext, hlast'⟩ := @check_of_ne_zero th target hstopped
              { th.retarget l target turn.reading.changed with
                accumulatedSinceCheck :=
                  (th.retarget l target turn.reading.changed).accumulatedSinceCheck +
                    turn.data.length }
              turn.reading.checked turn.reading.woken
            rw [← hresume] at hnext
            have hne : l'.lastTarget ≠ some 0 := by
              rw [hlast', hlast]
              exact fun h => hstopped (Option.some.inj h)
            rw [Throttler.unbroken_cons hnext]
            exact ih (fun h => absurd h hne) fun _ => rfl

/-! ### The speed it keeps to -/

/-- The speed `r` has been noted, and what has been handed on was paid for, up to the bytes since
the last check. -/
structure Noted (th : TokenBucketThrottler) (r t₀ : ℚ) (l : Locals) (total : ℚ) : Prop where
  target : l.lastTarget = some r
  started : t₀ ≤ l.lastCheck
  tokens : 0 ≤ l.tokens
  within : total ≤
    r * th.burstSeconds + r * (l.lastCheck - t₀) - l.tokens + l.accumulatedSinceCheck

/-- And there are not too many of these. -/
structure Paced (th : TokenBucketThrottler) (r t₀ : ℚ) (l : Locals) (total now : ℚ) : Prop extends
    th.Noted r t₀ l total where
  checked : l.lastCheck ≤ now
  small : (l.accumulatedSinceCheck : ℚ) ≤ th.threshold r

/-- **A check** pays for the bytes since the last one, and sleeps as long as the tokens that are
missing take to come in. -/
theorem check_paced (hr : 0 < r) (hthreshold : 0 ≤ th.threshold r) {clock : ℚ}
    (h : th.Noted r t₀ l total) (hclock : l.lastCheck ≤ clock) :
    (th.check l r clock).Leads th.maxSleepSeconds clock fun l' now =>
      th.Paced r t₀ l' total now := by
  unfold check
  by_cases hopen : (l.accumulatedSinceCheck : ℚ) < th.threshold r
  · rw [if_pos hopen]
    exact ⟨h, hclock, hopen.le⟩
  · rw [if_neg hopen]
    dsimp only
    have hwithin := h.within
    have hstarted := h.started
    -- the capacity only takes tokens away
    have hcut : ∀ capacity tokens : ℚ,
        (if capacity < tokens then capacity else tokens) ≤ tokens := by
      intro capacity tokens
      split
      · rename_i hlt
        exact hlt.le
      · exact le_rfl
    have hle := hcut (r * th.burstSeconds) (l.tokens + (clock - l.lastCheck) * r)
    generalize (if r * th.burstSeconds < l.tokens + (clock - l.lastCheck) * r then
      r * th.burstSeconds else l.tokens + (clock - l.lastCheck) * r) = tokens at hle
    by_cases hdebt : tokens - l.accumulatedSinceCheck < 0
    · rw [if_pos hdebt, if_neg hr.ne']
      intro hwait woken hwoken hslept
      rw [min_eq_left hwait, abs_of_neg hdebt] at hslept
      have hpaid := mul_le_mul_of_nonneg_left hslept hr.le
      rw [mul_add, mul_div_cancel₀ _ hr.ne'] at hpaid
      refine ⟨⟨h.target, by linarith, le_rfl, ?_⟩, le_rfl, ?_⟩
      · push_cast
        linarith
      · simpa using hthreshold
    · rw [if_neg hdebt]
      refine ⟨⟨h.target, by linarith, not_lt.mp hdebt, ?_⟩, le_rfl, ?_⟩
      · push_cast
        linarith
      · simpa using hthreshold

/-- A piece more, at a speed that has been noted. -/
theorem Noted.more (h : th.Noted r t₀ l total) (size : Nat) :
    th.Noted r t₀ { l with accumulatedSinceCheck := l.accumulatedSinceCheck + size }
      (total + size) := by
  refine ⟨h.target, h.started, h.tokens, ?_⟩
  have hwithin := h.within
  push_cast
  linarith

/-- A turn at the speed that has been noted is a check of the piece. -/
theorem resume_of_noted {reading : Reading} (hnoted : l.lastTarget = some r)
    (htarget : reading.target = some r) (size : Nat) :
    th.resume l size reading =
      th.check { l with accumulatedSinceCheck := l.accumulatedSinceCheck + size } r
        reading.checked := by
  simp only [resume, htarget]
  rw [retarget, if_neg (not_not.mpr hnoted.symm)]

/-- The first turn notes the speed, and fills the bucket. -/
theorem resume_of_new {reading : Reading} (hnew : l.lastTarget = none)
    (htarget : reading.target = some r) (size : Nat) :
    th.resume l size reading =
      th.check ⟨reading.changed, r * th.burstSeconds, 0 + size, some r⟩ r reading.checked := by
  simp only [resume, htarget]
  rw [retarget, if_pos (by rw [hnew]; nofun)]

/-- **A turn keeps to the speed**: the first filling, the bytes of a check and a piece more than it
allows. -/
theorem Paced.keepsCurve (hr : 0 < r) (hthreshold : 0 ≤ th.threshold r) {p : Nat} {turn : Turn}
    (h : th.Paced r t₀ l total now) (htarget : turn.reading.target = some r)
    (hp : turn.data.length ≤ p) (hhanded : now ≤ turn.handed)
    (hchanged : turn.handed ≤ turn.reading.changed)
    (hchecked : turn.reading.changed ≤ turn.reading.checked) :
    th.throttler.KeepsCurve th.maxSleepSeconds
      (Throttler.rateCurve (r * th.burstSeconds + th.threshold r + p) r t₀) (th.Paced r t₀) l total
        turn := by
  have hlast := h.checked.trans hhanded
  constructor
  · have hpiece : (turn.data.length : ℚ) ≤ p := Nat.cast_le.mpr hp
    have hwithin := h.within
    have htokens := h.tokens
    have hsmall := h.small
    have hmul := mul_le_mul_of_nonneg_left (sub_le_sub_right hlast t₀) hr.le
    rw [Throttler.rateCurve_of_le (h.started.trans hlast)]
    linarith
  · show (th.resume l turn.data.length turn.reading).Leads _ _ _
    rw [resume_of_noted h.target htarget]
    exact check_paced hr hthreshold (h.more turn.data.length)
      ((hlast.trans hchanged).trans hchecked)

/-- The first turn does, too. -/
theorem keepsCurve_first (hr : 0 < r) (hburst : 0 ≤ th.burstSeconds)
    (hthreshold : 0 ≤ th.threshold r) {p : Nat} {first : Turn} (hnew : l.lastTarget = none)
    (htarget : first.reading.target = some r) (hp : first.data.length ≤ p)
    (hchecked : first.reading.changed ≤ first.reading.checked) :
    th.throttler.KeepsCurve th.maxSleepSeconds
      (Throttler.rateCurve (r * th.burstSeconds + th.threshold r + p) r first.reading.changed)
      (th.Paced r first.reading.changed) l 0 first := by
  have hfilling : 0 ≤ r * th.burstSeconds := mul_nonneg hr.le hburst
  constructor
  · have hpiece : (first.data.length : ℚ) ≤ p := Nat.cast_le.mpr hp
    refine le_trans ?_ (Throttler.le_rateCurve hr.le _ _)
    linarith
  · show (th.resume l first.data.length first.reading).Leads _ _ _
    rw [resume_of_new hnew htarget]
    refine check_paced hr hthreshold ⟨rfl, le_rfl, hfilling, ?_⟩ hchecked
    simp

end TokenBucketThrottler

/-- **The token bucket bounds the rate**: at any time after the first piece, a filling, the bytes of
a check and a piece more than the speed allows from there on. -/
theorem tokenBucket_rate (th : TokenBucketThrottler) {r : ℚ} (hr : 0 < r)
    (hburst : 0 ≤ th.burstSeconds) (hmin : 0 ≤ th.minChunkSize) (clock : ℚ) (target : Option ℚ)
    (first : Turn) (turns : List Turn)
    (htarget : ∀ turn ∈ first :: turns, turn.reading.target = some r) {p : Nat}
    (hp : ∀ turn ∈ first :: turns, turn.data.length ≤ p)
    (htime : th.throttler.OnTime th.maxSleepSeconds (th.throttler.start clock target) clock
      (first :: turns)) {t : ℚ} (ht : first.reading.changed ≤ t) :
    Throttler.handedBy (first :: turns) t ≤
      r * th.burstSeconds + r * (t - first.reading.changed) +
        max (th.minChunkSize : ℚ) (r / 20) + p := by
  have hthreshold : 0 ≤ th.threshold r := le_max_of_le_left (Int.cast_nonneg hmin)
  have hfilling : 0 ≤ r * th.burstSeconds := mul_nonneg hr.le hburst
  have hfirst := List.mem_cons_self (a := first) (l := turns)
  have hbound := Throttler.handedBy_le
    (add_nonneg (add_nonneg hfilling hthreshold) (Nat.cast_nonneg p)) hr.le
    (TokenBucketThrottler.keepsCurve_first hr hburst hthreshold rfl (htarget _ hfirst)
      (hp _ hfirst) htime.2.2.1)
    (fun hmem hpaced hhanded hchanged hchecked =>
      hpaced.keepsCurve hr hthreshold (htarget _ (List.mem_cons_of_mem _ hmem))
        (hp _ (List.mem_cons_of_mem _ hmem)) hhanded hchanged hchecked) htime ht
  have hshare : th.threshold r = max (th.minChunkSize : ℚ) (r / 20) := by
    rw [TokenBucketThrottler.threshold, show r * (5 / 100) = r / 20 by ring]
  rw [hshare] at hbound
  linarith

/-- Ten bytes a second, with no burst, and two pieces of four bytes. -/
theorem tokenBucket_rate_ten :
    let first : Turn := ⟨[1, 2, 3, 4], 0, ⟨some 10, 0, 0, 2 / 5⟩⟩
    let second : Turn := ⟨[5, 6, 7, 8], 1 / 2, ⟨some 10, 1 / 2, 1 / 2, 9 / 10⟩⟩
    Throttler.handedBy [first, second] (3 / 5) ≤
      10 * 0 + 10 * (3 / 5 - 0) + max ((0 : Int) : ℚ) (10 / 20) + (4 : Nat) := by
  intro first second
  refine tokenBucket_rate ⟨0, 0, 10⟩ (by norm_num) le_rfl le_rfl 0 none first [second] ?_ ?_ ?_ ?_
  · intro turn hturn
    rcases List.mem_cons.mp hturn with rfl | hturn
    · rfl
    · rw [List.mem_singleton.mp hturn]
  · intro turn hturn
    rcases List.mem_cons.mp hturn with rfl | hturn
    · exact le_rfl
    · rw [List.mem_singleton.mp hturn]
      exact le_rfl
  · simp only [Throttler.OnTime, TokenBucketThrottler.throttler]
    rw [TokenBucketThrottler.resume_of_new rfl rfl]
    norm_num [TokenBucketThrottler.check, TokenBucketThrottler.threshold, first, second]
    rw [TokenBucketThrottler.resume_of_noted rfl rfl]
    norm_num [TokenBucketThrottler.check, TokenBucketThrottler.threshold, first, second]
  · norm_num [first]

end SDownload
