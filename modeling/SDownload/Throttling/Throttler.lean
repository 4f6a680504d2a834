import Mathlib.Data.Rat.Cast.Order
import SDownload.Lib.Arrivals
import SDownload.Models.Stats
import SDownload.Storage.Merge

/-!
# SDownload.Throttling.Throttler

`ThrottlerProtocol`: an asynchronous generator that hands on the pieces of another one.

`wrap` counts a piece, yields it, and is resumed when the consumer asks for the next one.
It then reads the speed that is asked for, and perhaps the clock, and may sleep before it
asks for a piece itself. A `Throttler` is that part of the generator, from one `yield` to
the next, as a function of its local variables and of what it reads.

Speeds and times are rational numbers, where Python computes with floats. What is left out
by that is the rounding, and the `OverflowError` of an `int` speed of `2 ** 1024` or more,
which no float can hold.
-/

namespace SDownload

/-- What a throttler reads after a piece: the speed that is asked for, and the clock when it notes
a new speed, when it checks the speed, and when it has slept. -/
structure Reading where
  target : Option ℚ
  changed : ℚ
  checked : ℚ
  woken : ℚ
  deriving DecidableEq

/-- A piece, when it is handed to the consumer, and what is read after that. -/
structure Turn where
  data : Bytes
  handed : ℚ
  reading : Reading
  deriving DecidableEq

/-- What a throttler does before it asks for the next piece. `wait` is the time it has computed and
`seconds` the time it sleeps. -/
inductive Resumption (σ : Type)
  | next (locals : σ)
  | sleep (wait seconds : ℚ) (wake : ℚ → σ)
  | zeroDivision

/-- The local variables with which the next piece is asked for. -/
def Resumption.locals {σ : Type} (woken : ℚ) : Resumption σ → Option σ
  | .next l => some l
  | .sleep _ _ wake => some (wake woken)
  | .zeroDivision => none

/-- Whenever the next piece is asked for, `inv` holds of the local variables and of that instant,
when the speed is checked at `checked`, no wait exceeds `maxSleepSeconds`, and a sleep lasts at
least as long as was asked for. -/
def Resumption.Leads {σ : Type} (maxSleepSeconds checked : ℚ) (inv : σ → ℚ → Prop) :
    Resumption σ → Prop
  | .next l => inv l checked
  | .sleep wait seconds wake =>
      wait ≤ maxSleepSeconds → ∀ woken, checked ≤ woken → checked + seconds ≤ woken →
        inv (wake woken) woken
  | .zeroDivision => False

/-- `ThrottlerProtocol`, over the local variables of its `wrap`. -/
structure Throttler (σ : Type) where
  start : ℚ → Option ℚ → σ
  resume : σ → Nat → Reading → Resumption σ

variable {σ κ : Type}

/-! ### `wrap` -/

/-- What becomes of a `wrap`: the pieces it has yielded, the record it counts in, and whether it has
raised an exception of its own. -/
structure Wrapped (κ : Type) where
  yielded : List Bytes
  stats : ChunkDownloadStats κ
  raised : Bool
  deriving DecidableEq

namespace Throttler

variable (throttler : Throttler σ)

/-- `wrap` over these pieces, from the `async for` on. -/
def wrapFrom : σ → ChunkDownloadStats κ → List Turn → Wrapped κ
  | _, stats, [] => ⟨[], stats, false⟩
  | l, stats, turn :: turns =>
      let (stats, _) := stats.addQtBytesDownloaded turn.data.length
      match (throttler.resume l turn.data.length turn.reading).locals turn.reading.woken with
      | some l =>
          let rest := wrapFrom l stats turns
          { rest with yielded := turn.data :: rest.yielded }
      | none => ⟨[turn.data], stats, true⟩

/-- `wrap`, begun when the clock shows `clock` and the speed asked for is `target`. -/
def wrap (clock : ℚ) (target : Option ℚ) (stats : ChunkDownloadStats κ) (turns : List Turn) :
    Wrapped κ :=
  throttler.wrapFrom (throttler.start clock target) stats turns

/-- The pieces are handed on in order and counted, and nothing else happens. -/
def Transparent (clock : ℚ) (target : Option ℚ) (stats : ChunkDownloadStats κ)
    (turns : List Turn) : Prop :=
  let wrapped := throttler.wrap clock target stats turns
  wrapped.yielded = turns.map Turn.data ∧ wrapped.raised = false ∧
    wrapped.stats.bytesDownloaded =
      stats.bytesDownloaded + ((turns.map fun turn => (turn.data.length : Int)).sum)

/-- No turn ends in a division by zero. -/
def Unbroken : σ → List Turn → Prop
  | _, [] => True
  | l, turn :: turns =>
      ∃ l', (throttler.resume l turn.data.length turn.reading).locals turn.reading.woken =
        some l' ∧ Unbroken l' turns

variable {throttler}

theorem bytesDownloaded_addQtBytesDownloaded (stats : ChunkDownloadStats κ) (n : Int) :
    (stats.addQtBytesDownloaded n).1.bytesDownloaded = stats.bytesDownloaded + n := by
  unfold ChunkDownloadStats.addQtBytesDownloaded
  dsimp only
  split
  · split <;> rfl
  · rfl

/-- Where nothing breaks, every piece is yielded and counted; and otherwise `wrap` raises. -/
theorem wrapFrom_spec (l : σ) (stats : ChunkDownloadStats κ) (turns : List Turn) :
    ((throttler.wrapFrom l stats turns).raised = false ↔ throttler.Unbroken l turns) ∧
      (throttler.Unbroken l turns →
        (throttler.wrapFrom l stats turns).yielded = turns.map Turn.data ∧
          (throttler.wrapFrom l stats turns).stats.bytesDownloaded =
            stats.bytesDownloaded + ((turns.map fun turn => (turn.data.length : Int)).sum)) := by
  induction turns generalizing l stats with
  | nil => exact ⟨iff_of_true rfl trivial, fun _ => ⟨rfl, (add_zero _).symm⟩⟩
  | cons turn turns ih =>
      have hcount := bytesDownloaded_addQtBytesDownloaded stats turn.data.length
      unfold wrapFrom Unbroken
      dsimp only
      cases hnext : (throttler.resume l turn.data.length turn.reading).locals
          turn.reading.woken with
      | none => simp
      | some l' =>
          obtain ⟨hraised, hall⟩ := ih l' (stats.addQtBytesDownloaded turn.data.length).1
          refine ⟨?_, ?_⟩
          · simpa using hraised
          · rintro ⟨l'', hl, hrest⟩
            obtain rfl := Option.some.inj hl
            obtain ⟨hyielded, hbytes⟩ := hall hrest
            refine ⟨?_, ?_⟩
            · rw [List.map_cons, ← hyielded]
            · rw [List.map_cons, List.sum_cons, ← add_assoc, ← hcount, ← hbytes]

/-- **A throttler is transparent** exactly when it raises nothing of its own. -/
theorem transparent_iff {clock : ℚ} {target : Option ℚ} {stats : ChunkDownloadStats κ}
    {turns : List Turn} : throttler.Transparent clock target stats turns ↔
      throttler.Unbroken (throttler.start clock target) turns := by
  obtain ⟨hraised, hall⟩ :=
    @wrapFrom_spec σ κ throttler (throttler.start clock target) stats turns
  constructor
  · intro ⟨_, h, _⟩
    exact hraised.mp h
  · intro h
    obtain ⟨hyielded, hbytes⟩ := hall h
    exact ⟨hyielded, hraised.mpr h, hbytes⟩

theorem unbroken_cons {l l' : σ} {turn : Turn} {turns : List Turn}
    (h : (throttler.resume l turn.data.length turn.reading).locals turn.reading.woken = some l') :
    throttler.Unbroken l (turn :: turns) ↔ throttler.Unbroken l' turns := by
  constructor
  · rintro ⟨l'', hl, hrest⟩
    obtain rfl := Option.some.inj (h.symm.trans hl)
    exact hrest
  · exact fun hrest => ⟨l', h, hrest⟩

theorem not_unbroken_cons {l : σ} {turn : Turn} {turns : List Turn}
    (h : throttler.resume l turn.data.length turn.reading = .zeroDivision) :
    ¬ throttler.Unbroken l (turn :: turns) := by
  rintro ⟨l', hl, -⟩
  rw [h] at hl
  cases hl

/-! ### Runs in time -/

/-- The clock does not run backwards, a sleep lasts at least as long as was asked for, and no wait
that is computed exceeds `maxSleepSeconds`. -/
def OnTime (throttler : Throttler σ) (maxSleepSeconds : ℚ) : σ → ℚ → List Turn → Prop
  | _, _, [] => True
  | l, now, turn :: turns =>
      now ≤ turn.handed ∧ turn.handed ≤ turn.reading.changed ∧
        turn.reading.changed ≤ turn.reading.checked ∧
        match throttler.resume l turn.data.length turn.reading with
        | .next l' => throttler.OnTime maxSleepSeconds l' turn.reading.checked turns
        | .sleep wait seconds wake =>
            wait ≤ maxSleepSeconds ∧ turn.reading.checked ≤ turn.reading.woken ∧
              turn.reading.checked + seconds ≤ turn.reading.woken ∧
              throttler.OnTime maxSleepSeconds (wake turn.reading.woken) turn.reading.woken turns
        | .zeroDivision => True

/-- How many bytes have been handed to the consumer by `t`. -/
def handedBy (turns : List Turn) (t : ℚ) : ℚ :=
  arrivedBy (turns.map fun turn => (turn.handed, (turn.data.length : ℚ))) t

/-- `burst` at once, and `rate` from `t₀` on. -/
def rateCurve (burst rate t₀ t : ℚ) : ℚ := burst + rate * max (t - t₀) 0

theorem monotone_rateCurve {burst rate t₀ : ℚ} (hrate : 0 ≤ rate) :
    Monotone (rateCurve burst rate t₀) := by
  intro a b hab
  have hmax : max (a - t₀) 0 ≤ max (b - t₀) 0 := max_le_max_right 0 (sub_le_sub_right hab t₀)
  exact add_le_add_right (mul_le_mul_of_nonneg_left hmax hrate) burst

/-- The burst is allowed at any time. -/
theorem le_rateCurve {burst rate : ℚ} (hrate : 0 ≤ rate) (t₀ t : ℚ) :
    burst ≤ rateCurve burst rate t₀ t :=
  le_add_of_nonneg_right (mul_nonneg hrate (le_max_right _ _))

theorem rateCurve_of_le {burst rate t₀ t : ℚ} (h : t₀ ≤ t) :
    rateCurve burst rate t₀ t = burst + rate * (t - t₀) := by
  rw [rateCurve, max_eq_left (sub_nonneg.mpr h)]

/-- What one turn does in a run that is in time: the piece keeps to the curve, and `inv` holds
again of the local variables, the total and the instant. -/
structure KeepsCurve (throttler : Throttler σ) (maxSleepSeconds : ℚ) (curve : ℚ → ℚ)
    (inv : σ → ℚ → ℚ → Prop) (l : σ) (total : ℚ) (turn : Turn) : Prop where
  within : total + turn.data.length ≤ curve turn.handed
  leads : (throttler.resume l turn.data.length turn.reading).Leads maxSleepSeconds
    turn.reading.checked fun l' now => inv l' (total + turn.data.length) now

/-- The turns of a run, after the first, are those of a run. -/
theorem withinCurve_cons {maxSleepSeconds : ℚ} {curve : ℚ → ℚ} {inv : σ → ℚ → ℚ → Prop}
    {turn : Turn} {turns : List Turn} {l : σ} {total now : ℚ}
    (hturn : throttler.KeepsCurve maxSleepSeconds curve inv l total turn)
    (hturns : ∀ {l' now'}, inv l' (total + turn.data.length) now' →
      throttler.OnTime maxSleepSeconds l' now' turns →
      WithinCurve curve now' (total + turn.data.length)
        (turns.map fun turn => (turn.handed, (turn.data.length : ℚ))))
    (h : throttler.OnTime maxSleepSeconds l now (turn :: turns)) :
    WithinCurve curve now total
      ((turn :: turns).map fun turn => (turn.handed, (turn.data.length : ℚ))) := by
  obtain ⟨hhanded, hchanged, hchecked, hrest⟩ := h
  obtain ⟨hwithin, hleads⟩ := hturn
  refine ⟨hhanded, hwithin, ?_⟩
  cases hresume : throttler.resume l turn.data.length turn.reading with
  | next l' =>
      simp only [hresume] at hrest
      rw [hresume] at hleads
      exact (hturns hleads hrest).of_le (hchanged.trans hchecked)
  | sleep wait seconds wake =>
      simp only [hresume] at hrest
      rw [hresume] at hleads
      obtain ⟨hwait, hwoken, hslept, hrest⟩ := hrest
      exact (hturns (hleads hwait _ hwoken hslept) hrest).of_le
        ((hchanged.trans hchecked).trans hwoken)
  | zeroDivision =>
      rw [hresume] at hleads
      exact hleads.elim

/-- **A run in time keeps to the curve** when every turn of it does. -/
theorem withinCurve_of_onTime {maxSleepSeconds : ℚ} {curve : ℚ → ℚ} {inv : σ → ℚ → ℚ → Prop}
    {turns : List Turn} {l : σ} {total now : ℚ}
    (hstep : ∀ {l total now turn}, turn ∈ turns → inv l total now → now ≤ turn.handed →
      turn.handed ≤ turn.reading.changed → turn.reading.changed ≤ turn.reading.checked →
      throttler.KeepsCurve maxSleepSeconds curve inv l total turn)
    (hinv : inv l total now) (h : throttler.OnTime maxSleepSeconds l now turns) :
    WithinCurve curve now total
      (turns.map fun turn => (turn.handed, (turn.data.length : ℚ))) := by
  induction turns generalizing l total now with
  | nil => trivial
  | cons turn turns ih =>
      have hturn := hstep List.mem_cons_self hinv h.1 h.2.1 h.2.2.1
      exact withinCurve_cons hturn (ih fun hmem => hstep (List.mem_cons_of_mem _ hmem)) h

/-- **A bound on the rate**: from the first piece on, `burst` and what `rate` allows. -/
theorem handedBy_le {maxSleepSeconds burst rate t₀ t : ℚ} {inv : σ → ℚ → ℚ → Prop}
    {first : Turn} {turns : List Turn} {l : σ} {now : ℚ} (hburst : 0 ≤ burst) (hrate : 0 ≤ rate)
    (hfirst : throttler.KeepsCurve maxSleepSeconds (rateCurve burst rate t₀) inv l 0 first)
    (hstep : ∀ {l total now turn}, turn ∈ turns → inv l total now → now ≤ turn.handed →
      turn.handed ≤ turn.reading.changed → turn.reading.changed ≤ turn.reading.checked →
      throttler.KeepsCurve maxSleepSeconds (rateCurve burst rate t₀) inv l total turn)
    (h : throttler.OnTime maxSleepSeconds l now (first :: turns)) (ht : t₀ ≤ t) :
    handedBy (first :: turns) t ≤ burst + rate * (t - t₀) := by
  have hwithin := withinCurve_cons hfirst (withinCurve_of_onTime hstep) h
  have hnonneg : 0 ≤ rateCurve burst rate t₀ t := by
    rw [rateCurve_of_le ht]
    exact add_nonneg hburst (mul_nonneg hrate (sub_nonneg.mpr ht))
  have hbound := hwithin.arrivedBy_le (monotone_rateCurve hrate) hnonneg
  rwa [zero_add, rateCurve_of_le ht] at hbound

end Throttler

end SDownload
