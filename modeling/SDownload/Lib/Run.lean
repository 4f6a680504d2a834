import Mathlib.Init

/-!
# SDownload.Lib.Run

Runs of a system given by a partial step function: in a state an event either
does not apply or leads to a new state with some outputs. A **guard** says which
events a run is allowed, and the one rule of the module is that what holds at the
start and is kept by allowed steps holds wherever a run gets to.

`Produces` is the same with everything the run has put out, for properties of the
outputs of a whole run.

`replay` runs a list of events and checks the guard on the way, so that a run can
be exhibited by evaluation.
-/

variable {σ ε ο : Type*}

/-- The states reached from `start` by steps that the guard allows. -/
inductive Reaches (step : σ → ε → Option (σ × List ο)) (allowed : σ → ε → Prop) (start : σ) :
    σ → Prop
  | start : Reaches step allowed start start
  | step {s s' : σ} {e : ε} {out : List ο} (reached : Reaches step allowed start s)
      (ok : allowed s e) (moves : step s e = some (s', out)) : Reaches step allowed start s'

namespace Reaches

variable {step : σ → ε → Option (σ × List ο)} {allowed allowed' : σ → ε → Prop} {start s : σ}

/-- **Invariants.** What holds at the start and is kept by every allowed step holds in every
state reached. -/
theorem invariant {inv : σ → Prop} (hstart : inv start)
    (hstep : ∀ {s s' e out}, inv s → allowed s e → step s e = some (s', out) → inv s')
    (h : Reaches step allowed start s) : inv s := by
  induction h with
  | start => exact hstart
  | step _ ok moves ih => exact hstep ih ok moves

/-- A stricter guard reaches less. -/
theorem mono (himp : ∀ s e, allowed s e → allowed' s e) (h : Reaches step allowed start s) :
    Reaches step allowed' start s := by
  induction h with
  | start => exact .start
  | step _ ok moves ih => exact .step ih (himp _ _ ok) moves

end Reaches

/-- The states reached by steps that the guard allows, with all outputs on the way. -/
inductive Produces (step : σ → ε → Option (σ × List ο)) (allowed : σ → ε → Prop) (start : σ) :
    σ → List ο → Prop
  | start : Produces step allowed start start []
  | step {s s' : σ} {e : ε} {outs out : List ο} (produced : Produces step allowed start s outs)
      (ok : allowed s e) (moves : step s e = some (s', out)) :
      Produces step allowed start s' (outs ++ out)

/-- **Invariants with a history.** What holds at the start, of no outputs, and is kept by every
allowed step, of the outputs so far and those of the step, holds of every run. -/
theorem Produces.invariant {step : σ → ε → Option (σ × List ο)} {allowed : σ → ε → Prop}
    {start s : σ} {outs : List ο} {inv : σ → List ο → Prop} (hstart : inv start [])
    (hstep : ∀ {s s' e outs out}, inv s outs → allowed s e → step s e = some (s', out) →
      inv s' (outs ++ out)) (h : Produces step allowed start s outs) : inv s outs := by
  induction h with
  | start => exact hstart
  | step _ ok moves ih => exact hstep ih ok moves

/-- A run that produces something gets there. -/
theorem Produces.reaches {step : σ → ε → Option (σ × List ο)} {allowed : σ → ε → Prop}
    {start s : σ} {outs : List ο} (h : Produces step allowed start s outs) :
    Reaches step allowed start s := by
  induction h with
  | start => exact .start
  | step _ ok moves ih => exact .step ih ok moves

/-- Run a list of events, checking the guard before each. -/
def replay (step : σ → ε → Option (σ × List ο)) (allowed : σ → ε → Prop)
    [∀ s e, Decidable (allowed s e)] : σ → List ε → Option (σ × List ο)
  | s, [] => some (s, [])
  | s, e :: rest =>
      if allowed s e then
        match step s e with
        | none => none
        | some (s', out) =>
            match replay step allowed s' rest with
            | none => none
            | some (last, outs) => some (last, out ++ outs)
      else none

/-- A replayed run produces what it puts out. -/
theorem produces_of_replay {step : σ → ε → Option (σ × List ο)} {allowed : σ → ε → Prop}
    [∀ s e, Decidable (allowed s e)] {start s last : σ} {events : List ε} {before outs : List ο}
    (hs : Produces step allowed start s before)
    (h : replay step allowed s events = some (last, outs)) :
    Produces step allowed start last (before ++ outs) := by
  induction events generalizing s before outs with
  | nil =>
      obtain ⟨rfl, rfl⟩ := Prod.mk.inj (Option.some.inj h)
      rw [List.append_nil]
      exact hs
  | cons e rest ih =>
      simp only [replay] at h
      split at h
      · rename_i hok
        split at h
        · cases h
        · rename_i s' out hmove
          split at h
          · cases h
          · rename_i last' outs' hrest
            obtain ⟨rfl, rfl⟩ := Prod.mk.inj (Option.some.inj h)
            rw [← List.append_assoc]
            exact ih (.step hs hok hmove) hrest
      · cases h

/-- Where a run of these events gets to, or its start where one of them does not apply. -/
def runTo (step : σ → ε → Option (σ × List ο)) (allowed : σ → ε → Prop)
    [∀ s e, Decidable (allowed s e)] (start : σ) (events : List ε) : σ :=
  match replay step allowed start events with
  | some (last, _) => last
  | none => start

/-- What a run of these events puts out. -/
def runOuts (step : σ → ε → Option (σ × List ο)) (allowed : σ → ε → Prop)
    [∀ s e, Decidable (allowed s e)] (start : σ) (events : List ε) : List ο :=
  match replay step allowed start events with
  | some (_, outs) => outs
  | none => []

theorem produces_runTo (step : σ → ε → Option (σ × List ο)) (allowed : σ → ε → Prop)
    [∀ s e, Decidable (allowed s e)] (start : σ) (events : List ε) :
    Produces step allowed start (runTo step allowed start events)
      (runOuts step allowed start events) := by
  unfold runTo runOuts
  cases hreplay : replay step allowed start events with
  | none => exact .start
  | some result => exact produces_of_replay .start hreplay

theorem reaches_runTo (step : σ → ε → Option (σ × List ο)) (allowed : σ → ε → Prop)
    [∀ s e, Decidable (allowed s e)] (start : σ) (events : List ε) :
    Reaches step allowed start (runTo step allowed start events) :=
  (produces_runTo step allowed start events).reaches
