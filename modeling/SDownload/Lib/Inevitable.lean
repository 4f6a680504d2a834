import Mathlib
import SDownload.Lib.Run

/-!
# SDownload.Lib.Inevitable

What a system comes to, whichever of the allowed steps are taken: `Inevitable` is the
"on all paths, eventually" of branching time, for a property of a state and of what was
put out on the way into it. A path that stops where a step is still allowed is no path;
one that stops where none is has to have come there before.
-/

variable {σ ε ο : Type*} {step : σ → ε → Option (σ × List ο)} {allowed : σ → ε → Prop}
  {p q : σ → List ο → Prop} {s : σ} {out : List ο}

/-- On every path from here a moment comes at which `p` holds. -/
inductive Inevitable (step : σ → ε → Option (σ × List ο)) (allowed : σ → ε → Prop)
    (p : σ → List ο → Prop) : σ → List ο → Prop
  | now {s : σ} {out : List ο} (here : p s out) : Inevitable step allowed p s out
  | later {s : σ} {out : List ο}
      (goes : ∃ e s' out', allowed s e ∧ step s e = some (s', out'))
      (rest : ∀ e s' out', allowed s e → step s e = some (s', out') →
        Inevitable step allowed p s' out') : Inevitable step allowed p s out

/-- What follows from something inevitable is inevitable. -/
theorem Inevitable.mono (h : Inevitable step allowed p s out)
    (himp : ∀ s out, p s out → q s out) : Inevitable step allowed q s out := by
  induction h with
  | now here => exact .now (himp _ _ here)
  | later goes _ ih => exact .later goes ih
