import Mathlib
import SDownload.Lib.Run

/-!
# SDownload.Lib.Measure

Runs that end: a measure that every step takes from, but for what its event gives
back, bounds the length of a run. Where some free event always applies until there
is rest, a run gets to rest.
-/

variable {σ ε ο : Type*} {step : σ → ε → Option (σ × List ο)} {allowed : σ → ε → Prop}
  [∀ s e, Decidable (allowed s e)] (inv : σ → Prop) (μ : σ → Nat)

theorem replay_cons {s s' last : σ} {e : ε} {events : List ε} {out outs : List ο}
    (hok : allowed s e) (hmove : step s e = some (s', out))
    (h : replay step allowed s' events = some (last, outs)) :
    replay step allowed s (e :: events) = some (last, out ++ outs) := by
  simp only [replay, if_pos hok, hmove, h]

/-- **Runs are short** if every step takes one from the measure, but for what its event gives
back. -/
theorem length_add_le_of_replay (cost : ε → Nat)
    (hstep : ∀ {s s' e out}, inv s → allowed s e → step s e = some (s', out) →
      inv s' ∧ μ s' + 1 ≤ μ s + cost e)
    {s last : σ} {events : List ε} {outs : List ο} (hs : inv s)
    (h : replay step allowed s events = some (last, outs)) :
    events.length + μ last ≤ μ s + (events.map cost).sum := by
  induction events generalizing s outs with
  | nil =>
      obtain ⟨rfl, -⟩ := Prod.mk.inj (Option.some.inj h)
      simp
  | cons e rest ih =>
      simp only [replay] at h
      split at h
      · rename_i hok
        split at h
        · cases h
        · rename_i s' out hmove
          split at h
          · cases h
          · rename_i last' outs' hrest
            obtain ⟨rfl, rfl⟩ := Prod.mk.inj (Option.some.inj h)
            obtain ⟨hs', hmeasure⟩ := hstep hs hok hmove
            have hlen := ih hs' hrest
            simp only [List.length_cons, List.map_cons, List.sum_cons]
            omega
      · cases h

/-- **Runs get to rest** if wherever there is none a free event applies that takes from the
measure. -/
theorem exists_replay_to {rest : σ → Prop} {free : ε → Prop}
    (hgoes : ∀ {s}, inv s → ¬ rest s → ∃ e s' out, free e ∧ allowed s e ∧
      step s e = some (s', out) ∧ inv s' ∧ μ s' < μ s) {s : σ} (hs : inv s) :
    ∃ events last outs, (∀ e ∈ events, free e) ∧
      replay step allowed s events = some (last, outs) ∧ rest last := by
  induction hμ : μ s using Nat.strongRecOn generalizing s with
  | ind n ih =>
      by_cases hrest : rest s
      · exact ⟨[], s, [], nofun, rfl, hrest⟩
      · obtain ⟨e, s', out, hfree, hok, hmove, hs', hless⟩ := hgoes hs hrest
        obtain ⟨events, last, outs, hall, hreplay, hlast⟩ := ih (μ s') (hμ ▸ hless) hs' rfl
        refine ⟨e :: events, last, out ++ outs, ?_, replay_cons hok hmove hreplay, hlast⟩
        intro e' he'
        rcases List.mem_cons.mp he' with rfl | he'
        · exact hfree
        · exact hall e' he'
