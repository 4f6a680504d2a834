import Mathlib.Algebra.BigOperators.Group.List.Basic
import Mathlib.Algebra.Order.Monoid.Defs
import Mathlib.Order.Monotone.Basic

/-!
# SDownload.Lib.Arrivals

Amounts that arrive one after the other, and curves that bound how much has arrived.

A curve that is kept to at every arrival is kept to at all times: between two arrivals
nothing is added, and the curve does not fall.
-/

variable {τ β : Type*} [LinearOrder τ] [AddCommMonoid β] [PartialOrder β]

/-- How much has arrived by `t`. -/
def arrivedBy (arrivals : List (τ × β)) (t : τ) : β :=
  ((arrivals.filter fun a => a.1 ≤ t).map Prod.snd).sum

/-- From `now` on the arrivals come in the order of their times, and after `total` before them each
leaves the total within the curve. -/
def WithinCurve (curve : τ → β) : τ → β → List (τ × β) → Prop
  | _, _, [] => True
  | now, total, a :: rest =>
      now ≤ a.1 ∧ total + a.2 ≤ curve a.1 ∧ WithinCurve curve a.1 (total + a.2) rest

namespace WithinCurve

variable {curve : τ → β} {now : τ} {total : β} {arrivals : List (τ × β)}

theorem le_time (h : WithinCurve curve now total arrivals) {a : τ × β} (ha : a ∈ arrivals) :
    now ≤ a.1 := by
  induction arrivals generalizing now total with
  | nil => cases ha
  | cons b rest ih =>
      obtain ⟨hnow, -, hrest⟩ := h
      rcases List.mem_cons.mp ha with rfl | ha
      · exact hnow
      · exact hnow.trans (ih hrest ha)

/-- What comes from an instant on comes from any earlier one on. -/
theorem of_le {now' : τ} (hle : now' ≤ now) (h : WithinCurve curve now total arrivals) :
    WithinCurve curve now' total arrivals := by
  cases arrivals with
  | nil => trivial
  | cons a rest => exact ⟨hle.trans h.1, h.2⟩

/-- **A curve that every arrival keeps to** bounds what has arrived at any time. -/
theorem arrivedBy_le (hmono : Monotone curve) {t : τ} (htotal : total ≤ curve t)
    (h : WithinCurve curve now total arrivals) : total + arrivedBy arrivals t ≤ curve t := by
  induction arrivals generalizing now total with
  | nil => simpa [arrivedBy] using htotal
  | cons a rest ih =>
      obtain ⟨-, hcurve, hrest⟩ := h
      by_cases ha : a.1 ≤ t
      · have hsum : arrivedBy (a :: rest) t = a.2 + arrivedBy rest t := by
          simp [arrivedBy, ha]
        rw [hsum, ← add_assoc]
        exact ih (hcurve.trans (hmono ha)) hrest
      · have hnone : (a :: rest).filter (fun b => b.1 ≤ t) = [] := by
          refine List.filter_eq_nil_iff.mpr fun b hb hle => ?_
          have hle := of_decide_eq_true hle
          rcases List.mem_cons.mp hb with rfl | hb
          · exact ha hle
          · exact ha ((hrest.le_time hb).trans hle)
        simpa [arrivedBy, hnone] using htotal

end WithinCurve
