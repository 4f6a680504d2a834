import Mathlib

/-!
# SDownload.Lib.Intervals

Half-open intervals of integers, given by where they start and how long they are,
over an arbitrary type of owners. Intervals that lie apart within another one are
together no longer than it (`total_le_of_apart`), by counting their integers.
-/

namespace Intervals

variable {α : Type*} {start len : α → Int} {lo hi : Int}

/-- The intervals of `a` and `b` do not overlap. -/
def Apart (start len : α → Int) (a b : α) : Prop :=
  start a + len a ≤ start b ∨ start b + len b ≤ start a

theorem Apart.symm {a b : α} (h : Apart start len a b) : Apart start len b a := Or.symm h

/-- A front of an interval is apart from what the interval is apart from. -/
theorem Apart.mono {len' : α → Int} {a b : α} (h : Apart start len a b) (ha : len' a ≤ len a)
    (hb : len' b ≤ len b) : Apart start len' a b := by
  rcases h with h | h
  · exact Or.inl (by omega)
  · exact Or.inr (by omega)

/-- The integers of the intervals of a list. -/
noncomputable def points (start len : α → Int) : List α → Finset Int
  | [] => ∅
  | a :: rest => Finset.Ico (start a) (start a + len a) ∪ points start len rest

theorem mem_points {l : List α} {x : Int} :
    x ∈ points start len l ↔ ∃ a ∈ l, start a ≤ x ∧ x < start a + len a := by
  induction l with
  | nil => simp [points]
  | cons a rest ih => simp [points, ih]

/-- Intervals apart have as many integers as they are long together. -/
theorem card_points {l : List α} (hlen : ∀ a ∈ l, 0 ≤ len a)
    (hapart : l.Pairwise (Apart start len)) :
    ((points start len l).card : Int) = (l.map len).sum := by
  induction l with
  | nil => rfl
  | cons a rest ih =>
      obtain ⟨hhead, htail⟩ := List.pairwise_cons.mp hapart
      have hdisjoint : Disjoint (Finset.Ico (start a) (start a + len a))
          (points start len rest) := by
        rw [Finset.disjoint_left]
        intro x hx hx'
        obtain ⟨b, hb, hle, hlt⟩ := mem_points.mp hx'
        obtain ⟨hle', hlt'⟩ := Finset.mem_Ico.mp hx
        rcases hhead b hb with h | h
        · exact absurd (lt_of_lt_of_le hlt' h) (not_lt.mpr hle)
        · exact absurd (lt_of_lt_of_le hlt h) (not_lt.mpr hle')
      have ha := hlen a List.mem_cons_self
      have hrest := ih (fun b hb => hlen b (List.mem_cons_of_mem _ hb)) htail
      rw [points, Finset.card_union_of_disjoint hdisjoint, Int.card_Ico, List.map_cons,
        List.sum_cons, Nat.cast_add, hrest]
      omega

/-- **Intervals apart** in another interval are together no longer than it. -/
theorem total_le_of_apart {l : List α} (hlohi : lo ≤ hi)
    (hin : ∀ a ∈ l, 0 ≤ len a ∧ lo ≤ start a ∧ start a + len a ≤ hi)
    (hapart : l.Pairwise (Apart start len)) : (l.map len).sum ≤ hi - lo := by
  have hsub : points start len l ⊆ Finset.Ico lo hi := by
    intro x hx
    obtain ⟨a, ha, hle, hlt⟩ := mem_points.mp hx
    obtain ⟨-, hlo, hhi⟩ := hin a ha
    exact Finset.mem_Ico.mpr ⟨hlo.trans hle, hlt.trans_le hhi⟩
  have hcard := Finset.card_le_card hsub
  rw [Int.card_Ico] at hcard
  rw [← card_points (fun a ha => (hin a ha).1) hapart]
  omega

end Intervals
