import Mathlib

/-!
# SDownload.Lib.Sums

Sums over a list of which one item changes or leaves, and what is left of such a list
when it is filtered.
-/

variable {α : Type*} {f : α → Nat} {l : List α} {i : Nat} {a : α}

theorem sum_map_set (h : l[i]? = some a) (b : α) :
    ((l.set i b).map f).sum + f a = (l.map f).sum + f b := by
  induction l generalizing i with
  | nil => cases h
  | cons x rest ih =>
      cases i with
      | zero =>
          obtain rfl : x = a := by simpa using h
          simp only [List.set_cons_zero, List.map_cons, List.sum_cons]
          omega
      | succ i =>
          have hrest := ih (i := i) (by simpa using h)
          simp only [List.set_cons_succ, List.map_cons, List.sum_cons]
          omega

theorem sum_map_eraseIdx (h : l[i]? = some a) :
    ((l.eraseIdx i).map f).sum + f a = (l.map f).sum := by
  induction l generalizing i with
  | nil => cases h
  | cons x rest ih =>
      cases i with
      | zero =>
          obtain rfl : x = a := by simpa using h
          simp only [List.eraseIdx_cons_zero, List.map_cons, List.sum_cons]
          omega
      | succ i =>
          have hrest := ih (i := i) (by simpa using h)
          simp only [List.eraseIdx_cons_succ, List.map_cons, List.sum_cons]
          omega

/-- An item that grows by `n` at most. -/
theorem sum_map_modify_le {g : α → α} {n : Nat} (hg : ∀ a, f (g a) ≤ f a + n) (l : List α)
    (i : Nat) : ((l.modify i g).map f).sum ≤ (l.map f).sum + n := by
  induction l generalizing i with
  | nil => simp
  | cons x rest ih =>
      cases i with
      | zero =>
          have hx := hg x
          simp only [List.modify_zero_cons, List.map_cons, List.sum_cons]
          omega
      | succ i =>
          have hrest := ih i
          simp only [List.modify_succ_cons, List.map_cons, List.sum_cons]
          omega

/-- What a change does not touch is the same for all items. -/
theorem map_modify_of_eq {β : Type*} {f : α → β} {g : α → α} (hg : ∀ a, f (g a) = f a)
    (l : List α) (i : Nat) : (l.modify i g).map f = l.map f := by
  induction l generalizing i with
  | nil => simp
  | cons x rest ih =>
      cases i with
      | zero => simp [hg]
      | succ i => simp [ih i]

/-! ### What a filter leaves -/

section

variable {p : α → Bool}

theorem filter_eraseIdx_of_false (h : l[i]? = some a) (ha : p a = false) :
    (l.eraseIdx i).filter p = l.filter p := by
  induction l generalizing i with
  | nil => cases h
  | cons x rest ih =>
      cases i with
      | zero =>
          obtain rfl : x = a := by simpa using h
          rw [List.eraseIdx_cons_zero, List.filter_cons_of_neg (by simp [ha])]
      | succ i =>
          rw [List.eraseIdx_cons_succ, List.filter_cons, List.filter_cons,
            ih (i := i) (by simpa using h)]

theorem filter_set_of_false (h : l[i]? = some a) (ha : p a = false) {b : α} (hb : p b = false) :
    (l.set i b).filter p = l.filter p := by
  induction l generalizing i with
  | nil => cases h
  | cons x rest ih =>
      cases i with
      | zero =>
          obtain rfl : x = a := by simpa using h
          rw [List.set_cons_zero, List.filter_cons_of_neg (by simp [hb]),
            List.filter_cons_of_neg (by simp [ha])]
      | succ i =>
          rw [List.set_cons_succ, List.filter_cons, List.filter_cons,
            ih (i := i) (by simpa using h)]

/-- The one item that is left is replaced. -/
theorem filter_set_of_singleton (h : l[i]? = some a) (ha : p a = true) {b : α} (hb : p b = true)
    (hone : l.filter p = [a]) : (l.set i b).filter p = [b] := by
  induction l generalizing i with
  | nil => cases h
  | cons x rest ih =>
      cases i with
      | zero =>
          obtain rfl : x = a := by simpa using h
          rw [List.filter_cons_of_pos ha] at hone
          rw [List.set_cons_zero, List.filter_cons_of_pos hb, (List.cons.inj hone).2]
      | succ i =>
          have hget : rest[i]? = some a := by simpa using h
          cases hx : p x with
          | true =>
              -- then the item would be left twice
              rw [List.filter_cons_of_pos hx] at hone
              have hmem := List.mem_filter.mpr ⟨List.mem_of_getElem? hget, ha⟩
              rw [(List.cons.inj hone).2] at hmem
              cases hmem
          | false =>
              rw [List.filter_cons_of_neg (by simp [hx])] at hone
              rw [List.set_cons_succ, List.filter_cons_of_neg (by simp [hx])]
              exact ih hget hone

end
