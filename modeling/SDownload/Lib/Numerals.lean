import Mathlib.Data.List.Basic

/-!
# SDownload.Lib.Numerals

Decimal numerals: what an integer's consist of, and how they begin.
-/

theorem toList_toString_int (i : Int) :
    (toString i).toList =
      (if i < 0 then ['-'] else []) ++ Nat.toDigits 10 i.natAbs := by
  cases i with
  | ofNat n =>
      rw [if_neg (by simp)]
      exact Nat.toList_repr
  | negSucc n =>
      rw [if_pos (Int.negSucc_lt_zero n)]
      show ("-" ++ Nat.repr (n + 1)).toList = _
      rw [String.toList_append, Nat.toList_repr]
      rfl

theorem isDigit_of_mem_toDigits {n : Nat} {c : Char} (h : c ∈ Nat.toDigits 10 n) :
    c.isDigit = true :=
  Nat.isDigit_of_mem_toDigits (by decide) (by decide) h

/-- Only 0 is written with a 0 in front. -/
theorem toDigits_head {n : Nat} {rest : List Char} (h : Nat.toDigits 10 n = '0' :: rest) :
    n = 0 ∧ rest = [] := by
  induction n using Nat.strongRecOn generalizing rest with
  | _ n ih =>
      by_cases hlt : n < 10
      · rw [Nat.toDigits_of_lt_base hlt] at h
        obtain ⟨hzero, rfl⟩ := List.cons.inj h
        exact ⟨Nat.digitChar_eq_zero.mp hzero, rfl⟩
      · rw [Nat.toDigits_of_base_le (by decide) (Nat.le_of_not_lt hlt)] at h
        obtain ⟨c, front, hfront⟩ := List.exists_cons_of_ne_nil
          (Nat.toDigits_ne_nil : Nat.toDigits 10 (n / 10) ≠ [])
        rw [hfront, List.cons_append] at h
        obtain ⟨rfl, -⟩ := List.cons.inj h
        have hzero := (ih (n / 10) (by omega) hfront).1
        omega
