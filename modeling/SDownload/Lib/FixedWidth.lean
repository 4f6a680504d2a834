import Mathlib
import SDownload.Lib.Numerals

/-!
# SDownload.Lib.FixedWidth

Decimal numerals of a fixed width.

A numeral of a fixed width is filled up with zeros in front, and is read back by
its width alone (`readFixed_fixed`), whatever follows it.
-/

namespace Numerals

/-- `%0wd`. -/
def fixed (w n : Nat) : List Char :=
  List.replicate (w - (Nat.toDigits 10 n).length) '0' ++ Nat.toDigits 10 n

/-- A number of `w` digits. -/
def readFixed (w : Nat) (text : List Char) : Option (Nat × List Char) :=
  if (text.take w).length = w ∧ (text.take w).all Char.isDigit then
    some (Nat.ofDigitChars 10 (text.take w) 0, text.drop w)
  else none

theorem isDigit_of_mem_fixed {w n : Nat} {c : Char} (h : c ∈ fixed w n) : c.isDigit = true := by
  rcases List.mem_append.mp h with hzero | hdigit
  · rw [(List.mem_replicate.mp hzero).2]
    rfl
  · exact isDigit_of_mem_toDigits hdigit

theorem length_fixed {w n : Nat} (hw : 0 < w) (h : n < 10 ^ w) : (fixed w n).length = w := by
  have hle : (Nat.toDigits 10 n).length ≤ w :=
    (Nat.length_toDigits_le_iff (by decide) hw).mpr h
  rw [fixed, List.length_append, List.length_replicate]
  omega

theorem readFixed_fixed {w n : Nat} (hw : 0 < w) (h : n < 10 ^ w) (rest : List Char) :
    readFixed w (fixed w n ++ rest) = some (n, rest) := by
  have hlen := length_fixed hw h
  have htake : (fixed w n ++ rest).take w = fixed w n := List.take_left' hlen
  have hall : (fixed w n).all Char.isDigit = true :=
    List.all_eq_true.mpr fun c hc => isDigit_of_mem_fixed hc
  rw [readFixed, htake, if_pos ⟨hlen, hall⟩, List.drop_left' hlen, fixed,
    Nat.ofDigitChars_append, Nat.ofDigitChars_replicate_zero, Nat.mul_zero,
    Nat.ofDigitChars_ten_toDigits]

/-- A number is known by its numeral. -/
theorem fixed_append_inj {w m n : Nat} (hw : 0 < w) (hm : m < 10 ^ w) (hn : n < 10 ^ w)
    {rest rest' : List Char} (h : fixed w m ++ rest = fixed w n ++ rest') :
    m = n ∧ rest = rest' := by
  have hread := readFixed_fixed hw hm rest
  rw [h, readFixed_fixed hw hn] at hread
  exact (Prod.mk.inj (Option.some.inj hread)).imp Eq.symm Eq.symm

end Numerals
