import SDownload.Lib.FileSystem
import Mathlib.Data.List.TakeDrop

/-!
# SDownload.Lib.Shift

Copying the middle of a sequence to its front, in place. After `w` entries the front
is the middle's, and from there on everything is as it was (`shifted`), so what has
not been copied yet can still be read: it lies behind what has been written.
-/

variable {β : Type} {l : List β} {s w : Nat}

/-- `l` after the first `w` of its entries from `s` on have been copied to the front. -/
def shifted (l : List β) (s w : Nat) : List β := (l.drop s).take w ++ l.drop w

@[simp] theorem shifted_zero : shifted l s 0 = l := by
  simp [shifted]

/-- The front is as long as it should be. -/
theorem length_front (h : s + w ≤ l.length) : ((l.drop s).take w).length = w := by
  rw [List.length_take, List.length_drop]
  omega

theorem length_shifted (h : s + w ≤ l.length) : (shifted l s w).length = l.length := by
  rw [shifted, List.length_append, length_front h, List.length_drop]
  omega

theorem take_shifted (h : s + w ≤ l.length) : (shifted l s w).take w = (l.drop s).take w :=
  List.take_left' (length_front h)

/-- What has not been written over is as it was. -/
theorem drop_shifted {r : Nat} (h : s + w ≤ l.length) (hr : w ≤ r) :
    (shifted l s w).drop r = l.drop r := by
  obtain ⟨k, rfl⟩ := Nat.exists_eq_add_of_le hr
  rw [shifted, ← List.drop_drop, List.drop_left' (length_front h), List.drop_drop]

/-- **Copying** the next `k` entries. -/
theorem writeBytes_shifted [Inhabited β] {k : Nat} (h : s + w + k ≤ l.length) :
    writeBytes (shifted l s w) w ((l.drop (s + w)).take k) = shifted l s (w + k) := by
  have hw : s + w ≤ l.length := by omega
  have hdata : ((l.drop (s + w)).take k).length = k := length_front h
  have hlen := length_shifted hw
  unfold writeBytes
  rw [take_shifted hw, hdata, drop_shifted hw (Nat.le_add_right w k), hlen,
    Nat.sub_eq_zero_of_le (by omega), List.replicate_zero, List.append_nil]
  rw [shifted, List.take_add, List.drop_drop]

/-- Nothing has changed when the entries were the same. -/
theorem shifted_eq_iff : shifted l s w = l ↔ (l.drop s).take w = l.take w := by
  have hsplit : l.take w ++ l.drop w = l := List.take_append_drop w l
  constructor
  · intro h
    exact List.append_cancel_right (h.trans hsplit.symm)
  · intro h
    rw [shifted, h, hsplit]
