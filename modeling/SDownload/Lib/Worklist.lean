import Mathlib.Data.List.Nodup
import Mathlib.Data.Multiset.DershowitzManna

/-!
# SDownload.Lib.Worklist

Worklists that grow while they are worked off: in a turn the first item leaves,
and new items join at the end.

If what joins has a smaller **rank** than the item that left, the turns come to
an end, however many items join (`WorkTurn.wellFounded`): the ranks of the items
that wait go down in the order of Dershowitz and Manna on multisets.

If what joins has **keys** that were not seen before, no key is taken from the
list twice (`Tracked`).
-/

variable {ι κ : Type*}

/-! ### Termination -/

/-- One turn: the first item leaves, and items of smaller rank join. -/
inductive WorkTurn (rank : ι → ℕ) : List ι → List ι → Prop
  | turn {item : ι} {rest joined : List ι} (smaller : ∀ new ∈ joined, rank new < rank item) :
      WorkTurn rank (rest ++ joined) (item :: rest)

namespace WorkTurn

variable {rank : ι → ℕ}

/-- A turn makes the multiset of ranks smaller. -/
theorem isDershowitzMannaLT {after before : List ι} (h : WorkTurn rank after before) :
    Multiset.IsDershowitzMannaLT (after.map rank : Multiset ℕ) (before.map rank : Multiset ℕ) := by
  cases h with
  | turn smaller =>
      rename_i item rest joined
      refine ⟨rest.map rank, joined.map rank, {rank item}, Multiset.singleton_ne_zero _, ?_, ?_, ?_⟩
      · rw [List.map_append, Multiset.coe_add]
      · rw [List.map_cons, ← Multiset.cons_coe, ← Multiset.singleton_add, add_comm]
      · intro r hr
        obtain ⟨new, hnew, rfl⟩ := List.mem_map.mp (Multiset.mem_coe.mp hr)
        exact ⟨rank item, Multiset.mem_singleton_self _, smaller new hnew⟩

/-- **The turns come to an end.** -/
theorem wellFounded (rank : ι → ℕ) : WellFounded (WorkTurn rank) :=
  Subrelation.wf (fun h => h.isDershowitzMannaLT)
    (InvImage.wf (fun items : List ι => (items.map rank : Multiset ℕ))
      Multiset.wellFounded_isDershowitzMannaLT)

end WorkTurn

/-! ### Keys that are taken once -/

/-- No key was taken twice or waits again, and all of them were seen. -/
structure Tracked (taken waiting seen : List κ) : Prop where
  nodup : (taken ++ waiting).Nodup
  mem_seen : ∀ key ∈ taken ++ waiting, key ∈ seen

namespace Tracked

variable {taken waiting joined seen seen' : List κ} {key : κ}

theorem start (key : κ) : Tracked [] [key] [key] :=
  ⟨List.nodup_singleton key, fun _ hk => hk⟩

/-- The first key that waits is taken. -/
theorem take (h : Tracked taken (key :: waiting) seen) : Tracked (taken ++ [key]) waiting seen := by
  have happend : (taken ++ [key]) ++ waiting = taken ++ key :: waiting := List.append_assoc ..
  exact ⟨happend ▸ h.nodup, happend ▸ h.mem_seen⟩

/-- Keys that were not seen join. -/
theorem join (h : Tracked taken waiting seen) (hnodup : joined.Nodup)
    (hfresh : ∀ key ∈ joined, key ∉ seen) (hjoined : ∀ key ∈ joined, key ∈ seen')
    (hseen : ∀ key ∈ seen, key ∈ seen') : Tracked taken (waiting ++ joined) seen' := by
  constructor
  · rw [← List.append_assoc]
    exact h.nodup.append hnodup fun key hold hnew => hfresh key hnew (h.mem_seen key hold)
  · intro key hkey
    rw [← List.append_assoc] at hkey
    rcases List.mem_append.mp hkey with hkey | hkey
    · exact hseen key (h.mem_seen key hkey)
    · exact hjoined key hkey

/-- What was taken are different keys. -/
theorem nodup_taken (h : Tracked taken waiting seen) : taken.Nodup :=
  (List.nodup_append.mp h.nodup).1

end Tracked
