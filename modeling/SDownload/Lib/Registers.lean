import Mathlib.Logic.Function.Basic
import Mathlib.Data.List.Induction

/-!
# SDownload.Lib.Registers

A family of registers, each empty or holding a value, that are set and cleared.

What a register holds after a history of events is what it was last set to, unless
it was cleared after that (`registers_eq_some_iff`); events at other registers do
not matter.
-/

/-- What happens to the registers: one is set, one is cleared, or nothing changes. -/
inductive RegisterEvent (ι σ : Type*)
  | set (i : ι) (s : σ)
  | clear (i : ι)
  | keep

namespace RegisterEvent

variable {ι σ : Type*} [DecidableEq ι]

def apply (regs : ι → Option σ) : RegisterEvent ι σ → ι → Option σ
  | set i s => Function.update regs i (some s)
  | clear i => Function.update regs i none
  | keep => regs

/-- The register that an event is about. -/
def register : RegisterEvent ι σ → Option ι
  | set i _ => some i
  | clear i => some i
  | keep => none

theorem apply_of_register_ne {regs : ι → Option σ} {e : RegisterEvent ι σ} {i : ι}
    (h : e.register ≠ some i) : e.apply regs i = regs i := by
  cases e with
  | set j s => exact Function.update_of_ne (fun he => h (congrArg some he.symm)) _ _
  | clear j => exact Function.update_of_ne (fun he => h (congrArg some he.symm)) _ _
  | keep => rfl

end RegisterEvent

section

variable {ι σ : Type*} [DecidableEq ι]

/-- What the registers hold after a history, when they were empty before it. -/
def registers (events : List (RegisterEvent ι σ)) : ι → Option σ :=
  events.foldl RegisterEvent.apply fun _ => none

theorem registers_append_singleton (events : List (RegisterEvent ι σ)) (e : RegisterEvent ι σ) :
    registers (events ++ [e]) = e.apply (registers events) := by
  rw [registers, List.foldl_append]
  rfl

/-- Where the last event of a history stands, seen from another one. -/
theorem append_singleton_eq_append_cons {α : Type*} {xs before after : List α} {x y : α}
    (h : xs ++ [x] = before ++ y :: after) :
    after = [] ∧ x = y ∨ ∃ front, after = front ++ [x] ∧ xs = before ++ y :: front := by
  rcases List.eq_nil_or_concat after with rfl | ⟨front, last, rfl⟩
  · exact Or.inl ⟨rfl, List.singleton_inj.mp (List.append_inj' h rfl).2⟩
  · rw [List.concat_eq_append, ← List.cons_append, ← List.append_assoc] at h
    obtain ⟨hxs, hlast⟩ := List.append_inj' h rfl
    exact Or.inr ⟨front, by rw [List.concat_eq_append, hlast], hxs⟩

/-- **The last event counts.** A register holds a value exactly when it was set to it, and neither
set nor cleared after that. -/
theorem registers_eq_some_iff {events : List (RegisterEvent ι σ)} {i : ι} {s : σ} :
    registers events i = some s ↔
      ∃ before after, events = before ++ .set i s :: after ∧ ∀ e ∈ after, e.register ≠ some i := by
  induction events using List.reverseRecOn with
  | nil =>
      refine iff_of_false (by simp [registers]) ?_
      rintro ⟨before, after, hnil, -⟩
      exact absurd hnil.symm (by simp)
  | append_singleton events e ih =>
      rw [registers_append_singleton]
      by_cases hreg : e.register = some i
      · have hlast : (∃ before after, events ++ [e] = before ++ .set i s :: after ∧
            ∀ e' ∈ after, e'.register ≠ some i) ↔ e = .set i s := by
          constructor
          · rintro ⟨before, after, hsplit, hafter⟩
            rcases append_singleton_eq_append_cons hsplit with ⟨-, hlast⟩ | ⟨front, rfl, -⟩
            · exact hlast
            · exact absurd hreg (hafter e (by simp))
          · rintro rfl
            exact ⟨events, [], rfl, fun _ h => absurd h List.not_mem_nil⟩
        rw [hlast]
        cases e with
        | set j t =>
            obtain rfl := Option.some.inj hreg
            simp [RegisterEvent.apply]
        | clear j =>
            obtain rfl := Option.some.inj hreg
            simp [RegisterEvent.apply]
        | keep => cases hreg
      · rw [RegisterEvent.apply_of_register_ne hreg, ih]
        constructor
        · rintro ⟨before, after, rfl, hafter⟩
          refine ⟨before, after ++ [e], by simp, fun e' he' => ?_⟩
          rcases List.mem_append.mp he' with hin | hin
          · exact hafter e' hin
          · rw [List.mem_singleton.mp hin]
            exact hreg
        · rintro ⟨before, after, hsplit, hafter⟩
          rcases append_singleton_eq_append_cons hsplit with ⟨-, rfl⟩ | ⟨front, rfl, hevents⟩
          · exact absurd rfl hreg
          · exact ⟨before, front, hevents, fun e' he' => hafter e' (by simp [he'])⟩

end
