import Mathlib.Data.List.Forall2

/-!
# SDownload.Lib.Except

A list of computations that may fail, run in order (`List.mapM` over `Except`):
either all of them succeed, or one of them is the failure.
-/

namespace Except

variable {ε α β : Type} {f : α → Except ε β}

theorem mapM_cons (a : α) (l : List α) :
    (a :: l).mapM f =
      match f a with
      | .error e => .error e
      | .ok b =>
          match l.mapM f with
          | .error e => .error e
          | .ok bs => .ok (b :: bs) := by
  rw [List.mapM_cons]
  cases f a with
  | error e => rfl
  | ok b =>
      show (l.mapM f >>= fun bs => pure (b :: bs)) = _
      cases l.mapM f <;> rfl

/-- Success is success of every one. -/
theorem forall₂_of_mapM_ok {l : List α} {l' : List β} (h : l.mapM f = .ok l') :
    List.Forall₂ (fun a b => f a = .ok b) l l' := by
  induction l generalizing l' with
  | nil =>
      obtain rfl : [] = l' := Except.ok.inj h
      exact .nil
  | cons a rest ih =>
      rw [mapM_cons] at h
      split at h
      · cases h
      · rename_i b hb
        split at h
        · cases h
        · rename_i bs hbs
          obtain rfl := Except.ok.inj h
          exact .cons hb (ih hbs)

/-- Every result is the result of one. -/
theorem exists_of_mapM_ok {l : List α} {l' : List β} (h : l.mapM f = .ok l') {b : β}
    (hb : b ∈ l') : ∃ a ∈ l, f a = .ok b := by
  have hall := forall₂_of_mapM_ok h
  clear h
  induction hall with
  | nil => cases hb
  | cons hab _ ih =>
      rcases List.mem_cons.mp hb with rfl | hb
      · exact ⟨_, List.mem_cons_self, hab⟩
      · obtain ⟨a, ha, hab⟩ := ih hb
        exact ⟨a, List.mem_cons_of_mem _ ha, hab⟩

/-- A failure is the failure of one. -/
theorem exists_of_mapM_error {l : List α} {e : ε} (h : l.mapM f = .error e) :
    ∃ a ∈ l, f a = .error e := by
  induction l with
  | nil => cases h
  | cons a rest ih =>
      rw [mapM_cons] at h
      split at h
      · rename_i e' he
        obtain rfl := Except.error.inj h
        exact ⟨a, List.mem_cons_self, he⟩
      · split at h
        · rename_i e' he
          obtain rfl := Except.error.inj h
          obtain ⟨a', ha', hfail⟩ := ih he
          exact ⟨a', List.mem_cons_of_mem _ ha', hfail⟩
        · cases h

/-- If every one succeeds, so do they together. -/
theorem mapM_ok_of_forall {l : List α} {g : α → β} (h : ∀ a ∈ l, f a = .ok (g a)) :
    l.mapM f = .ok (l.map g) := by
  induction l with
  | nil => rfl
  | cons a rest ih =>
      rw [mapM_cons, h a List.mem_cons_self]
      simp only [ih fun a' ha' => h a' (List.mem_cons_of_mem _ ha'), List.map_cons]

end Except
