import Mathlib.Data.List.Nodup
import Mathlib.Tactic.Tauto

/-!
# SDownload.Lib.Dict

Dictionaries that remember insertion order: a key keeps its place when its value
is replaced and goes to the end when it is new. That no key occurs twice is a
field, so every lookup fact below is an equation between functions of the key
and no client has to argue about positions.
-/

/-- A dictionary that iterates in insertion order. -/
structure Dict (κ ν : Type) where
  entries : List (κ × ν)
  nodup : (entries.map Prod.fst).Nodup

namespace Dict

variable {κ ν : Type} [DecidableEq κ]

def empty : Dict κ ν := ⟨[], List.nodup_nil⟩

def keys (d : Dict κ ν) : List κ := d.entries.map Prod.fst

def values (d : Dict κ ν) : List ν := d.entries.map Prod.snd

/-- `d.get(k)`. -/
def get? (d : Dict κ ν) (k : κ) : Option ν := d.entries.lookup k

/-- `d[k] = v`. -/
def set (d : Dict κ ν) (k : κ) (v : ν) : Dict κ ν :=
  if h : k ∈ d.keys then
    { entries := d.entries.map fun e => if e.1 = k then (k, v) else e
      nodup := by
        have hkeys : (d.entries.map fun e => if e.1 = k then (k, v) else e).map Prod.fst =
            d.entries.map Prod.fst := by
          rw [List.map_map]
          refine List.map_congr_left fun e _ => ?_
          by_cases he : e.1 = k <;> simp [he]
        rw [hkeys]
        exact d.nodup }
  else
    { entries := d.entries ++ [(k, v)]
      nodup := by
        rw [List.map_append]
        exact List.Nodup.append d.nodup (List.nodup_singleton k) (by simpa [keys] using h) }

/-- `d.pop(k, None)`, as far as the dictionary goes. -/
def erase (d : Dict κ ν) (k : κ) : Dict κ ν where
  entries := d.entries.filter fun e => e.1 ≠ k
  nodup := d.nodup.sublist (List.filter_sublist.map Prod.fst)

/-! ### Lookup -/

omit [DecidableEq κ] in
@[simp] theorem keys_empty : (empty : Dict κ ν).keys = [] := rfl
@[simp] theorem get?_empty (k : κ) : (empty : Dict κ ν).get? k = none := rfl

private theorem lookup_eq_some_iff {l : List (κ × ν)} (hnodup : (l.map Prod.fst).Nodup) {k : κ}
    {v : ν} : l.lookup k = some v ↔ (k, v) ∈ l := by
  induction l with
  | nil => simp
  | cons e rest ih =>
      obtain ⟨k', v'⟩ := e
      rw [List.map_cons, List.nodup_cons] at hnodup
      by_cases hk : k = k'
      · subst hk
        have hnotin : ∀ w, (k, w) ∉ rest := fun w hmem =>
          hnodup.1 (List.mem_map.mpr ⟨(k, w), hmem, rfl⟩)
        simp [hnotin, eq_comm]
      · have hne : (k == k') = false := by simpa using hk
        simp [List.lookup_cons, hne, hk, ih hnodup.2]

theorem get?_eq_some_iff {d : Dict κ ν} {k : κ} {v : ν} :
    d.get? k = some v ↔ (k, v) ∈ d.entries :=
  lookup_eq_some_iff d.nodup

theorem mem_keys_iff {d : Dict κ ν} {k : κ} : k ∈ d.keys ↔ ∃ v, d.get? k = some v := by
  simp only [get?_eq_some_iff, keys, List.mem_map, Prod.exists, exists_and_right, exists_eq_right]

theorem get?_eq_none_iff {d : Dict κ ν} {k : κ} : d.get? k = none ↔ k ∉ d.keys := by
  rw [mem_keys_iff]
  cases d.get? k <;> simp

theorem mem_values_iff {d : Dict κ ν} {v : ν} : v ∈ d.values ↔ ∃ k, d.get? k = some v := by
  simp only [get?_eq_some_iff, values, List.mem_map, Prod.exists, exists_eq_right]

private theorem ext_some {o o' : Option ν} (h : ∀ v, o = some v ↔ o' = some v) : o = o' := by
  cases o with
  | none => exact (Option.eq_none_iff_forall_ne_some.mpr fun v hv => by simp [hv] at h).symm
  | some v => exact ((h v).mp rfl).symm

theorem get?_set (d : Dict κ ν) (k k' : κ) (v : ν) :
    (d.set k v).get? k' = if k' = k then some v else d.get? k' := by
  refine ext_some fun w => ?_
  rw [get?_eq_some_iff, set]
  by_cases hmem : k ∈ d.keys
  · simp only [dif_pos hmem, List.mem_map]
    by_cases hk : k' = k
    · subst hk
      obtain ⟨v', hv'⟩ := mem_keys_iff.mp hmem
      rw [get?_eq_some_iff] at hv'
      simp only [if_true, Option.some.injEq]
      constructor
      · rintro ⟨⟨a, b⟩, -, he⟩
        by_cases ha : a = k' <;> simp_all
      · rintro rfl
        exact ⟨(k', v'), hv', by simp⟩
    · simp only [if_neg hk, get?_eq_some_iff]
      constructor
      · rintro ⟨⟨a, b⟩, hin, he⟩
        by_cases ha : a = k
        · simp only [if_pos ha, Prod.mk.injEq] at he
          exact absurd he.1.symm hk
        · rw [if_neg ha] at he
          exact he ▸ hin
      · intro hin
        exact ⟨(k', w), hin, by simp [hk]⟩
  · simp only [dif_neg hmem, List.mem_append, List.mem_singleton, Prod.mk.injEq]
    by_cases hk : k' = k
    · subst hk
      have hnotin : (k', w) ∉ d.entries := fun hin => hmem (List.mem_map_of_mem (f := Prod.fst) hin)
      simp [hnotin, eq_comm]
    · simp [hk, get?_eq_some_iff]

@[simp] theorem get?_set_self (d : Dict κ ν) (k : κ) (v : ν) : (d.set k v).get? k = some v := by
  rw [get?_set, if_pos rfl]

theorem get?_set_of_ne (d : Dict κ ν) {k k' : κ} (v : ν) (h : k' ≠ k) :
    (d.set k v).get? k' = d.get? k' := by
  rw [get?_set, if_neg h]

theorem get?_erase (d : Dict κ ν) (k k' : κ) :
    (d.erase k).get? k' = if k' = k then none else d.get? k' := by
  refine ext_some fun w => ?_
  rw [get?_eq_some_iff, erase]
  by_cases hk : k' = k
  · simp [hk]
  · simp [hk, get?_eq_some_iff]

theorem get?_erase_eq_some {d : Dict κ ν} {k k' : κ} {v : ν} :
    (d.erase k).get? k' = some v ↔ k' ≠ k ∧ d.get? k' = some v := by
  rw [get?_erase]
  by_cases hk : k' = k <;> simp [hk]

/-- What a dictionary built by a row of `set`s holds comes from one of them, or was there
before. -/
theorem get?_foldl_set {α : Type} (f : α → κ) (g : α → ν) {l : List α} {d : Dict κ ν} {k : κ}
    {v : ν} (h : (l.foldl (fun d a => d.set (f a) (g a)) d).get? k = some v) :
    d.get? k = some v ∨ ∃ a ∈ l, f a = k ∧ g a = v := by
  induction l generalizing d with
  | nil => exact Or.inl h
  | cons a rest ih =>
      rcases ih h with hd | ⟨a', ha', hk⟩
      · rw [get?_set] at hd
        split at hd
        · rename_i hk
          exact Or.inr ⟨a, List.mem_cons_self, hk.symm, Option.some.inj hd⟩
        · exact Or.inl hd
      · exact Or.inr ⟨a', List.mem_cons_of_mem _ ha', hk⟩

theorem get?_foldl_erase {α : Type} (f : α → κ) (l : List α) (d : Dict κ ν) (k : κ) :
    (l.foldl (fun d a => d.erase (f a)) d).get? k = if k ∈ l.map f then none else d.get? k := by
  induction l generalizing d with
  | nil => simp
  | cons a rest ih =>
      rw [List.foldl_cons, ih, get?_erase, List.map_cons]
      by_cases hk : k = f a <;> simp [hk]

theorem mem_keys_set {d : Dict κ ν} {k k' : κ} {v : ν} :
    k' ∈ (d.set k v).keys ↔ k' = k ∨ k' ∈ d.keys := by
  simp only [mem_keys_iff, get?_set]
  by_cases hk : k' = k <;> simp [hk]

/-- The keys of a dictionary built by a row of `set`s. -/
theorem mem_keys_foldl_set {α : Type} (f : α → κ) (g : α → ν) (l : List α) (d : Dict κ ν) (k : κ) :
    k ∈ (l.foldl (fun d a => d.set (f a) (g a)) d).keys ↔ k ∈ d.keys ∨ k ∈ l.map f := by
  induction l generalizing d with
  | nil => simp
  | cons a rest ih =>
      rw [List.foldl_cons, ih, mem_keys_set, List.map_cons, List.mem_cons]
      tauto

theorem mem_keys_erase {d : Dict κ ν} {k k' : κ} :
    k' ∈ (d.erase k).keys ↔ k' ≠ k ∧ k' ∈ d.keys := by
  simp only [mem_keys_iff, get?_erase]
  by_cases hk : k' = k <;> simp [hk]

end Dict
