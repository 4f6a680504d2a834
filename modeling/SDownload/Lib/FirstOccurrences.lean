import Mathlib.Data.List.Basic

/-!
# SDownload.Lib.FirstOccurrences

The items of a list whose keys did not occur before them.

A loop that reads a list and remembers the keys it has seen keeps the items
`unseen key seen` names: it skips an item whose key it remembers
(`unseen_cons_of_mem`) and keeps another one (`unseen_cons_of_notMem`). A second loop
that goes on with what the first one remembers keeps what one loop over both lists
keeps (`unseen_append`).
-/

variable {α κ : Type*} [DecidableEq κ] (key : α → κ)

/-- The first item of each key. -/
def firstOccurrences (items : List α) : List α :=
  items.eraseDupsBy fun a b => key a = key b

/-- The first item of each key that was not seen. -/
def unseen (seen : List κ) (items : List α) : List α :=
  firstOccurrences key (items.filter fun a => key a ∉ seen)

variable {key}

@[simp] theorem unseen_nil (seen : List κ) : unseen key seen [] = [] := rfl

/-- To one who has seen nothing, all first items are new. -/
theorem unseen_nil_seen (items : List α) : unseen key [] items = firstOccurrences key items := by
  unfold unseen
  rw [List.filter_eq_self.mpr fun _ _ => decide_eq_true List.not_mem_nil]

theorem unseen_cons_of_mem {seen : List κ} {a : α} (h : key a ∈ seen) (items : List α) :
    unseen key seen (a :: items) = unseen key seen items := by
  unfold unseen
  rw [List.filter_cons_of_neg (by simpa using h)]

theorem unseen_cons_of_notMem {seen : List κ} {a : α} (h : key a ∉ seen) (items : List α) :
    unseen key seen (a :: items) = a :: unseen key (seen ++ [key a]) items := by
  unfold unseen firstOccurrences
  rw [List.filter_cons_of_pos (by simpa using h), List.eraseDupsBy_cons, List.filter_filter]
  congr 2
  refine List.filter_congr fun b _ => ?_
  by_cases hb : key b = key a <;> simp [hb]

/-- What is kept of two lists, one after the other. -/
theorem unseen_append (seen : List κ) (xs ys : List α) :
    unseen key seen (xs ++ ys) =
      unseen key seen xs ++ unseen key (seen ++ (unseen key seen xs).map key) ys := by
  induction xs generalizing seen with
  | nil => rw [List.nil_append, unseen_nil, List.map_nil, List.append_nil, List.nil_append]
  | cons a xs ih =>
      rw [List.cons_append]
      by_cases h : key a ∈ seen
      · rw [unseen_cons_of_mem h, unseen_cons_of_mem h, ih]
      · rw [unseen_cons_of_notMem h, unseen_cons_of_notMem h, ih, List.cons_append, List.map_cons,
          List.append_assoc, List.singleton_append]
