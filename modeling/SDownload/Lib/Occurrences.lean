import Mathlib.Data.List.Infix

/-!
# SDownload.Lib.Occurrences

Where a word occurs in a text that is put together from pieces.

A letter the word does not have separates: a word that occurs in a text occurs on
one side of such a letter (`infix_append_cons_iff`). A suffix of two pieces is a
suffix of the second or goes on into the first (`suffix_append_iff`). A word whose
last letter occurs in it nowhere else does not overlap itself, so it has no
occurrence that begins in another one (`infix_of_infix_tail`).
-/

variable {α : Type*} {word text xs xs' ys ys' : List α} {c : α}

/-- What stands before the first `c` and after it. -/
theorem append_cons_inj (hxs : c ∉ xs) (hxs' : c ∉ xs') (h : xs ++ c :: ys = xs' ++ c :: ys') :
    xs = xs' ∧ ys = ys' := by
  induction xs generalizing xs' with
  | nil =>
      cases xs' with
      | nil => exact ⟨rfl, (List.cons.inj h).2⟩
      | cons x' rest => exact absurd (List.cons.inj h).1 fun he => hxs' (he ▸ List.mem_cons_self)
  | cons x rest ih =>
      cases xs' with
      | nil => exact absurd (List.cons.inj h).1.symm fun he => hxs (he ▸ List.mem_cons_self)
      | cons x' rest' =>
          obtain ⟨rfl, htail⟩ := List.cons.inj h
          obtain ⟨rfl, hys⟩ := ih (fun hm => hxs (List.mem_cons_of_mem _ hm))
            (fun hm => hxs' (List.mem_cons_of_mem _ hm)) htail
          exact ⟨rfl, hys⟩

/-! ### Separating letters -/

theorem prefix_append_cons_iff (hc : c ∉ word) : word <+: xs ++ c :: ys ↔ word <+: xs := by
  refine ⟨fun h => ?_, fun h => h.trans (List.prefix_append xs _)⟩
  rcases List.prefix_or_prefix_of_prefix h (List.prefix_append xs _) with hshort | hlong
  · exact hshort
  · -- a word longer than `xs` would have the letter that follows `xs`
    obtain ⟨rest, rfl⟩ := hlong
    cases rest with
    | nil => rw [List.append_nil]
    | cons r rest =>
        have hr : r = c := by
          have hcons := (List.prefix_append_right_inj xs).mp h
          exact (List.cons_prefix_cons.mp hcons).1
        exact absurd (List.mem_append_right xs (hr ▸ List.mem_cons_self)) hc

theorem infix_append_cons_iff (hword : word ≠ []) (hc : c ∉ word) :
    word <:+: xs ++ c :: ys ↔ word <:+: xs ∨ word <:+: ys := by
  induction xs with
  | nil =>
      rw [List.nil_append, List.infix_cons_iff, List.infix_nil]
      refine or_congr ⟨fun h => ?_, fun h => absurd h hword⟩ Iff.rfl
      have hprefix : word <+: [] ++ c :: ys := h
      exact List.prefix_nil.mp ((prefix_append_cons_iff hc).mp hprefix)
  | cons x xs ih =>
      rw [List.cons_append, List.infix_cons_iff, ih, List.infix_cons_iff, ← List.cons_append,
        prefix_append_cons_iff hc, or_assoc]

theorem infix_replicate_append_iff (hword : word ≠ []) (hc : c ∉ word) (n : Nat) :
    word <:+: List.replicate n c ++ ys ↔ word <:+: ys := by
  induction n with
  | zero => exact Iff.rfl
  | succ n ih =>
      have hnil : ¬ word <:+: [] := fun h => hword (List.infix_nil.mp h)
      have hcons : word <:+: [] ++ c :: (List.replicate n c ++ ys) ↔ word <:+: ys := by
        rw [infix_append_cons_iff hword hc, ih, or_iff_right hnil]
      exact hcons

theorem infix_append_replicate_iff (hword : word ≠ []) (hc : c ∉ word) (n : Nat) :
    word <:+: xs ++ List.replicate n c ↔ word <:+: xs := by
  cases n with
  | zero => rw [List.replicate_zero, List.append_nil]
  | succ n =>
      have hrest : ¬ word <:+: List.replicate n c := by
        rw [← List.append_nil (List.replicate n c), infix_replicate_append_iff hword hc]
        exact fun h => hword (List.infix_nil.mp h)
      rw [List.replicate_succ, infix_append_cons_iff hword hc, or_iff_left hrest]

/-! ### Suffixes of two pieces -/

theorem suffix_append_iff :
    text <:+ xs ++ ys ↔ text <:+ ys ∨ ∃ front, front <:+ xs ∧ text = front ++ ys := by
  constructor
  · intro h
    rcases List.suffix_or_suffix_of_suffix h (List.suffix_append xs ys) with hshort | ⟨front, rfl⟩
    · exact Or.inl hshort
    · exact Or.inr ⟨front, List.suffix_append_self_iff.mp h, rfl⟩
  · rintro (h | ⟨front, hfront, rfl⟩)
    · exact h.trans (List.suffix_append xs ys)
    · exact List.suffix_append_self_iff.mpr hfront

theorem infix_of_suffix (h : word ++ c :: ys <:+ text) : word ++ [c] <:+: text := by
  obtain ⟨front, hfront⟩ := h
  refine ⟨front, ys, ?_⟩
  rw [← hfront, List.append_assoc, List.append_assoc, List.singleton_append]

theorem suffix_of_append_eq_cons {x : α} (hxs : xs ≠ []) (h : xs ++ ys = x :: text) :
    ys <:+ text := by
  cases xs with
  | nil => exact absurd rfl hxs
  | cons _ front => exact ⟨front, (List.cons.inj h).2⟩

/-- A suffix with no more `c` than there are behind a certain one begins behind that one. -/
theorem suffix_of_count_le [DecidableEq α] (h : text <:+ xs ++ c :: ys)
    (hcount : text.count c ≤ ys.count c) : text <:+ ys := by
  rcases suffix_append_iff.mp h with h | ⟨front, -, rfl⟩
  · rcases List.suffix_cons_iff.mp h with rfl | h
    · rw [List.count_cons_self] at hcount
      exact absurd hcount (Nat.not_succ_le_self _)
    · exact h
  · rw [List.count_append, List.count_cons_self] at hcount
    omega

/-- A suffix that begins with a word and `c` either begins behind the first `c` of the text, or that
`c` is its own. -/
theorem suffix_append_cons (hword : word ≠ []) (hc : c ∉ word) (hxs : c ∉ xs)
    (h : word ++ c :: ys' <:+ xs ++ c :: ys) :
    word ++ c :: ys' <:+ ys ∨ word <:+ xs ∧ ys' = ys := by
  rcases suffix_append_iff.mp h with h | ⟨front, hfront, heq⟩
  · rcases List.suffix_cons_iff.mp h with heq | h
    · cases word with
      | nil => exact absurd rfl hword
      | cons x rest =>
          exact absurd (List.cons.inj heq).1.symm fun he => hc (he ▸ List.mem_cons_self)
    · exact Or.inl h
  · obtain ⟨rfl, hys⟩ := append_cons_inj hc (fun hm => hxs (hfront.subset hm)) heq
    exact Or.inr ⟨hfront, hys⟩

/-! ### Words that do not overlap themselves -/

theorem eq_of_prefix_append_cons (hc : c ∉ word) (hxs : c ∉ xs)
    (h : word ++ [c] <+: xs ++ c :: ys) : word = xs := by
  obtain ⟨rest, hrest⟩ := h
  rw [List.append_assoc, List.singleton_append] at hrest
  exact (append_cons_inj hc hxs hrest).1

/-- In a text that begins too short for the word, the word is behind the first `c`. -/
theorem infix_of_short (hc : c ∉ word) (hxs : c ∉ xs) (hlen : xs.length < word.length)
    (h : word ++ [c] <:+: xs ++ c :: ys) : word ++ [c] <:+: ys := by
  have hprefix : ¬ word ++ [c] <+: xs ++ c :: ys := fun hp =>
    absurd (congrArg List.length (eq_of_prefix_append_cons hc hxs hp)) (Nat.ne_of_gt hlen)
  induction xs with
  | nil => exact (List.infix_cons_iff.mp h).resolve_left hprefix
  | cons x xs ih =>
      have hxs' : c ∉ xs := fun hm => hxs (List.mem_cons_of_mem x hm)
      have hlen' : xs.length < word.length := Nat.lt_of_succ_lt hlen
      refine ih hxs' hlen' ((List.infix_cons_iff.mp h).resolve_left hprefix) fun hp => ?_
      exact absurd (congrArg List.length (eq_of_prefix_append_cons hc hxs' hp)) (Nat.ne_of_gt hlen')

/-- An occurrence of the word behind the beginning of another one is behind its end. -/
theorem infix_of_infix_tail (hc : c ∉ word) (h : word ++ [c] <:+: (word ++ c :: ys).tail) :
    word ++ [c] <:+: ys := by
  cases word with
  | nil => exact h
  | cons x rest =>
      exact infix_of_short hc (fun hm => hc (List.mem_cons_of_mem x hm)) (Nat.lt_succ_self _) h

/-! ### Replacing -/

section

variable [DecidableEq α] (old new : List α)

/-- The text behind its first `skip` letters, with each occurrence of a word in it replaced. -/
def replaceAfter : Nat → List α → List α
  | _, [] => []
  | skip + 1, _ :: rest => replaceAfter skip rest
  | 0, c :: rest =>
      if old.isPrefixOf (c :: rest) then new ++ replaceAfter (old.length - 1) rest
      else c :: replaceAfter 0 rest

/-- `str.replace`, for a word that is not empty: its occurrences from the left, those that do not
overlap an earlier one. -/
def replaceAll (text : List α) : List α := replaceAfter old new 0 text

variable {old new}

theorem replaceAfter_append (front rest : List α) :
    replaceAfter old new front.length (front ++ rest) = replaceAll old new rest := by
  induction front with
  | nil => rfl
  | cons x front ih => exact ih

/-- The word itself is replaced. -/
theorem replaceAll_self (hold : old ≠ []) (rest : List α) :
    replaceAll old new (old ++ rest) = new ++ replaceAll old new rest := by
  cases old with
  | nil => exact absurd rfl hold
  | cons c word =>
      have hprefix : (c :: word).isPrefixOf (c :: (word ++ rest)) = true :=
        List.isPrefixOf_iff_prefix.mpr (List.prefix_append (c :: word) rest)
      show replaceAfter (c :: word) new 0 (c :: (word ++ rest)) = _
      rw [replaceAfter, if_pos hprefix]
      exact congrArg (new ++ ·) (replaceAfter_append word rest)

/-- Where the word does not begin, a letter stays. -/
theorem replaceAll_cons {c : α} {rest : List α} (h : ¬ old <+: c :: rest) :
    replaceAll old new (c :: rest) = c :: replaceAll old new rest := by
  have hprefix : ¬ old.isPrefixOf (c :: rest) = true := fun hp =>
    h (List.isPrefixOf_iff_prefix.mp hp)
  rw [replaceAll, replaceAfter, if_neg hprefix]
  rfl

/-- A stretch without the first letter of the word stays. -/
theorem replaceAll_append {c : α} {word : List α} {front : List α} (h : c ∉ front)
    (rest : List α) :
    replaceAll (c :: word) new (front ++ rest) = front ++ replaceAll (c :: word) new rest := by
  induction front with
  | nil => rfl
  | cons x front ih =>
      have hne : ¬ (c :: word) <+: x :: (front ++ rest) := fun hp =>
        h (List.mem_cons.mpr (Or.inl (List.cons_prefix_cons.mp hp).1))
      rw [List.cons_append, replaceAll_cons hne,
        ih fun hm => h (List.mem_cons_of_mem x hm), List.cons_append]

theorem replaceAll_of_not_mem {c : α} {word text : List α} (h : c ∉ text) :
    replaceAll (c :: word) new text = text := by
  have hstays : replaceAll (c :: word) new (text ++ []) = text ++ replaceAll (c :: word) new [] :=
    replaceAll_append h []
  rwa [List.append_nil, show replaceAll (c :: word) new [] = [] from rfl, List.append_nil]
    at hstays

end
