import Mathlib.Data.List.Basic

/-!
# SDownload.Lib.Paths

POSIX paths, as far as joining a key to a directory goes.

A directory is the list of its components from the root on. A key is read one
component after the other: nothing and `.` stay, `..` goes to the parent, and a
key that starts with a slash starts again at the root (`resolve`). Links are not
followed.

Whether a key names something directly inside **every** directory does not depend
on the directory: it is so when the key's components, read from depth 0, never go
above it and end at depth 1 (`isChild_iff`). For a key that is built around a text
(`leadsBack_iff`) this is a matter of what stands between the first slash of the
text and its last.
-/

namespace Paths

/-- A component. -/
abbrev Name := List Char

/-- A component that names an entry of a directory. -/
def IsName (seg : Name) : Prop := seg ≠ [] ∧ seg ≠ ['.'] ∧ seg ≠ ['.', '.'] ∧ '/' ∉ seg

instance (seg : Name) : Decidable (IsName seg) :=
  inferInstanceAs (Decidable (_ ∧ _ ∧ _ ∧ _))

/-- The directory one component further. -/
def descend (dir : List Name) (seg : Name) : List Name :=
  if seg = [] ∨ seg = ['.'] then dir
  else if seg = ['.', '.'] then dir.dropLast
  else dir ++ [seg]

/-- The components of a key. -/
def components (key : List Char) : List Name := key.splitOn '/'

/-- What a key joined to a directory names. -/
def resolve (dir : List Name) (key : List Char) : List Name :=
  (components key).foldl descend (if key.head? = some '/' then [] else dir)

/-- The key names something directly inside the directory. -/
def IsChild (dir : List Name) (key : List Char) : Prop := ∃ name, resolve dir key = dir ++ [name]

/-- How deep below a directory of that depth these components lead, if they never lead above the
directory of depth 0. -/
def depthAfter : Nat → List Name → Option Nat
  | depth, [] => some depth
  | depth, seg :: rest =>
      if seg = [] ∨ seg = ['.'] then depthAfter depth rest
      else if seg = ['.', '.'] then
        match depth with
        | 0 => none
        | depth + 1 => depthAfter depth rest
      else depthAfter (depth + 1) rest

/-! ### Depths -/

theorem depthAfter_append {depth : Nat} {xs ys : List Name} :
    depthAfter depth (xs ++ ys) = (depthAfter depth xs).bind fun d => depthAfter d ys := by
  induction xs generalizing depth with
  | nil => rfl
  | cons seg rest ih =>
      simp only [List.cons_append, depthAfter]
      split
      · exact ih
      · split
        · cases depth with
          | zero => rfl
          | succ depth => exact ih
        · exact ih

theorem depthAfter_name {depth : Nat} {seg : Name} (h : IsName seg) (rest : List Name) :
    depthAfter depth (seg :: rest) = depthAfter (depth + 1) rest := by
  obtain ⟨hempty, hdot, hparent, -⟩ := h
  simp only [depthAfter, if_neg (not_or.mpr ⟨hempty, hdot⟩), if_neg hparent]

/-- One component leads at most one deeper. -/
theorem depthAfter_singleton_le {depth d : Nat} {seg : Name}
    (h : depthAfter depth [seg] = some d) : d ≤ depth + 1 := by
  simp only [depthAfter] at h
  split at h
  · obtain rfl := Option.some.inj h
    exact Nat.le_succ _
  · split at h
    · cases depth with
      | zero => cases h
      | succ depth =>
          obtain rfl := Option.some.inj h
          omega
    · obtain rfl := Option.some.inj h
      exact Nat.le_refl _

/-- Only a name leads deeper. -/
theorem isName_of_depthAfter {depth : Nat} {seg : Name} (hslash : '/' ∉ seg)
    (h : depthAfter depth [seg] = some (depth + 1)) : IsName seg := by
  simp only [depthAfter] at h
  split at h
  · have := Option.some.inj h
    omega
  · rename_i hstays
    split at h
    · cases depth with
      | zero => cases h
      | succ depth =>
          have := Option.some.inj h
          omega
    · rename_i hparent
      exact ⟨fun he => hstays (Or.inl he), fun he => hstays (Or.inr he), hparent, hslash⟩

/-! ### Keys and directories -/

/-- Components that never lead above a directory lead as deep below any. -/
theorem foldl_descend {dir : List Name} :
    ∀ {segs stack : List Name} {d : Nat}, depthAfter stack.length segs = some d →
      ∃ stack', segs.foldl descend (dir ++ stack) = dir ++ stack' ∧ stack'.length = d := by
  intro segs
  induction segs with
  | nil => exact fun {stack d} h => ⟨stack, rfl, Option.some.inj h⟩
  | cons seg rest ih =>
      intro stack d h
      simp only [depthAfter] at h
      rw [List.foldl_cons, descend]
      split at h
      · rename_i hstays
        rw [if_pos hstays]
        exact ih h
      · rename_i hstays
        rw [if_neg hstays]
        split at h
        · rename_i hparent
          rw [if_pos hparent]
          rcases List.eq_nil_or_concat stack with rfl | ⟨front, last, rfl⟩
          · cases h
          · rw [List.concat_eq_append, List.length_append] at h
            rw [List.concat_eq_append, ← List.append_assoc, List.dropLast_concat]
            exact ih h
        · rename_i hparent
          rw [if_neg hparent, List.append_assoc]
          refine ih ?_
          rw [List.length_append]
          exact h

/-- A component that is neither in the directory nor in the key is not in the result. -/
theorem not_mem_foldl_descend {fresh : Name} :
    ∀ {segs dir : List Name}, fresh ∉ dir → fresh ∉ segs → fresh ∉ segs.foldl descend dir := by
  intro segs
  induction segs with
  | nil => exact fun hdir _ => hdir
  | cons seg rest ih =>
      intro dir hdir hsegs
      obtain ⟨hne, hrest⟩ := not_or.mp (mt List.mem_cons.mpr hsegs)
      refine ih ?_ hrest
      unfold descend
      split
      · exact hdir
      · split
        · exact fun h => hdir ((List.dropLast_sublist dir).subset h)
        · intro h
          rcases List.mem_append.mp h with h | h
          · exact hdir h
          · exact hne (List.mem_singleton.mp h)

/-- Components that lead above a directory leave it for good. -/
theorem not_mem_of_escapes {fresh : Name} :
    ∀ {segs stack : List Name}, depthAfter stack.length segs = none → fresh ∉ stack →
      fresh ∉ segs → fresh ∉ segs.foldl descend (fresh :: stack) := by
  intro segs
  induction segs with
  | nil => exact fun h => absurd h nofun
  | cons seg rest ih =>
      intro stack h hstack hsegs
      obtain ⟨hne, hrest⟩ := not_or.mp (mt List.mem_cons.mpr hsegs)
      simp only [depthAfter] at h
      rw [List.foldl_cons, descend]
      split at h
      · rename_i hstays
        rw [if_pos hstays]
        exact ih h hstack hrest
      · rename_i hstays
        rw [if_neg hstays]
        split at h
        · rename_i hparent
          rw [if_pos hparent]
          rcases List.eq_nil_or_concat stack with rfl | ⟨front, last, rfl⟩
          · -- here the directory itself is left
            exact not_mem_foldl_descend (by simp) hrest
          · rw [List.concat_eq_append, List.length_append] at h
            rw [List.concat_eq_append, ← List.cons_append, List.dropLast_concat]
            exact ih h (fun hin => hstack (by simp [hin])) hrest
        · rename_i hparent
          rw [if_neg hparent, List.cons_append]
          refine ih ?_ ?_ hrest
          · rw [List.length_append]
            exact h
          · intro hin
            rcases List.mem_append.mp hin with hin | hin
            · exact hstack hin
            · exact hne (List.mem_singleton.mp hin)

/-- A name longer than any component. -/
theorem exists_fresh (segs : List Name) : ∃ fresh, IsName fresh ∧ fresh ∉ segs := by
  have hlen : ∀ seg ∈ segs, seg.length ≤ segs.flatten.length := fun seg hseg =>
    (List.sublist_flatten_of_mem hseg).length_le
  refine ⟨List.replicate (segs.flatten.length + 3) 'a', ⟨?_, ?_, ?_, ?_⟩, fun h => ?_⟩
  · exact fun h => absurd (congrArg List.length h) (by simp)
  · exact fun h => absurd (congrArg List.length h) (by simp)
  · exact fun h => absurd (congrArg List.length h) (by simp)
  · simp
  · have := hlen _ h
    rw [List.length_replicate] at this
    omega

/-- **Children.** A key names something directly inside every directory if and only if it does not
start at the root, never leads above the directory and ends one below it. -/
theorem isChild_iff {key : List Char} :
    (∀ dir : List Name, (∀ seg ∈ dir, IsName seg) → IsChild dir key) ↔
      key.head? ≠ some '/' ∧ depthAfter 0 (components key) = some 1 := by
  constructor
  · intro h
    obtain ⟨fresh, hname, hfresh⟩ := exists_fresh (components key)
    obtain ⟨name, hresolve⟩ := h [fresh] (by simpa using hname)
    have hmem : fresh ∈ resolve [fresh] key := by
      rw [hresolve]
      exact List.mem_append_left _ (List.mem_singleton_self _)
    unfold resolve at hresolve hmem
    have hrelative : key.head? ≠ some '/' := by
      intro habsolute
      rw [if_pos habsolute] at hmem
      exact not_mem_foldl_descend List.not_mem_nil hfresh hmem
    rw [if_neg hrelative] at hresolve hmem
    refine ⟨hrelative, ?_⟩
    cases hdepth : depthAfter 0 (components key) with
    | none => exact absurd hmem (not_mem_of_escapes hdepth List.not_mem_nil hfresh)
    | some d =>
        obtain ⟨stack, hstack, rfl⟩ := @foldl_descend [fresh] (components key) [] d hdepth
        rw [List.append_nil, hresolve] at hstack
        rw [← List.append_cancel_left hstack]
        rfl
  · intro h dir _
    obtain ⟨hrelative, hdepth⟩ := h
    obtain ⟨stack, hstack, hlen⟩ := @foldl_descend dir (components key) [] 1 hdepth
    obtain ⟨name, rfl⟩ := List.length_eq_one_iff.mp hlen
    refine ⟨name, ?_⟩
    unfold resolve
    rw [if_neg hrelative]
    rwa [List.append_nil] at hstack

/-! ### Keys around a text -/

/-- What stands between the first slash of a text and its last leads from depth 1 back to the
directory; a text without a slash has nothing there. -/
def LeadsBack (text : List Char) : Prop :=
  '/' ∉ text ∨ depthAfter 1 (components text).tail.dropLast = some 0

instance (text : List Char) : Decidable (LeadsBack text) :=
  inferInstanceAs (Decidable (_ ∨ _))

/-- The first component of a text, and the last, are names. -/
def EndsInNames (text : List Char) : Prop :=
  (∀ seg ∈ (components text).head?, IsName seg) ∧ ∀ seg ∈ (components text).getLast?, IsName seg

instance (text : List Char) : Decidable (EndsInNames text) :=
  inferInstanceAs (Decidable (_ ∧ _))

theorem components_of_not_mem {text : List Char} (h : '/' ∉ text) : components text = [text] :=
  List.splitOn_eq_singleton h

/-- A text with a slash has a first component and a last. -/
theorem components_of_mem {text : List Char} (h : '/' ∈ text) :
    ∃ first middle last, components text = first :: (middle ++ [last]) := by
  obtain ⟨before, after, rfl⟩ := List.append_of_mem h
  obtain ⟨first, xs, hfirst⟩ := List.exists_cons_of_ne_nil (List.splitOn_ne_nil '/' before)
  have hafter := List.splitOn_ne_nil '/' after
  unfold components
  rw [List.splitOn_append_cons_self, hfirst]
  refine ⟨first, xs ++ (after.splitOn '/').dropLast, (after.splitOn '/').getLast hafter, ?_⟩
  rw [List.append_assoc, List.dropLast_append_getLast, List.cons_append]

/-- No component has a slash. -/
theorem slash_not_mem_of_mem_components {text : List Char} :
    ∀ seg ∈ components text, '/' ∉ seg := by
  induction text with
  | nil =>
      intro seg hseg
      obtain rfl := List.mem_singleton.mp hseg
      exact List.not_mem_nil
  | cons c rest ih =>
      unfold components at ih ⊢
      intro seg hseg
      rw [List.splitOn_cons_eq_if_modifyHead] at hseg
      split at hseg
      · rcases List.mem_cons.mp hseg with rfl | hseg
        · exact List.not_mem_nil
        · exact ih seg hseg
      · rename_i hc
        obtain ⟨first, xs, hfirst⟩ := List.exists_cons_of_ne_nil (List.splitOn_ne_nil '/' rest)
        rw [hfirst] at hseg ih
        rcases List.mem_cons.mp hseg with rfl | hseg
        · intro hin
          rcases List.mem_cons.mp hin with rfl | hin
          · exact hc (beq_self_eq_true _)
          · exact ih first List.mem_cons_self hin
        · exact ih seg (List.mem_cons_of_mem _ hseg)

/-- What stands before a text belongs to its first component. -/
theorem components_prefix {front text : List Char} (hfront : '/' ∉ front) {first : Name}
    {rest : List Name} (h : components text = first :: rest) :
    components (front ++ text) = (front ++ first) :: rest := by
  induction front with
  | nil => exact h
  | cons c front ih =>
      have hc : (c == '/') = false :=
        beq_eq_false_iff_ne.mpr fun he => hfront (he ▸ List.mem_cons_self)
      unfold components at ih ⊢
      rw [List.cons_append, List.splitOn_cons_eq_if_modifyHead, hc,
        ih fun hin => hfront (List.mem_cons_of_mem _ hin)]
      rfl

/-- What stands after a text belongs to its last component. -/
theorem components_suffix {back : List Char} (hback : '/' ∉ back) :
    ∀ {text : List Char} {front : List Name} {last : Name}, components text = front ++ [last] →
      components (text ++ back) = front ++ [last ++ back] := by
  intro text
  induction text with
  | nil =>
      intro front last h
      obtain ⟨rfl, hlast⟩ := List.append_inj' (show [] ++ [[]] = front ++ [last] from h) rfl
      obtain rfl := (List.cons.inj hlast).1
      exact components_of_not_mem hback
  | cons c rest ih =>
      intro front last h
      obtain ⟨xs, x, hrest⟩ : ∃ xs x, components rest = xs ++ [x] :=
        ⟨_, _, (List.dropLast_append_getLast (List.splitOn_ne_nil '/' rest)).symm⟩
      have hsuffix := ih hrest
      unfold components at h hrest hsuffix ⊢
      rw [List.splitOn_cons_eq_if_modifyHead, hrest] at h
      rw [List.cons_append, List.splitOn_cons_eq_if_modifyHead, hsuffix]
      split at h
      · rename_i hc
        rw [if_pos hc]
        rw [← List.cons_append] at h
        obtain ⟨rfl, hlast⟩ := List.append_inj' h rfl
        obtain rfl := (List.cons.inj hlast).1
        rfl
      · rename_i hc
        rw [if_neg hc]
        cases xs with
        | nil =>
            obtain ⟨rfl, hlast⟩ :=
              List.append_inj' (show [] ++ [c :: x] = front ++ [last] from h) rfl
            obtain rfl := (List.cons.inj hlast).1
            rfl
        | cons y ys =>
            obtain ⟨rfl, hlast⟩ :=
              List.append_inj' (show ((c :: y) :: ys) ++ [x] = front ++ [last] from h) rfl
            obtain rfl := (List.cons.inj hlast).1
            rfl

/-- Three characters without a slash are a name. -/
theorem isName_of_length {seg : Name} (hlen : 3 ≤ seg.length) (hslash : '/' ∉ seg) :
    IsName seg := by
  refine ⟨?_, ?_, ?_, hslash⟩
  · exact fun he => absurd (he ▸ hlen) (by decide)
  · exact fun he => absurd (he ▸ hlen) (by decide)
  · exact fun he => absurd (he ▸ hlen) (by decide)

/-- From one deeper, the same components lead one deeper. -/
theorem depthAfter_succ :
    ∀ {segs : List Name} {depth d : Nat}, depthAfter depth segs = some d →
      depthAfter (depth + 1) segs = some (d + 1) := by
  intro segs
  induction segs with
  | nil => exact fun h => congrArg (Option.map (· + 1)) h
  | cons seg rest ih =>
      intro depth d h
      simp only [depthAfter] at h ⊢
      split
      · rename_i hstays
        rw [if_pos hstays] at h
        exact ih h
      · rename_i hstays
        rw [if_neg hstays] at h
        split
        · rename_i hparent
          rw [if_pos hparent] at h
          cases depth with
          | zero => cases h
          | succ depth => exact ih h
        · rename_i hparent
          rw [if_neg hparent] at h
          exact ih h

/-- What a text with a slash leads back to. -/
theorem leadsBack_of_components {text : List Char} {first last : Name} {middle : List Name}
    (hslash : '/' ∈ text) (h : components text = first :: (middle ++ [last])) :
    LeadsBack text ↔ depthAfter 1 middle = some 0 := by
  unfold LeadsBack
  rw [h, List.tail_cons, List.dropLast_concat]
  exact or_iff_right fun hnot => hnot hslash

/-- **A key around a text**, whose first and last characters are not the text's, is a child of every
directory if and only if the text leads back. -/
theorem isChild_around_iff {front text back : List Char} (hfront : '/' ∉ front)
    (hback : '/' ∉ back) (hfrontLen : 3 ≤ front.length) (hbackLen : 3 ≤ back.length) :
    (∀ dir : List Name, (∀ seg ∈ dir, IsName seg) → IsChild dir (front ++ (text ++ back))) ↔
      LeadsBack text := by
  have hhead : (front ++ (text ++ back)).head? ≠ some '/' := by
    cases front with
    | nil => exact absurd hfrontLen (by decide)
    | cons c front =>
        intro he
        exact hfront (Option.some.inj he ▸ List.mem_cons_self)
  rw [isChild_iff, and_iff_right hhead]
  by_cases hslash : '/' ∈ text
  · obtain ⟨first, middle, last, h⟩ := components_of_mem hslash
    have hno := @slash_not_mem_of_mem_components text
    rw [h] at hno
    have hfirst : IsName (front ++ first) :=
      isName_of_length (by rw [List.length_append]; omega) fun hin =>
        (List.mem_append.mp hin).elim hfront (hno first List.mem_cons_self)
    have hlast : IsName (last ++ back) :=
      isName_of_length (by rw [List.length_append]; omega) fun hin =>
        (List.mem_append.mp hin).elim (hno last (by simp)) hback
    have hsuffix : components (text ++ back) = (first :: middle) ++ [last ++ back] :=
      components_suffix hback (h.trans (List.cons_append ..).symm)
    have hkey : components (front ++ (text ++ back)) =
        (front ++ first) :: (middle ++ [last ++ back]) := components_prefix hfront hsuffix
    rw [leadsBack_of_components hslash h, hkey, depthAfter_name hfirst, depthAfter_append]
    cases depthAfter 1 middle with
    | none => exact ⟨nofun, nofun⟩
    | some d =>
        rw [Option.bind_some, depthAfter_name hlast, depthAfter, Option.some.injEq,
          Option.some.injEq]
        omega
  · have hno : '/' ∉ front ++ (text ++ back) := by
      intro hin
      rcases List.mem_append.mp hin with hin | hin
      · exact hfront hin
      · exact (List.mem_append.mp hin).elim hslash hback
    rw [components_of_not_mem hno, depthAfter_name (isName_of_length
      (by rw [List.length_append]; omega) hno)]
    exact iff_of_true rfl (Or.inl hslash)

/-- **A text by itself** that leads back is a child of every directory if and only if it begins and
ends with a name. -/
theorem isChild_text_iff {text : List Char} (hback : LeadsBack text) :
    (∀ dir : List Name, (∀ seg ∈ dir, IsName seg) → IsChild dir text) ↔ EndsInNames text := by
  rw [isChild_iff]
  unfold EndsInNames
  by_cases hslash : '/' ∈ text
  · obtain ⟨first, middle, last, h⟩ := components_of_mem hslash
    have hmiddle := (leadsBack_of_components hslash h).mp hback
    have hno := @slash_not_mem_of_mem_components text
    have hgetLast : (components text).getLast? = some last := by
      rw [h, ← List.cons_append, List.getLast?_concat]
    rw [h] at hno
    rw [hgetLast, h]
    have hsplit : depthAfter 0 (first :: (middle ++ [last])) =
        (depthAfter 0 [first]).bind fun d => (depthAfter d middle).bind fun d' =>
          depthAfter d' [last] := by
      rw [← List.singleton_append, depthAfter_append]
      congr 1
      funext d
      exact depthAfter_append
    constructor
    · intro hchild
      obtain ⟨-, hdepth⟩ := hchild
      rw [hsplit] at hdepth
      obtain ⟨d, hfirst, hrest⟩ := Option.bind_eq_some_iff.mp hdepth
      obtain ⟨d', hmiddle', hlast⟩ := Option.bind_eq_some_iff.mp hrest
      have hle := depthAfter_singleton_le hfirst
      -- the middle leads back to where it begins, so the first component goes one down
      obtain rfl : d = 1 := by
        by_contra hne
        obtain rfl : d = 0 := by omega
        cases (depthAfter_succ hmiddle').symm.trans hmiddle
      obtain rfl := Option.some.inj (hmiddle'.symm.trans hmiddle)
      refine ⟨fun seg hseg => ?_, fun seg hseg => ?_⟩
      · obtain rfl := Option.some.inj hseg
        exact isName_of_depthAfter (hno _ List.mem_cons_self) hfirst
      · obtain rfl := Option.some.inj hseg
        exact isName_of_depthAfter (hno _ (by simp)) hlast
    · intro hnames
      have hfirst : IsName first := hnames.1 first rfl
      have hlast : IsName last := hnames.2 last rfl
      refine ⟨fun hhead => ?_, ?_⟩
      · -- a key that starts at the root has nothing before its first slash
        obtain ⟨rest, rfl⟩ : ∃ rest, text = '/' :: rest := by
          cases text with
          | nil => cases hhead
          | cons c rest => exact ⟨rest, by rw [Option.some.inj hhead]⟩
        have hempty : components ('/' :: rest) = [] :: components rest :=
          List.splitOn_cons_eq_if_modifyHead '/' rest
        rw [hempty] at h
        exact hfirst.1 (List.cons.inj h).1.symm
      · rw [hsplit, depthAfter_name hfirst, depthAfter, Option.bind_some, hmiddle,
          Option.bind_some, depthAfter_name hlast]
        rfl
  · rw [components_of_not_mem hslash]
    constructor
    · intro hchild
      have hname := isName_of_depthAfter hslash hchild.2
      exact ⟨fun seg hseg => Option.some.inj hseg ▸ hname,
        fun seg hseg => Option.some.inj hseg ▸ hname⟩
    · intro hnames
      have hname : IsName text := hnames.1 text rfl
      refine ⟨fun hhead => ?_, ?_⟩
      · exact hslash (List.mem_of_mem_head? (Option.mem_def.mpr hhead))
      · rw [depthAfter_name hname]
        rfl

end Paths
