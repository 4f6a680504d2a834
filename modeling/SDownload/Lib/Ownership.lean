import SDownload.Lib.FileSystem

/-!
# SDownload.Lib.Ownership

Who may touch which files of a shared directory.

An owner is a set of names. `Within own fs fs'` is what its operations may do: other
names lead to the same bytes as before, and an inode gets an owned name only if it
is new or had one already. The owner's open files are `Held`: no other name leads
to them, so that writing to them is within its own. Both are kept by everything the
owner does, and by everything that the owner of other names does.
-/

namespace FileSystem

variable {κ β : Type} [DecidableEq κ] {own own' : κ → Prop} {fs fs' fs'' : FileSystem κ β}
  {name src dst : κ} {ino : Nat}

/-- What may happen to a directory by the operations of the owner of these names. -/
structure Within (own : κ → Prop) (fs fs' : FileSystem κ β) : Prop where
  lookup : ∀ name, ¬ own name → fs'.lookup name = fs.lookup name
  content : ∀ name ino, ¬ own name → fs.lookup name = some ino → fs'.content ino = fs.content ino
  length : fs.contents.length ≤ fs'.contents.length
  origin : ∀ name ino, own name → fs'.lookup name = some ino →
    fs.contents.length ≤ ino ∨ ∃ name', own name' ∧ fs.lookup name' = some ino

/-- An inode that only the owner's names lead to, if any. -/
structure Held (own : κ → Prop) (fs : FileSystem κ β) (ino : Nat) : Prop where
  lt : ino < fs.contents.length
  owned : ∀ name, fs.lookup name = some ino → own name

/-! ### What is within -/

namespace Within

theorem refl (own : κ → Prop) (fs : FileSystem κ β) : Within own fs fs :=
  ⟨fun _ _ => rfl, fun _ _ _ _ => rfl, Nat.le_refl _, fun name _ hown h => Or.inr ⟨name, hown, h⟩⟩

theorem trans (h : Within own fs fs') (h' : Within own fs' fs'') : Within own fs fs'' where
  lookup name hname := (h'.lookup name hname).trans (h.lookup name hname)
  content name ino hname hino :=
    (h'.content name ino hname ((h.lookup name hname).trans hino)).trans
      (h.content name ino hname hino)
  length := Nat.le_trans h.length h'.length
  origin name ino hown hino := by
    rcases h'.origin name ino hown hino with hnew | ⟨name', hown', hino'⟩
    · exact Or.inl (Nat.le_trans h.length hnew)
    · exact h.origin name' ino hown' hino'

/-- Replacing the bytes of an open file. -/
theorem overwrite (hheld : Held own fs ino) (bytes : List β) :
    Within own fs (fs.overwrite ino bytes) where
  lookup _ _ := rfl
  content name _ hname hino :=
    content_overwrite_of_ne bytes fun he => hname (hheld.owned name (he ▸ hino))
  length := Nat.le_of_eq (List.length_set ..).symm
  origin name _ hown h := Or.inr ⟨name, hown, h⟩

theorem writeAt [Inhabited β] (hheld : Held own fs ino) (pos : Nat) (data : List β) :
    Within own fs (fs.writeAt ino pos data) :=
  overwrite hheld _

theorem openWrite (hown : own name) : Within own fs (fs.openWrite name).2 where
  lookup name' hname' := lookup_openWrite_of_ne fun he => hname' (he ▸ hown)
  content name' ino hname' := content_openWrite_of_ne fun he => hname' (he ▸ hown)
  length := length_openWrite
  origin name' ino hown' hino := by
    by_cases hne : name' = name
    · subst hne
      rw [lookup_openWrite_self] at hino
      obtain rfl := Option.some.inj hino
      have hino : fs.lookup name' = some (fs.openWrite name').1 ∨ _ := openWrite_fst
      rcases hino with hold | hnew
      · exact Or.inr ⟨name', hown, hold⟩
      · exact Or.inl (Nat.le_of_eq hnew.symm)
    · rw [lookup_openWrite_of_ne hne] at hino
      exact Or.inr ⟨name', hown', hino⟩

theorem unlink (hown : own name) : Within own fs (fs.unlink name) where
  lookup name' hname' := by
    have hne : name' ≠ name := fun he => hname' (he ▸ hown)
    rw [lookup_unlink, if_neg hne]
  content _ _ _ _ := rfl
  length := Nat.le_refl _
  origin name' ino hown' hino := by
    rw [lookup_unlink] at hino
    split at hino
    · cases hino
    · exact Or.inr ⟨name', hown', hino⟩

theorem rename (hsrc : own src) (hdst : own dst) : Within own fs (fs.rename src dst) := by
  cases hino : fs.lookup src with
  | none =>
      have hsame : fs.rename src dst = fs := by
        unfold FileSystem.rename
        split
        · rfl
        · rename_i h
          cases hino.symm.trans h
      rw [hsame]
      exact refl own fs
  | some ino =>
      have hlookup : ∀ name, (fs.rename src dst).lookup name =
          if name = dst then some ino else if name = src then none else fs.lookup name :=
        fun _ => lookup_rename hino
      refine ⟨fun name hname => ?_, fun _ _ _ _ => content_rename, Nat.le_of_eq length_rename.symm,
        ?_⟩
      · have hne_dst : name ≠ dst := fun he => hname (he ▸ hdst)
        have hne_src : name ≠ src := fun he => hname (he ▸ hsrc)
        rw [hlookup, if_neg hne_dst, if_neg hne_src]
      · intro name ino' hown h
        rw [hlookup] at h
        split at h
        · exact Or.inr ⟨src, hsrc, hino.trans h⟩
        · split at h
          · cases h
          · exact Or.inr ⟨name, hown, h⟩

end Within

/-! ### What stays held -/

namespace Held

theorem of_lookup (hown : own name) (h : fs.lookup name = some ino) : Held own fs ino where
  lt := lookup_lt h
  owned _ h' := lookup_inj h h' ▸ hown

theorem openWrite (hown : own name) :
    Held own (fs.openWrite name).2 (fs.openWrite name).1 :=
  of_lookup hown lookup_openWrite_self

/-- The owner goes on. -/
theorem mono (h : Held own fs ino) (hwithin : Within own fs fs') : Held own fs' ino where
  lt := Nat.lt_of_lt_of_le h.lt hwithin.length
  owned name hino := by
    by_contra hname
    rw [hwithin.lookup name hname] at hino
    exact hname (h.owned name hino)

/-- The owner of other names goes on. -/
theorem beside (h : Held own fs ino) (hwithin : Within own' fs fs')
    (hapart : ∀ name, own name → ¬ own' name) : Held own fs' ino where
  lt := Nat.lt_of_lt_of_le h.lt hwithin.length
  owned name hino := by
    by_cases hname : own' name
    · rcases hwithin.origin name ino hname hino with hnew | ⟨name', hown', hino'⟩
      · exact absurd h.lt (Nat.not_lt.mpr hnew)
      · exact absurd hown' (hapart name' (h.owned name' hino'))
    · rw [hwithin.lookup name hname] at hino
      exact h.owned name hino

end Held

end FileSystem
