import SDownload.Lib.Dict

/-!
# SDownload.Lib.FileSystem

A directory of files as POSIX sees it: names lead to inodes, and an open file is
its inode. Truncating keeps the inode, renaming moves it to another name, and
removing a name leaves the inode to whoever has it open. No inode has two names.

Clients reason by name (`read`) or by inode (`content`); the lemmas say of each
operation what it does to the name or inode it is about and that it leaves the
others alone.
-/

/-- Names, what they lead to, and the bytes of every inode. -/
structure FileSystem (κ β : Type) [DecidableEq κ] where
  names : Dict κ Nat
  contents : List (List β)
  inRange : ∀ name ino, names.get? name = some ino → ino < contents.length
  unique : ∀ name name' ino, names.get? name = some ino → names.get? name' = some ino →
    name = name'

/-- `data` written over `bytes` at `pos`; a hole is filled with the default byte. -/
def writeBytes {β : Type} [Inhabited β] (bytes : List β) (pos : Nat) (data : List β) : List β :=
  bytes.take pos ++ List.replicate (pos - bytes.length) default ++ data ++
    bytes.drop (pos + data.length)

@[simp] theorem writeBytes_end {β : Type} [Inhabited β] (bytes data : List β) :
    writeBytes bytes bytes.length data = bytes ++ data := by
  simp [writeBytes]

/-- `bytes` cut, or filled up with the default byte, to `size`. -/
def truncateBytes {β : Type} [Inhabited β] (bytes : List β) (size : Nat) : List β :=
  bytes.take size ++ List.replicate (size - bytes.length) default

theorem truncateBytes_of_le {β : Type} [Inhabited β] {bytes : List β} {size : Nat}
    (h : size ≤ bytes.length) : truncateBytes bytes size = bytes.take size := by
  rw [truncateBytes, Nat.sub_eq_zero_of_le h, List.replicate_zero, List.append_nil]

namespace FileSystem

variable {κ β : Type} [DecidableEq κ]

def empty : FileSystem κ β where
  names := Dict.empty
  contents := []
  inRange := by simp
  unique := by simp

/-- The file that a name leads to. -/
def lookup (fs : FileSystem κ β) (name : κ) : Option Nat := fs.names.get? name

/-- What a file holds, whether or not a name leads to it. -/
def content (fs : FileSystem κ β) (ino : Nat) : List β := fs.contents.getD ino []

/-- The bytes of the file of that name, if there is one. -/
def read (fs : FileSystem κ β) (name : κ) : Option (List β) := (fs.lookup name).map fs.content

/-- Replace the bytes of an inode. -/
def overwrite (fs : FileSystem κ β) (ino : Nat) (bytes : List β) : FileSystem κ β where
  names := fs.names
  contents := fs.contents.set ino bytes
  inRange := by simpa using fs.inRange
  unique := fs.unique

/-- Give a name to a new, empty file. -/
def create (fs : FileSystem κ β) (name : κ) : FileSystem κ β where
  names := fs.names.set name fs.contents.length
  contents := fs.contents ++ [[]]
  inRange := by
    intro name' ino h
    rw [Dict.get?_set] at h
    rw [List.length_append, List.length_singleton]
    split at h
    · obtain rfl := Option.some.inj h
      exact Nat.lt_succ_self _
    · exact Nat.lt_succ_of_lt (fs.inRange _ _ h)
  unique := by
    have hfresh : ∀ name', fs.names.get? name' ≠ some fs.contents.length := fun name' h =>
      Nat.lt_irrefl _ (fs.inRange _ _ h)
    intro name' name'' ino h h'
    rw [Dict.get?_set] at h h'
    split at h <;> split at h'
    · rename_i h1 h2
      rw [h1, h2]
    · obtain rfl := Option.some.inj h
      exact absurd h' (hfresh _)
    · obtain rfl := Option.some.inj h'
      exact absurd h (hfresh _)
    · exact fs.unique _ _ _ h h'

/-- `open(name, "wb")`: the inode, empty. -/
def openWrite (fs : FileSystem κ β) (name : κ) : Nat × FileSystem κ β :=
  match fs.names.get? name with
  | some ino => (ino, fs.overwrite ino [])
  | none => (fs.contents.length, fs.create name)

/-- Write at a position of an open file. -/
def writeAt [Inhabited β] (fs : FileSystem κ β) (ino pos : Nat) (data : List β) :
    FileSystem κ β :=
  fs.overwrite ino (writeBytes (fs.content ino) pos data)

/-- `os.remove`. -/
def unlink (fs : FileSystem κ β) (name : κ) : FileSystem κ β where
  names := fs.names.erase name
  contents := fs.contents
  inRange := fun _ _ h => fs.inRange _ _ (Dict.get?_erase_eq_some.mp h).2
  unique := fun _ _ _ h h' =>
    fs.unique _ _ _ (Dict.get?_erase_eq_some.mp h).2 (Dict.get?_erase_eq_some.mp h').2

/-- Give an inode a name, taking it from whichever name it had. -/
def relink (fs : FileSystem κ β) (src dst : κ) (ino : Nat)
    (linked : fs.names.get? src = some ino) : FileSystem κ β where
  names := (fs.names.erase src).set dst ino
  contents := fs.contents
  inRange := by
    intro name ino' h
    rw [Dict.get?_set] at h
    split at h
    · obtain rfl := Option.some.inj h
      exact fs.inRange _ _ linked
    · exact fs.inRange _ _ (Dict.get?_erase_eq_some.mp h).2
  unique := by
    have hgone : ∀ name, (fs.names.erase src).get? name ≠ some ino := by
      intro name h
      obtain ⟨hne, h⟩ := Dict.get?_erase_eq_some.mp h
      exact hne (fs.unique _ _ _ h linked)
    intro name name' ino' h h'
    rw [Dict.get?_set] at h h'
    split at h <;> split at h'
    · rename_i h1 h2
      rw [h1, h2]
    · obtain rfl := Option.some.inj h
      exact absurd h' (hgone _)
    · obtain rfl := Option.some.inj h'
      exact absurd h (hgone _)
    · exact fs.unique _ _ _ (Dict.get?_erase_eq_some.mp h).2 (Dict.get?_erase_eq_some.mp h').2

/-- `os.replace`, of a file that is there. -/
def rename (fs : FileSystem κ β) (src dst : κ) : FileSystem κ β :=
  match h : fs.names.get? src with
  | none => fs
  | some ino => fs.relink src dst ino h

variable {fs : FileSystem κ β} {name name' : κ} {ino ino' : Nat}

/-! ### By name -/

theorem lookup_lt (h : fs.lookup name = some ino) : ino < fs.contents.length :=
  fs.inRange _ _ h

theorem lookup_inj (h : fs.lookup name = some ino) (h' : fs.lookup name' = some ino) :
    name = name' :=
  fs.unique _ _ _ h h'

theorem read_of_lookup (h : fs.lookup name = some ino) : fs.read name = some (fs.content ino) := by
  rw [read, h, Option.map_some]

@[simp] theorem read_eq_none_iff : fs.read name = none ↔ fs.lookup name = none := by
  simp [read]

/-- Two file systems that agree on a name's inode and its bytes agree on the file. -/
theorem read_congr {fs' : FileSystem κ β} (hlookup : fs'.lookup name = fs.lookup name)
    (hcontent : ∀ ino, fs.lookup name = some ino → fs'.content ino = fs.content ino) :
    fs'.read name = fs.read name := by
  unfold read
  rw [hlookup]
  cases h : fs.lookup name with
  | none => rfl
  | some ino => simp [hcontent ino h]

/-! ### Writing -/

theorem content_overwrite_self (bytes : List β) (h : ino < fs.contents.length) :
    (fs.overwrite ino bytes).content ino = bytes := by
  simp [content, overwrite, h]

theorem content_overwrite_of_ne (bytes : List β) (h : ino' ≠ ino) :
    (fs.overwrite ino bytes).content ino' = fs.content ino' := by
  simp [content, overwrite, Ne.symm h]

/-- Replacing bytes by themselves. -/
theorem overwrite_content (fs : FileSystem κ β) (ino : Nat) :
    fs.overwrite ino (fs.content ino) = fs := by
  have hsame : fs.contents.set ino (fs.contents.getD ino []) = fs.contents := by
    rcases Nat.lt_or_ge ino fs.contents.length with hlt | hge
    · rw [List.getD_eq_getElem?_getD, List.getElem?_eq_getElem hlt, Option.getD_some,
        List.set_getElem_self]
    · exact List.set_eq_of_length_le hge
  unfold overwrite content
  congr

theorem read_overwrite_self (bytes : List β) (h : fs.lookup name = some ino) :
    (fs.overwrite ino bytes).read name = some bytes := by
  have hlookup : (fs.overwrite ino bytes).lookup name = some ino := h
  rw [read_of_lookup hlookup, content_overwrite_self _ (lookup_lt h)]

theorem read_overwrite_of_ne (bytes : List β) (h : fs.lookup name ≠ some ino) :
    (fs.overwrite ino bytes).read name = fs.read name :=
  read_congr rfl fun _ hino => content_overwrite_of_ne _ fun he => h (he ▸ hino)

/-! ### Opening for writing -/

theorem openWrite_of_some (h : fs.lookup name = some ino) :
    fs.openWrite name = (ino, fs.overwrite ino []) := by
  unfold openWrite
  rw [show fs.names.get? name = some ino from h]

theorem openWrite_of_none (h : fs.lookup name = none) :
    fs.openWrite name = (fs.contents.length, fs.create name) := by
  unfold openWrite
  rw [show fs.names.get? name = none from h]

@[simp] theorem lookup_openWrite_self :
    (fs.openWrite name).2.lookup name = some (fs.openWrite name).1 := by
  cases h : fs.lookup name with
  | some ino => rw [openWrite_of_some h]; exact h
  | none => rw [openWrite_of_none h]; exact Dict.get?_set_self _ _ _

/-- The inode that is opened had the name, or is new. -/
theorem openWrite_fst : fs.lookup name = some (fs.openWrite name).1 ∨
    (fs.openWrite name).1 = fs.contents.length := by
  cases h : fs.lookup name with
  | some ino => rw [openWrite_of_some h]; exact Or.inl rfl
  | none => rw [openWrite_of_none h]; exact Or.inr rfl

theorem length_openWrite : fs.contents.length ≤ (fs.openWrite name).2.contents.length := by
  cases h : fs.lookup name with
  | some ino => rw [openWrite_of_some h]; exact Nat.le_of_eq (List.length_set ..).symm
  | none => rw [openWrite_of_none h]; simp [create]

theorem lookup_openWrite_of_ne (hne : name' ≠ name) :
    (fs.openWrite name).2.lookup name' = fs.lookup name' := by
  cases h : fs.lookup name with
  | some ino => rw [openWrite_of_some h]; rfl
  | none => rw [openWrite_of_none h]; exact Dict.get?_set_of_ne _ _ hne

@[simp] theorem content_openWrite_self :
    (fs.openWrite name).2.content (fs.openWrite name).1 = [] := by
  cases h : fs.lookup name with
  | some ino => rw [openWrite_of_some h]; exact content_overwrite_self _ (lookup_lt h)
  | none => rw [openWrite_of_none h]; simp [content, create]

/-- Opening touches no inode of another name. -/
theorem content_openWrite_of_ne (hne : name' ≠ name) (hino : fs.lookup name' = some ino) :
    (fs.openWrite name).2.content ino = fs.content ino := by
  cases h : fs.lookup name with
  | some ino' =>
      rw [openWrite_of_some h]
      exact content_overwrite_of_ne _ fun he => hne (lookup_inj hino (he ▸ h))
  | none =>
      rw [openWrite_of_none h]
      simp [content, create, List.getElem?_append_left (lookup_lt hino)]

@[simp] theorem read_openWrite_self : (fs.openWrite name).2.read name = some [] := by
  rw [read_of_lookup lookup_openWrite_self, content_openWrite_self]

theorem read_openWrite_of_ne (hne : name' ≠ name) :
    (fs.openWrite name).2.read name' = fs.read name' :=
  read_congr (lookup_openWrite_of_ne hne) fun _ h => content_openWrite_of_ne hne h

/-- Emptying an empty file. -/
theorem openWrite_of_read_nil (h : fs.read name = some []) : (fs.openWrite name).2 = fs := by
  cases hlookup : fs.lookup name with
  | none => simp [read, hlookup] at h
  | some ino =>
      rw [read_of_lookup hlookup] at h
      rw [openWrite_of_some hlookup, ← Option.some.inj h]
      exact overwrite_content fs ino

/-! ### Removing and renaming -/

theorem lookup_unlink : (fs.unlink name).lookup name' = if name' = name then none
    else fs.lookup name' :=
  Dict.get?_erase _ _ _

theorem read_unlink : (fs.unlink name).read name' = if name' = name then none
    else fs.read name' := by
  unfold read
  rw [lookup_unlink]
  split <;> rfl

theorem rename_of_some {src dst : κ} (h : fs.lookup src = some ino) :
    fs.rename src dst = fs.relink src dst ino h := by
  unfold rename
  split
  · rename_i h'
    cases h'.symm.trans h
  · rename_i ino' h'
    obtain rfl : ino' = ino := Option.some.inj (h'.symm.trans h)
    rfl

theorem content_rename {src dst : κ} : (fs.rename src dst).content ino = fs.content ino := by
  unfold rename
  split <;> rfl

theorem length_rename {src dst : κ} :
    (fs.rename src dst).contents.length = fs.contents.length := by
  unfold rename
  split <;> rfl

theorem lookup_rename {src dst : κ} (h : fs.lookup src = some ino) :
    (fs.rename src dst).lookup name =
      if name = dst then some ino else if name = src then none else fs.lookup name := by
  rw [rename_of_some h]
  show ((fs.names.erase src).set dst ino).get? name = _
  rw [Dict.get?_set, Dict.get?_erase]
  rfl

theorem read_rename {src dst : κ} (h : fs.lookup src = some ino) :
    (fs.rename src dst).read name =
      if name = dst then fs.read src else if name = src then none else fs.read name := by
  unfold read
  rw [lookup_rename h, h]
  split
  · exact congrArg some content_rename
  · split
    · rfl
    · exact congrArg (Option.map · _) (funext fun _ => content_rename)

end FileSystem
