import Mathlib.Data.List.Sort

/-!
# SDownload.Models.Chunk

The byte ranges a download is cut into (`chunk_models.py`).

A `ChunkRange` is **inclusive** at both ends and an absent end stands for EOF.
Three readings of that absent end coexist in the program: `None` in the plan,
infinity in the coverage search, and the file size once a cursor has to move
past the range. `ChunkRange.stop` is the last one; `ChunkRange.Has` is the byte
set all three are about.
-/

namespace SDownload

/-- `ChunkRange`: first byte and last byte, `none` meaning EOF. -/
structure ChunkRange where
  start : Int
  endByte : Option Int
  deriving Repr, DecidableEq, Inhabited

namespace ChunkRange

/-- `ChunkRange.__str__`. -/
def str (r : ChunkRange) : String :=
  toString r.start ++ "_" ++ (match r.endByte with | some e => toString e | none => "EOF")

/-- `ChunkRange.length`. -/
def length (r : ChunkRange) : Option Int :=
  r.endByte.map fun e => e - r.start + 1

/-- `ChunkRange.__contains__` on another range. -/
def contains (r item : ChunkRange) : Bool :=
  if item.start < r.start then false
  else
    match r.endByte, item.endByte with
    | some _, none => false
    | some e, some e' => if e < e' then false else if e' < item.start then false else true
    | none, some e' => if e' < item.start then false else true
    | none, none => true

/-- A bounded range that is contained in another. -/
theorem of_contains {r item : ChunkRange} {e : Int} (hend : item.endByte = some e)
    (h : r.contains item = true) :
    r.start ≤ item.start ∧ item.start ≤ e ∧ ∀ e' ∈ r.endByte, e ≤ e' := by
  obtain ⟨s, e'⟩ := r
  obtain ⟨s', e''⟩ := item
  obtain rfl : e'' = some e := hend
  unfold contains at h
  cases e' with
  | none => grind
  | some e' => grind

/-- The first byte after the range, in a file of `fileSize` bytes. -/
def stop (fileSize : Int) (r : ChunkRange) : Int :=
  match r.endByte with
  | some e => e + 1
  | none => fileSize

@[simp] theorem stop_some (fileSize s e : Int) : stop fileSize ⟨s, some e⟩ = e + 1 := rfl
@[simp] theorem stop_none (fileSize s : Int) : stop fileSize ⟨s, none⟩ = fileSize := rfl

/-- Byte `x` belongs to the range; an open range has every byte from its start on. -/
def Has (r : ChunkRange) (x : Int) : Prop :=
  r.start ≤ x ∧ ∀ e ∈ r.endByte, x ≤ e

/-- Within the file, the bytes of a range are those between its start and its stop. -/
theorem has_iff_lt_stop {fileSize x : Int} (r : ChunkRange) (hx : x < fileSize) :
    r.Has x ↔ r.start ≤ x ∧ x < r.stop fileSize := by
  obtain ⟨s, e⟩ := r
  cases e with
  | none => simp [Has, hx]
  | some e => simp only [Has, stop_some, Option.mem_some_iff, forall_eq', Int.lt_add_one_iff]

/-- A range a caller may ask for in a file of `fileSize` bytes: not empty and not reaching
outside `[0, fileSize)`. -/
structure InFile (fileSize : Int) (r : ChunkRange) : Prop where
  start_nonneg : 0 ≤ r.start
  start_lt : r.start < fileSize
  start_le_end : ∀ e ∈ r.endByte, r.start ≤ e
  end_lt : ∀ e ∈ r.endByte, e < fileSize

instance (fileSize : Int) (r : ChunkRange) : Decidable (r.InFile fileSize) :=
  decidable_of_iff ((0 ≤ r.start ∧ r.start < fileSize) ∧
      ((∀ e ∈ r.endByte, r.start ≤ e) ∧ ∀ e ∈ r.endByte, e < fileSize))
    ⟨fun h => ⟨h.1.1, h.1.2, h.2.1, h.2.2⟩,
      fun h => ⟨⟨h.start_nonneg, h.start_lt⟩, h.start_le_end, h.end_lt⟩⟩

theorem InFile.start_lt_stop {fileSize : Int} {r : ChunkRange} (h : r.InFile fileSize) :
    r.start < r.stop fileSize := by
  obtain ⟨s, e⟩ := r
  cases e with
  | none => exact h.start_lt
  | some e => exact Int.lt_add_one_of_le (h.start_le_end e rfl)

theorem InFile.stop_le {fileSize : Int} {r : ChunkRange} (h : r.InFile fileSize) :
    r.stop fileSize ≤ fileSize := by
  obtain ⟨s, e⟩ := r
  cases e with
  | none => exact le_rfl
  | some e => exact h.end_lt e rfl

theorem InFile.has_start {fileSize : Int} {r : ChunkRange} (h : r.InFile fileSize) :
    r.Has r.start :=
  ⟨le_rfl, h.start_le_end⟩

/-- Two ranges share no byte. -/
def Disjoint (r r' : ChunkRange) : Prop :=
  ∀ x, ¬ (r.Has x ∧ r'.Has x)

/-- Two ranges that share a byte share the start of one of them. -/
theorem disjoint_iff {r r' : ChunkRange} :
    r.Disjoint r' ↔ ∀ x ∈ [r.start, r'.start], ¬ (r.Has x ∧ r'.Has x) := by
  refine ⟨fun h x _ => h x, fun h x hx => ?_⟩
  obtain ⟨⟨hstart, hend⟩, hstart', hend'⟩ := hx
  rcases le_total r.start r'.start with hle | hle
  · exact h r'.start (by simp)
      ⟨⟨hle, fun e he => hstart'.trans (hend e he)⟩, le_rfl, fun e he => hstart'.trans (hend' e he)⟩
  · exact h r.start (by simp)
      ⟨⟨le_rfl, fun e he => hstart.trans (hend e he)⟩, hle, fun e he => hstart.trans (hend' e he)⟩

instance (r : ChunkRange) (x : Int) : Decidable (r.Has x) :=
  inferInstanceAs (Decidable (_ ∧ _))

instance (r r' : ChunkRange) : Decidable (r.Disjoint r') :=
  decidable_of_iff _ disjoint_iff.symm

/-- Of two disjoint ranges of a file, the one that starts first ends before the other starts. -/
theorem stop_le_start_of_disjoint {fileSize : Int} {r r' : ChunkRange} (h' : r'.InFile fileSize)
    (hd : r.Disjoint r') (hle : r.start ≤ r'.start) : r.stop fileSize ≤ r'.start := by
  by_contra hlt
  have hr : r.Has r'.start :=
    (has_iff_lt_stop r h'.start_lt).mpr ⟨hle, not_le.mp hlt⟩
  exact hd r'.start ⟨hr, h'.has_start⟩

end ChunkRange

/-- `ChunkFragment`: a chunk and how many of its bytes to read, `none` for the whole file. -/
structure ChunkFragment where
  range : ChunkRange
  readLimitQtBytes : Option Int
  deriving Repr, DecidableEq

/-- The action of a strategy that this development follows, `StrategyAction.Start`. -/
structure StartChunkAction where
  range : ChunkRange
  targetSpeedBps : Option Int := none
  deriving Repr, DecidableEq

end SDownload
