import SDownload.Lib.Shift
import SDownload.Storage.Merge

/-!
# SDownload.Storage.Crop

`crop_file` and `shrink_file_to` of `local_storage.py`.

`cropFile` is what a crop does to the directory when no operation fails.
`cropFileUnder` is the function itself, one `await` after the other: it copies block by
block inside the file, and truncates the file in its `finally`, whatever ended the
copying. `CropFaults` says which operations do not return, and what they have done by
then. Nothing else runs meanwhile.
-/

namespace SDownload

/-- The bytes `crop_file` keeps. -/
def cropBytes (bytes : Bytes) (startByte endByte : Int) : Bytes :=
  (bytes.drop startByte.toNat).take (endByte - startByte + 1).toNat

/-- The parameters `crop_file` refuses. -/
def cropRefuses (startByte endByte : Int) : Bool :=
  endByte - startByte + 1 < 0 || endByte < 0 || startByte < 0 || endByte < startByte

/-- `crop_file` past its parameter check, when no operation of it fails. -/
def cropFile (files : Files) (key : String) (startByte endByte : Int) : Except TaskError Files :=
  match files.lookup key with
  | none => .error .storageNotFound
  | some ino =>
      let currentSize : Int := (files.content ino).length
      -- the byte at `endByte` is kept, so the file has to reach past it
      if currentSize ≤ endByte then .error (.cropExceedsFile endByte currentSize)
      else .ok (files.overwrite ino (cropBytes (files.content ino) startByte endByte))

theorem length_cropBytes {bytes : Bytes} {startByte endByte : Int} (hstart : 0 ≤ startByte)
    (hle : startByte ≤ endByte) (hlt : endByte < bytes.length) :
    ((cropBytes bytes startByte endByte).length : Int) = endByte - startByte + 1 := by
  unfold cropBytes
  rw [List.length_take, List.length_drop]
  omega

/-- A crop that keeps everything. -/
theorem cropBytes_eq_iff {bytes : Bytes} {startByte endByte : Int} (hstart : 0 ≤ startByte)
    (hle : startByte ≤ endByte) (hlt : endByte < bytes.length) :
    cropBytes bytes startByte endByte = bytes ↔ startByte = 0 ∧ endByte + 1 = bytes.length := by
  constructor
  · intro h
    have hlen := length_cropBytes hstart hle hlt
    rw [h] at hlen
    omega
  · rintro ⟨rfl, hall⟩
    unfold cropBytes
    rw [Int.sub_zero, hall, Int.toNat_natCast]
    exact List.take_length

/-- A crop that goes through. -/
theorem cropFile_eq_ok {files files' : Files} {key : String} {startByte endByte : Int}
    (h : cropFile files key startByte endByte = .ok files') :
    ∃ ino, files.lookup key = some ino ∧ endByte < (files.content ino).length ∧
      files' = files.overwrite ino (cropBytes (files.content ino) startByte endByte) := by
  unfold cropFile at h
  split at h
  · cases h
  · rename_i ino hlookup
    dsimp only at h
    split at h
    · cases h
    · rename_i hlt
      exact ⟨ino, hlookup, not_le.mp hlt, (Except.ok.inj h).symm⟩

/-- A file that is long enough is cropped. -/
theorem cropFile_of_lt {files : Files} {key : String} {ino : Nat} {startByte endByte : Int}
    (hlookup : files.lookup key = some ino) (hlt : endByte < (files.content ino).length) :
    cropFile files key startByte endByte =
      .ok (files.overwrite ino (cropBytes (files.content ino) startByte endByte)) := by
  unfold cropFile
  rw [hlookup]
  exact if_neg (not_le.mpr hlt)

/-! ### Interruptions -/

/-- Why an `await` does not return: the operation raises, or the task is cancelled there. -/
inductive Interruption
  | raises
  | cancelled
  deriving Repr, DecidableEq

/-- An `await` that does not return. `effect` is how much of the operation was done all the same:
so many bytes of a write, and of anything else nothing if it is 0. -/
structure Stop where
  effect : Nat
  cause : Interruption
  deriving Repr, DecidableEq

/-- The operations up to the `finally`. Blocks are counted from 0, the remainder with them. -/
inductive CropPoint
  | lookup
  | stat
  | shrinkLookup
  | shrinkStat
  | shrink
  | opening
  | reading (block : Nat)
  | writing (block : Nat)
  deriving Repr, DecidableEq

/-- Which operations of a crop do not return: one up to the `finally`, the `truncate` in it, and
the flush and the closing of the file. -/
structure CropFaults where
  stop : Option (CropPoint × Stop) := none
  truncation : Option Stop := none
  closing : Option Interruption := none
  deriving Repr, DecidableEq

/-- The stop at that operation, if there is one. -/
def CropFaults.stopAt (faults : CropFaults) (point : CropPoint) : Option Stop :=
  match faults.stop with
  | none => none
  | some (p, stop) => if p = point then some stop else none

/-- The `truncate` of the `finally` is done, whether it returns or not. -/
def CropFaults.truncates (faults : CropFaults) : Bool :=
  match faults.truncation with
  | some ⟨0, _⟩ => false
  | _ => true

/-- How a crop ends; it may raise an error of its own. -/
inductive CropEnd
  | returned
  | refused (e : TaskError)
  | interrupted (cause : Interruption)
  deriving Repr, DecidableEq

/-! ### `shrink_file_to` and `crop_file` -/

/-- `shrink_file_to`. -/
def shrinkFileTo (faults : CropFaults) (files : Files) (key : String) (targetSize : Nat) :
    Files × CropEnd :=
  match faults.stopAt .shrinkLookup with
  | some stop => (files, .interrupted stop.cause)
  | none =>
      match files.lookup key with
      | none => (files, .refused .storageNotFound)
      | some ino =>
          match faults.stopAt .shrinkStat with
          | some stop => (files, .interrupted stop.cause)
          | none =>
              if (files.content ino).length ≤ targetSize then (files, .returned)
              else
                let shrunk := files.overwrite ino (truncateBytes (files.content ino) targetSize)
                match faults.stopAt .shrink with
                | some stop => (if stop.effect = 0 then files else shrunk, .interrupted stop.cause)
                | none => (shrunk, .returned)

/-- Read `size` bytes at `readPos` and write them at `writePos`. -/
def copyBlock (faults : CropFaults) (block readPos writePos size : Nat) (bytes : Bytes) :
    Bytes × Option Interruption :=
  match faults.stopAt (.reading block) with
  | some stop => (bytes, some stop.cause)
  | none =>
      let data := (bytes.drop readPos).take size
      match faults.stopAt (.writing block) with
      | some stop => (writeBytes bytes writePos (data.take stop.effect), some stop.cause)
      | none => (writeBytes bytes writePos data, none)

/-- The `for` over the full blocks, and the remainder. -/
def copyBlocks (faults : CropFaults) (ioBufferSize remainder : Nat) :
    Nat → Nat → Nat → Nat → Bytes → Bytes × Option Interruption
  | 0, block, readPos, writePos, bytes =>
      if 0 < remainder then copyBlock faults block readPos writePos remainder bytes
      else (bytes, none)
  | fullBlocks + 1, block, readPos, writePos, bytes =>
      match copyBlock faults block readPos writePos ioBufferSize bytes with
      | (bytes, some cause) => (bytes, some cause)
      | (bytes, none) =>
          copyBlocks faults ioBufferSize remainder fullBlocks (block + 1)
            (readPos + ioBufferSize) (writePos + ioBufferSize) bytes

/-- The `finally`, and the end of the `async with`: what is left of the file, and how the crop
ends. The last exception is the one that is raised. -/
def cropFinally (faults : CropFaults) (targetSize : Nat) (bytes : Bytes)
    (stopped : Option Interruption) : Bytes × CropEnd :=
  let raised := (faults.closing.or (faults.truncation.map Stop.cause)).or stopped
  (if faults.truncates then truncateBytes bytes targetSize else bytes,
    raised.elim .returned .interrupted)

/-- `crop_file`, where these operations do not return. An `io_buffer_size` of 0 divides by zero. -/
def cropFileUnder (faults : CropFaults) (ioBufferSize : Nat) (files : Files) (key : String)
    (startByte endByte : Int) : Files × CropEnd :=
  if cropRefuses startByte endByte then (files, .refused .cropParameters)
  else
    let targetSize := (endByte - startByte + 1).toNat
    match faults.stopAt .lookup with
    | some stop => (files, .interrupted stop.cause)
    | none =>
        match files.lookup key with
        | none => (files, .refused .storageNotFound)
        | some ino =>
            match faults.stopAt .stat with
            | some stop => (files, .interrupted stop.cause)
            | none =>
                let currentSize : Int := (files.content ino).length
                if currentSize ≤ endByte then
                  (files, .refused (.cropExceedsFile endByte currentSize))
                else if startByte = 0 then shrinkFileTo faults files key targetSize
                else
                  match faults.stopAt .opening with
                  | some stop => (files, .interrupted stop.cause)
                  | none =>
                      if ioBufferSize = 0 then (files, .refused .environment)
                      else
                        let (bytes, stopped) :=
                          copyBlocks faults ioBufferSize (targetSize % ioBufferSize)
                            (targetSize / ioBufferSize) 0 startByte.toNat 0 (files.content ino)
                        let (bytes, ended) := cropFinally faults targetSize bytes stopped
                        (files.overwrite ino bytes, ended)

/-- One operation at most does not return before the `finally`. -/
theorem CropFaults.stopAt_of_ne {faults : CropFaults} {p q : CropPoint} {stop : Stop}
    (h : faults.stopAt p = some stop) (hne : p ≠ q) : faults.stopAt q = none := by
  unfold stopAt at h ⊢
  split at h
  · cases h
  · split at h
    · rename_i hpoint
      exact if_neg (hpoint ▸ hne)
    · cases h

/-! ### The copying -/

namespace CropFaults

variable (faults : CropFaults) (ioBufferSize targetSize : Nat)

/-- The block whose reading or writing does not return, the bytes of it that are written, and
why. -/
def copying : Option (Nat × Nat × Interruption) :=
  match faults.stop with
  | some (.reading block, stop) => some (block, 0, stop.cause)
  | some (.writing block, stop) => some (block, stop.effect, stop.cause)
  | _ => none

/-- How many bytes are copied. -/
def copied : Nat :=
  match faults.copying with
  | none => targetSize
  | some (block, written, _) => min (block * ioBufferSize + min written ioBufferSize) targetSize

/-- What ends the copying early. -/
def stopped : Option Interruption :=
  match faults.copying with
  | none => none
  | some (block, _, cause) => if block * ioBufferSize < targetSize then some cause else none

theorem copied_le : faults.copied ioBufferSize targetSize ≤ targetSize := by
  unfold copied
  split
  · exact le_rfl
  · exact min_le_right _ _

end CropFaults

variable {faults : CropFaults} {ioBufferSize remainder : Nat} {bytes : Bytes} {s w : Nat}

/-- **A block** is copied behind what has been copied before it. -/
theorem copyBlock_shifted {block size : Nat} (h : s + w + size ≤ bytes.length) :
    copyBlock faults block (s + w) w size (shifted bytes s w) =
      match faults.copying with
      | some (i, written, cause) =>
          if i = block then (shifted bytes s (w + min written size), some cause)
          else (shifted bytes s (w + size), none)
      | none => (shifted bytes s (w + size), none) := by
  have hread : ((shifted bytes s w).drop (s + w)).take size = (bytes.drop (s + w)).take size := by
    rw [drop_shifted (by omega) (Nat.le_add_left w s)]
  have hwhole := writeBytes_shifted h
  unfold copyBlock CropFaults.copying CropFaults.stopAt
  rw [hread]
  cases faults.stop with
  | none => exact congrArg (·, none) hwhole
  | some stopped =>
      obtain ⟨point, stop⟩ := stopped
      cases point with
      | reading i =>
          by_cases hi : i = block
          · subst hi
            simp
          · simp [hi, hwhole]
      | writing i =>
          by_cases hi : i = block
          · subst hi
            have hpart : s + w + min stop.effect size ≤ bytes.length := by omega
            simp [List.take_take, writeBytes_shifted hpart]
          · simp [hi, hwhole]
      | _ => simp [hwhole]

/-- **The copying** from block `block` on, if nothing has ended it before. -/
theorem copyBlocks_shifted {fullBlocks block : Nat} (hremainder : remainder < ioBufferSize)
    (hpos : w = block * ioBufferSize)
    (hfit : s + (w + fullBlocks * ioBufferSize + remainder) ≤ bytes.length)
    (hahead : ∀ i written cause, faults.copying = some (i, written, cause) → block ≤ i) :
    copyBlocks faults ioBufferSize remainder fullBlocks block (s + w) w (shifted bytes s w) =
      (shifted bytes s (faults.copied ioBufferSize (w + fullBlocks * ioBufferSize + remainder)),
        faults.stopped ioBufferSize (w + fullBlocks * ioBufferSize + remainder)) := by
  -- on the full blocks left; a fault further on is met by the blocks after this one
  induction fullBlocks generalizing block w with
  | zero =>
      unfold copyBlocks CropFaults.copied CropFaults.stopped
      rw [Nat.zero_mul, Nat.add_zero] at hfit ⊢
      by_cases hrest : 0 < remainder
      · rw [if_pos hrest, copyBlock_shifted (by omega)]
        cases hcopying : faults.copying with
        | none => rfl
        | some stop =>
            obtain ⟨i, written, cause⟩ := stop
            dsimp only
            by_cases hi : i = block
            · subst hi
              rw [if_pos rfl, if_pos (by omega)]
              congr 2
              omega
            · -- the fault lies behind the last block, so it is never met
              have hmul : (block + 1) * ioBufferSize ≤ i * ioBufferSize :=
                Nat.mul_le_mul_right _ (Nat.lt_of_le_of_ne (hahead _ _ _ hcopying) (Ne.symm hi))
              rw [Nat.succ_mul] at hmul
              rw [if_neg hi, if_neg (by omega)]
              congr 2
              omega
      · obtain rfl : remainder = 0 := by omega
        rw [if_neg hrest, Nat.add_zero]
        cases hcopying : faults.copying with
        | none => rfl
        | some stop =>
            obtain ⟨i, written, cause⟩ := stop
            dsimp only
            have hmul : block * ioBufferSize ≤ i * ioBufferSize :=
              Nat.mul_le_mul_right _ (hahead _ _ _ hcopying)
            rw [if_neg (by omega)]
            congr 2
            omega
  | succ fullBlocks ih =>
      rw [Nat.succ_mul] at hfit
      have htarget : w + (fullBlocks + 1) * ioBufferSize + remainder =
          w + ioBufferSize + fullBlocks * ioBufferSize + remainder := by
        rw [Nat.succ_mul]
        omega
      unfold copyBlocks
      rw [copyBlock_shifted (by omega), htarget]
      have hnext : (∀ i written cause, faults.copying = some (i, written, cause) → block + 1 ≤ i) →
          copyBlocks faults ioBufferSize remainder fullBlocks (block + 1) (s + w + ioBufferSize)
              (w + ioBufferSize) (shifted bytes s (w + ioBufferSize)) =
            (shifted bytes s (faults.copied ioBufferSize
                (w + ioBufferSize + fullBlocks * ioBufferSize + remainder)),
              faults.stopped ioBufferSize
                (w + ioBufferSize + fullBlocks * ioBufferSize + remainder)) := by
        intro hahead'
        rw [Nat.add_assoc s]
        exact ih (by rw [hpos, Nat.succ_mul]) (by omega) hahead'
      cases hcopying : faults.copying with
      | none => exact hnext fun _ _ _ h => absurd (hcopying.symm.trans h) nofun
      | some stop =>
          obtain ⟨i, written, cause⟩ := stop
          dsimp only
          by_cases hi : i = block
          · subst hi
            rw [if_pos rfl]
            unfold CropFaults.copied CropFaults.stopped
            rw [hcopying]
            dsimp only
            rw [if_pos (by omega)]
            congr 2
            omega
          · rw [if_neg hi]
            refine hnext fun j _ _ h => ?_
            obtain ⟨rfl, -⟩ := Prod.mk.inj (Option.some.inj (hcopying.symm.trans h))
            exact Nat.lt_of_le_of_ne (hahead _ _ _ hcopying) (Ne.symm hi)

/-! ### What a crop leaves -/

theorem CropFaults.copied_of_stopped {targetSize : Nat}
    (h : faults.stopped ioBufferSize targetSize = none) :
    faults.copied ioBufferSize targetSize = targetSize := by
  unfold CropFaults.stopped at h
  unfold CropFaults.copied
  cases hcopying : faults.copying with
  | none => rfl
  | some stop =>
      obtain ⟨block, written, cause⟩ := stop
      rw [hcopying] at h
      dsimp only at h ⊢
      split at h
      · cases h
      · omega

variable {files files' : Files} {key : String} {ino : Nat} {startByte endByte : Int}

/-- The parameters `crop_file` accepts. -/
theorem cropRefuses_eq_false : cropRefuses startByte endByte = false ↔
    0 ≤ startByte ∧ startByte ≤ endByte := by
  simp only [cropRefuses, Bool.or_eq_false_iff, decide_eq_false_iff_not]
  omega

/-- A crop that keeps something behind the file's first byte, once the file is open. -/
theorem cropFileUnder_copies (hlookup : files.lookup key = some ino) (hstart : 0 < startByte)
    (hle : startByte ≤ endByte) (hlt : endByte < (files.content ino).length)
    (hfirst : faults.stopAt .lookup = none) (hstat : faults.stopAt .stat = none)
    (hopening : faults.stopAt .opening = none) (hbuffer : ioBufferSize ≠ 0) :
    cropFileUnder faults ioBufferSize files key startByte endByte =
      let targetSize := (endByte - startByte + 1).toNat
      let ended := cropFinally faults targetSize
        (shifted (files.content ino) startByte.toNat (faults.copied ioBufferSize targetSize))
        (faults.stopped ioBufferSize targetSize)
      (files.overwrite ino ended.1, ended.2) := by
  have hdiv := Nat.div_add_mod' (endByte - startByte + 1).toNat ioBufferSize
  have hcopy := @copyBlocks_shifted faults ioBufferSize
    ((endByte - startByte + 1).toNat % ioBufferSize) (files.content ino) startByte.toNat 0
    ((endByte - startByte + 1).toNat / ioBufferSize) 0 (Nat.mod_lt _ (Nat.pos_of_ne_zero hbuffer))
    (Nat.zero_mul _).symm (by rw [Nat.zero_add, hdiv]; omega) fun _ _ _ _ => Nat.zero_le _
  rw [shifted_zero, Nat.zero_add, Nat.add_zero, hdiv] at hcopy
  unfold cropFileUnder
  rw [if_neg (Bool.eq_false_iff.mp (cropRefuses_eq_false.mpr ⟨hstart.le, hle⟩))]
  dsimp only
  rw [hfirst, hlookup]
  dsimp only
  rw [hstat]
  dsimp only
  rw [if_neg (not_le.mpr hlt), if_neg hstart.ne', hopening]
  dsimp only
  rw [if_neg hbuffer, hcopy]

/-- A crop that keeps the front of the file. -/
theorem cropFileUnder_shrinks (hlookup : files.lookup key = some ino) (hend : 0 ≤ endByte)
    (hlt : endByte < (files.content ino).length) (hfirst : faults.stopAt .lookup = none)
    (hstat : faults.stopAt .stat = none) :
    cropFileUnder faults ioBufferSize files key 0 endByte =
      shrinkFileTo faults files key (endByte + 1).toNat := by
  unfold cropFileUnder
  rw [if_neg (Bool.eq_false_iff.mp (cropRefuses_eq_false.mpr ⟨le_rfl, hend⟩))]
  dsimp only
  rw [hfirst, hlookup]
  dsimp only
  rw [hstat]
  dsimp only
  rw [if_neg (not_le.mpr hlt), if_pos rfl, Int.sub_zero]

theorem cropFinally_returned {targetSize : Nat} {stopped : Option Interruption} :
    (cropFinally faults targetSize bytes stopped).2 = .returned ↔
      stopped = none ∧ faults.truncation = none ∧ faults.closing = none := by
  unfold cropFinally
  cases stopped <;> cases faults.truncation <;> cases faults.closing <;> simp

namespace CropFaults

/-- An accepted crop of a file of `size` bytes returns. -/
def GoesThrough (faults : CropFaults) (ioBufferSize startByte targetSize size : Nat) : Prop :=
  faults.stopAt .lookup = none ∧ faults.stopAt .stat = none ∧
    if startByte = 0 then
      faults.stopAt .shrinkLookup = none ∧ faults.stopAt .shrinkStat = none ∧
        (targetSize < size → faults.stopAt .shrink = none)
    else
      faults.stopAt .opening = none ∧ ioBufferSize ≠ 0 ∧
        faults.stopped ioBufferSize targetSize = none ∧ faults.truncation = none ∧
          faults.closing = none

/-- One that does not return leaves the file as it was: it ends before it truncates the file or
opens it for copying. Once it copies, the `truncate` of the `finally` has to fail as well, and
what has been copied has to be what was there. -/
def Spares (faults : CropFaults) (ioBufferSize startByte targetSize : Nat) (bytes : Bytes) : Prop :=
  faults.stopAt .lookup ≠ none ∨ faults.stopAt .stat ≠ none ∨
    if startByte = 0 then ∀ stop ∈ faults.stopAt .shrink, stop.effect = 0
    else
      faults.stopAt .opening ≠ none ∨ ioBufferSize = 0 ∨
        faults.truncates = false ∧
          (bytes.drop startByte).take (faults.copied ioBufferSize targetSize) =
            bytes.take (faults.copied ioBufferSize targetSize)

end CropFaults

/-- **An accepted shrink** returns or leaves the file as it was, or neither. -/
theorem shrinkFileTo_spec (hlookup : files.lookup key = some ino) {targetSize : Nat} :
    ((shrinkFileTo faults files key targetSize).2 = .returned ↔
      faults.stopAt .shrinkLookup = none ∧ faults.stopAt .shrinkStat = none ∧
        (targetSize < (files.content ino).length → faults.stopAt .shrink = none)) ∧
      ((shrinkFileTo faults files key targetSize).2 ≠ .returned →
        ((shrinkFileTo faults files key targetSize).1.read key = some (files.content ino) ↔
          ∀ stop ∈ faults.stopAt .shrink, stop.effect = 0)) := by
  have hread := FileSystem.read_of_lookup hlookup
  unfold shrinkFileTo
  cases hfirst : faults.stopAt .shrinkLookup with
  | some stop =>
      have hshrink : faults.stopAt .shrink = none := CropFaults.stopAt_of_ne hfirst (by decide)
      simp [hread, hshrink]
  | none =>
      simp only [hlookup]
      cases hstat : faults.stopAt .shrinkStat with
      | some stop =>
          have hshrink : faults.stopAt .shrink = none := CropFaults.stopAt_of_ne hstat (by decide)
          simp [hread, hshrink]
      | none =>
          dsimp only
          by_cases hle : (files.content ino).length ≤ targetSize
          · rw [if_pos hle]
            simp [not_lt.mpr hle]
          · rw [if_neg hle]
            have hlt := not_le.mp hle
            cases hshrink : faults.stopAt .shrink with
            | none => simp
            | some stop =>
                dsimp only
                refine ⟨by simp [hlt], fun _ => ?_⟩
                by_cases heffect : stop.effect = 0
                · simp [heffect, hread]
                · rw [if_neg heffect, FileSystem.read_overwrite_self _ hlookup,
                    truncateBytes_of_le hlt.le]
                  refine ⟨fun heq => ?_, fun hall => absurd (hall stop rfl) heffect⟩
                  have hlen := congrArg List.length (Option.some.inj heq)
                  rw [List.length_take] at hlen
                  omega

/-- **An accepted crop** returns, or leaves the file as it was, or neither. -/
theorem cropFileUnder_spec (hlookup : files.lookup key = some ino)
    (haccepts : cropRefuses startByte endByte = false)
    (hlt : endByte < (files.content ino).length) :
    ((cropFileUnder faults ioBufferSize files key startByte endByte).2 = .returned ↔
      faults.GoesThrough ioBufferSize startByte.toNat (endByte - startByte + 1).toNat
        (files.content ino).length) ∧
      ((cropFileUnder faults ioBufferSize files key startByte endByte).2 ≠ .returned →
        ((cropFileUnder faults ioBufferSize files key startByte endByte).1.read key =
            some (files.content ino) ↔
          faults.Spares ioBufferSize startByte.toNat (endByte - startByte + 1).toNat
            (files.content ino))) := by
  obtain ⟨hstart, hle⟩ := cropRefuses_eq_false.mp haccepts
  have hread := FileSystem.read_of_lookup hlookup
  unfold CropFaults.GoesThrough CropFaults.Spares
  -- in the order of the operations; until the copying begins a stop leaves the file as it was
  cases hfirst : faults.stopAt .lookup with
  | some stop => simp [cropFileUnder, haccepts, hfirst, hread]
  | none =>
      cases hstat : faults.stopAt .stat with
      | some stop => simp [cropFileUnder, haccepts, hfirst, hlookup, hstat, hread]
      | none =>
          by_cases hzero : startByte = 0
          · subst hzero
            rw [cropFileUnder_shrinks hlookup hle hlt hfirst hstat]
            simpa using shrinkFileTo_spec hlookup
          · have hpos : 0 < startByte := lt_of_le_of_ne hstart (Ne.symm hzero)
            have hnat : startByte.toNat ≠ 0 := by omega
            simp only [if_neg hnat]
            by_cases hopening : faults.stopAt .opening = none
            · by_cases hbuffer : ioBufferSize = 0
              · have hsame : cropFileUnder faults ioBufferSize files key startByte endByte =
                    (files, .refused .environment) := by
                  simp [cropFileUnder, haccepts, hfirst, hlookup, hstat, not_le.mpr hlt, hzero,
                    hopening, hbuffer]
                rw [hsame]
                simp [hbuffer, hread]
              · rw [cropFileUnder_copies hlookup hpos hle hlt hfirst hstat hopening hbuffer]
                dsimp only
                rw [cropFinally_returned, FileSystem.read_overwrite_self _ hlookup,
                  Option.some.injEq]
                refine ⟨by simp [hopening, hbuffer], fun _ => ?_⟩
                have hcopied := faults.copied_le ioBufferSize (endByte - startByte + 1).toNat
                have hlen := @length_shifted _ (files.content ino) startByte.toNat
                  (faults.copied ioBufferSize (endByte - startByte + 1).toNat) (by omega)
                unfold cropFinally
                dsimp only
                by_cases htruncates : faults.truncates = true
                · -- what is left is shorter than the file
                  rw [if_pos htruncates, truncateBytes_of_le (by omega)]
                  refine ⟨fun heq => ?_, fun hspares => ?_⟩
                  · have hshort := congrArg List.length heq
                    rw [List.length_take, hlen] at hshort
                    omega
                  · simp [hopening, hbuffer, htruncates] at hspares
                · rw [if_neg htruncates, shifted_eq_iff]
                  simp [hopening, hbuffer, htruncates]
            · obtain ⟨stop, hstop⟩ := Option.ne_none_iff_exists'.mp hopening
              have hsame : cropFileUnder faults ioBufferSize files key startByte endByte =
                  (files, .interrupted stop.cause) := by
                simp [cropFileUnder, haccepts, hfirst, hlookup, hstat, not_le.mpr hlt, hzero, hstop]
              rw [hsame]
              simp [hstop, hread]

/-- A crop that asks for more than there is. -/
theorem cropFileUnder_exceeds (hlookup : files.lookup key = some ino)
    (hexceeds : (files.content ino).length ≤ endByte) :
    (cropFileUnder faults ioBufferSize files key startByte endByte).1 = files ∧
      (cropFileUnder faults ioBufferSize files key startByte endByte).2 ≠ .returned := by
  unfold cropFileUnder
  split
  · exact ⟨rfl, nofun⟩
  dsimp only
  split
  · exact ⟨rfl, nofun⟩
  rw [hlookup]
  dsimp only
  split
  · exact ⟨rfl, nofun⟩
  rw [if_pos hexceeds]
  exact ⟨rfl, nofun⟩

/-! ### The crop that nothing interrupts -/

theorem shrinkFileTo_returned {targetSize : Nat} (hlookup : files.lookup key = some ino)
    (hle : targetSize ≤ (files.content ino).length)
    (h : shrinkFileTo faults files key targetSize = (files', .returned)) :
    files' = files.overwrite ino ((files.content ino).take targetSize) := by
  unfold shrinkFileTo at h
  rw [hlookup] at h
  split at h
  · cases h
  dsimp only at h
  split at h
  · cases h
  split at h
  · rename_i hge
    obtain ⟨rfl, -⟩ := Prod.mk.inj h
    rw [List.take_of_length_le hge, FileSystem.overwrite_content]
  · split at h
    · cases h
    · obtain ⟨rfl, -⟩ := Prod.mk.inj h
      rw [truncateBytes_of_le hle]

/-- **A crop that returns** has done what `cropFile` does. -/
theorem cropFile_of_returned
    (h : cropFileUnder faults ioBufferSize files key startByte endByte = (files', .returned)) :
    cropFile files key startByte endByte = .ok files' := by
  have hreturned : (cropFileUnder faults ioBufferSize files key startByte endByte).2 =
      .returned := congrArg Prod.snd h
  have haccepts : cropRefuses startByte endByte = false := by
    by_contra hrefuses
    rw [Bool.not_eq_false] at hrefuses
    simp [cropFileUnder, hrefuses] at h
  obtain ⟨hstart, hle⟩ := cropRefuses_eq_false.mp haccepts
  have hfirst : faults.stopAt .lookup = none := by
    by_contra hstop
    obtain ⟨stop, hstop⟩ := Option.ne_none_iff_exists'.mp hstop
    simp [cropFileUnder, haccepts, hstop] at h
  cases hlookup : files.lookup key with
  | none => simp [cropFileUnder, haccepts, hfirst, hlookup] at h
  | some ino =>
      have hstat : faults.stopAt .stat = none := by
        by_contra hstop
        obtain ⟨stop, hstop⟩ := Option.ne_none_iff_exists'.mp hstop
        simp [cropFileUnder, haccepts, hfirst, hlookup, hstop] at h
      have hlt : endByte < (files.content ino).length := by
        by_contra hexceeds
        simp [cropFileUnder, haccepts, hfirst, hlookup, hstat, not_lt.mp hexceeds] at h
      rw [cropFile_of_lt hlookup hlt]
      congr 1
      unfold cropBytes
      by_cases hzero : startByte = 0
      · subst hzero
        rw [cropFileUnder_shrinks hlookup hle hlt hfirst hstat] at h
        rw [shrinkFileTo_returned hlookup (by omega) h, Int.sub_zero]
        rfl
      · obtain ⟨-, -, hthrough⟩ := (cropFileUnder_spec hlookup haccepts hlt).1.mp hreturned
        have hpos : 0 < startByte := lt_of_le_of_ne hstart (Ne.symm hzero)
        rw [if_neg (by omega)] at hthrough
        obtain ⟨hopening, hbuffer, hstopped, htruncation, -⟩ := hthrough
        rw [cropFileUnder_copies hlookup hpos hle hlt hfirst hstat hopening hbuffer] at h
        have hcopied := CropFaults.copied_of_stopped hstopped
        have hfit : startByte.toNat + (endByte - startByte + 1).toNat ≤
            (files.content ino).length := by omega
        refine Eq.trans ?_ (congrArg Prod.fst h)
        unfold cropFinally CropFaults.truncates
        dsimp only
        rw [htruncation, hcopied, if_pos rfl, truncateBytes_of_le, take_shifted hfit]
        rw [length_shifted hfit]
        omega

theorem shrinkFileTo_frame {targetSize : Nat} :
    (shrinkFileTo faults files key targetSize).1 = files ∨ ∃ ino bytes,
      files.lookup key = some ino ∧
        (shrinkFileTo faults files key targetSize).1 = files.overwrite ino bytes := by
  unfold shrinkFileTo
  split
  · exact Or.inl rfl
  split
  · exact Or.inl rfl
  rename_i ino hlookup
  split
  · exact Or.inl rfl
  split
  · exact Or.inl rfl
  dsimp only
  split
  · split
    · exact Or.inl rfl
    · exact Or.inr ⟨ino, _, hlookup, rfl⟩
  · exact Or.inr ⟨ino, _, hlookup, rfl⟩

/-- **A crop touches** the file it crops at most. -/
theorem cropFileUnder_frame :
    (cropFileUnder faults ioBufferSize files key startByte endByte).1 = files ∨ ∃ ino bytes,
      files.lookup key = some ino ∧
        (cropFileUnder faults ioBufferSize files key startByte endByte).1 =
          files.overwrite ino bytes := by
  unfold cropFileUnder
  split
  · exact Or.inl rfl
  dsimp only
  split
  · exact Or.inl rfl
  split
  · exact Or.inl rfl
  rename_i ino hlookup
  split
  · exact Or.inl rfl
  split
  · exact Or.inl rfl
  split
  · exact shrinkFileTo_frame
  split
  · exact Or.inl rfl
  split
  · exact Or.inl rfl
  · exact Or.inr ⟨ino, _, hlookup, rfl⟩

theorem shrinkFileTo_refused {targetSize : Nat} {e : TaskError}
    (hlookup : files.lookup key = some ino) :
    shrinkFileTo faults files key targetSize ≠ (files', .refused e) := by
  unfold shrinkFileTo
  rw [hlookup]
  split
  · exact nofun
  dsimp only
  split
  · exact nofun
  split
  · exact nofun
  · split <;> exact nofun

/-- **An error of the crop itself** leaves the directory alone. -/
theorem cropFile_of_refused {e : TaskError}
    (h : cropFileUnder faults ioBufferSize files key startByte endByte = (files', .refused e)) :
    files' = files ∧ (cropRefuses startByte endByte = true ∧ e = .cropParameters ∨
      cropFile files key startByte endByte = .error e ∨ ioBufferSize = 0 ∧ e = .environment) := by
  unfold cropFileUnder at h
  split at h
  · rename_i hrefuses
    obtain ⟨rfl, heq⟩ := Prod.mk.inj h
    exact ⟨rfl, Or.inl ⟨hrefuses, (CropEnd.refused.inj heq).symm⟩⟩
  dsimp only at h
  split at h
  · cases h
  split at h
  · rename_i hlookup
    obtain ⟨rfl, heq⟩ := Prod.mk.inj h
    refine ⟨rfl, Or.inr (Or.inl ?_)⟩
    rw [cropFile, hlookup, CropEnd.refused.inj heq]
  rename_i ino hlookup
  split at h
  · cases h
  split at h
  · rename_i hexceeds
    obtain ⟨rfl, heq⟩ := Prod.mk.inj h
    refine ⟨rfl, Or.inr (Or.inl ?_)⟩
    rw [cropFile, hlookup, ← CropEnd.refused.inj heq]
    exact if_pos hexceeds
  split at h
  · exact absurd h (shrinkFileTo_refused hlookup)
  split at h
  · cases h
  split at h
  · rename_i hbuffer
    obtain ⟨rfl, heq⟩ := Prod.mk.inj h
    exact ⟨rfl, Or.inr (Or.inr ⟨hbuffer, (CropEnd.refused.inj heq).symm⟩)⟩
  · obtain ⟨-, heq⟩ := Prod.mk.inj h
    unfold cropFinally at heq
    dsimp only at heq
    cases hraised : (faults.closing.or (faults.truncation.map Stop.cause)).or
        (copyBlocks faults ioBufferSize ((endByte - startByte + 1).toNat % ioBufferSize)
          ((endByte - startByte + 1).toNat / ioBufferSize) 0 startByte.toNat 0
          (files.content ino)).2 with
    | none =>
        rw [hraised] at heq
        cases heq
    | some cause =>
        rw [hraised] at heq
        cases heq

/-! ### Exactness -/

/-- Where every operation returns, an accepted crop does. -/
theorem CropFaults.goesThrough_none {startByte targetSize size : Nat}
    (hbuffer : 1 ≤ ioBufferSize) :
    CropFaults.GoesThrough {} ioBufferSize startByte targetSize size := by
  refine ⟨rfl, rfl, ?_⟩
  split
  · exact ⟨rfl, rfl, fun _ => rfl⟩
  · exact ⟨rfl, Nat.ne_of_gt hbuffer, rfl, rfl, rfl⟩

/-- Parameters that are no part of the file: the crop raises, whatever else happens, and has not
touched anything. -/
theorem cropFileUnder_outside {d : Bytes} (hread : files.read key = some d)
    (houtside : ¬ (0 ≤ startByte ∧ startByte ≤ endByte ∧ endByte < d.length)) :
    (cropFileUnder faults ioBufferSize files key startByte endByte).1 = files ∧
      (cropFileUnder faults ioBufferSize files key startByte endByte).2 ≠ .returned := by
  by_cases hrefuses : cropRefuses startByte endByte = true
  · simp [cropFileUnder, hrefuses]
  · obtain ⟨hstart, hle⟩ := cropRefuses_eq_false.mp (Bool.eq_false_iff.mpr hrefuses)
    cases hlookup : files.lookup key with
    | none => simp [FileSystem.read, hlookup] at hread
    | some ino =>
        obtain rfl := Option.some.inj ((FileSystem.read_of_lookup hlookup).symm.trans hread)
        refine cropFileUnder_exceeds hlookup (not_lt.mp fun hlt => houtside ⟨hstart, hle, hlt⟩)

/-- **A crop is exact**: the part of the file that is asked for, or an error and the file as it
was. -/
theorem crop_file_exact (hbuffer : 1 ≤ ioBufferSize) (files : Files) (key : String) {d : Bytes}
    (hread : files.read key = some d) (startByte endByte : Int) :
    (0 ≤ startByte ∧ startByte ≤ endByte ∧ endByte < d.length →
      ∃ files', cropFileUnder {} ioBufferSize files key startByte endByte = (files', .returned) ∧
        files'.read key = some (cropBytes d startByte endByte)) ∧
    (¬ (0 ≤ startByte ∧ startByte ≤ endByte ∧ endByte < d.length) → ∀ faults,
      ∃ raised, raised ≠ .returned ∧
        cropFileUnder faults ioBufferSize files key startByte endByte = (files, raised)) := by
  refine ⟨?_, fun houtside faults => ?_⟩
  · intro ⟨hstart, hle, hlt⟩
    cases hlookup : files.lookup key with
    | none => simp [FileSystem.read, hlookup] at hread
    | some ino =>
        obtain rfl := Option.some.inj ((FileSystem.read_of_lookup hlookup).symm.trans hread)
        have haccepts := cropRefuses_eq_false.mpr ⟨hstart, hle⟩
        have hreturned := (cropFileUnder_spec hlookup haccepts hlt).1.mpr
          (CropFaults.goesThrough_none hbuffer)
        have hend : cropFileUnder {} ioBufferSize files key startByte endByte =
            ((cropFileUnder {} ioBufferSize files key startByte endByte).1, .returned) := by
          rw [← hreturned]
        obtain ⟨ino', hlookup', -, hfiles⟩ := cropFile_eq_ok (cropFile_of_returned hend)
        obtain rfl := Option.some.inj (hlookup.symm.trans hlookup')
        refine ⟨_, hend, ?_⟩
        rw [hfiles, FileSystem.read_overwrite_self _ hlookup]
  · refine ⟨(cropFileUnder faults ioBufferSize files key startByte endByte).2, ?_, Prod.ext ?_ rfl⟩
    · exact (cropFileUnder_outside hread houtside).2
    · exact (cropFileUnder_outside hread houtside).1

/-- Three bytes of five, in blocks of two. -/
theorem crop_file_exact_five :
    let files : Files := (FileSystem.empty.openWrite "f").2.writeAt 0 0 [1, 2, 3, 4, 5]
    ∃ files', cropFileUnder {} 2 files "f" 1 3 = (files', .returned) ∧
      files'.read "f" = some [2, 3, 4] := by
  intro files
  exact (crop_file_exact (by decide) files "f" (by decide : files.read "f" = some [1, 2, 3, 4, 5])
    1 3).1 (by decide)

end SDownload
