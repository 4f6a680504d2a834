import SDownload.Lib.Numerals
import SDownload.Lib.Occurrences
import SDownload.Models.Chunk

/-!
# SDownload.Models.Names

The names of the chunk files (`chunk_utils/common.py`).

A name is the range's two ends, the file's own name and an extension, joined by
underscores. The ends are written without underscores, so the first two
underscores of a name say where they stop, and a name determines its range and
its file.
-/

namespace SDownload

/-- `format_chunk_file_name`. -/
def formatChunkFileName (chunkRange : ChunkRange) (fileName : String) : String :=
  chunkRange.str ++ "_" ++ fileName ++ ".sdownload"

/-- `get_effective_range_info`: the effective end and the number of bytes. -/
def getEffectiveRangeInfo (chunkRange : ChunkRange) (totalFileSize : Option Int) :
    Option Int × Option Int :=
  match chunkRange.endByte, totalFileSize with
  | some e, _ => (some e, some (e - chunkRange.start + 1))
  | none, some total => (some (total - 1), some (total - 1 - chunkRange.start + 1))
  | none, none => (none, none)

/-- The number of bytes is the length of the range. -/
theorem getEffectiveRangeInfo_snd (r : ChunkRange) (total : Int) :
    (getEffectiveRangeInfo r (some total)).2 = some (r.stop total - r.start) := by
  obtain ⟨s, e⟩ := r
  cases e with
  | none => simp only [getEffectiveRangeInfo, ChunkRange.stop_none, Option.some.injEq]; omega
  | some e => simp only [getEffectiveRangeInfo, ChunkRange.stop_some, Option.some.injEq]; omega

/-! ### Numerals -/

/-- A numeral consists of digits and perhaps a sign. -/
theorem mem_toString_int {i : Int} {c : Char} (h : c ∈ (toString i).toList) :
    c = '-' ∨ c.isDigit = true := by
  rw [toList_toString_int, List.mem_append] at h
  rcases h with h | h
  · split at h
    · exact Or.inl (List.mem_singleton.mp h)
    · cases h
  · exact Or.inr (isDigit_of_mem_toDigits h)

theorem underscore_not_mem_toString_int (i : Int) : '_' ∉ (toString i).toList := by
  intro h
  rcases mem_toString_int h with h | h <;> exact absurd h (by decide)

theorem toString_int_ne_eof (i : Int) : (toString i).toList ≠ "EOF".toList := by
  intro h
  have hE : 'E' ∈ (toString i).toList := by rw [h]; decide
  rcases mem_toString_int hE with h | h <;> exact absurd h (by decide)

theorem toString_int_inj {i j : Int} (h : (toString i).toList = (toString j).toList) : i = j := by
  have hdigits : ∀ {m n : Nat}, Nat.toDigits 10 m = Nat.toDigits 10 n → m = n := by
    intro m n h
    rw [← Nat.ofDigitChars_ten_toDigits (n := m), h, Nat.ofDigitChars_ten_toDigits]
  have hsign : ∀ {m n : Nat}, Nat.toDigits 10 m ≠ '-' :: Nat.toDigits 10 n := by
    intro m n h
    have hminus : '-' ∈ Nat.toDigits 10 m := h ▸ List.mem_cons_self
    exact absurd (isDigit_of_mem_toDigits hminus) (by decide)
  rw [toList_toString_int, toList_toString_int] at h
  by_cases hi : i < 0 <;> by_cases hj : j < 0 <;>
    simp only [hi, hj, if_true, if_false, List.nil_append, List.cons_append, List.cons.injEq,
      true_and] at h
  · have := hdigits h
    omega
  · exact absurd h.symm hsign
  · exact absurd h hsign
  · have := hdigits h
    omega

/-! ### Decoding a name -/

/-- How the end of a range is written. -/
def ChunkRange.endStr (r : ChunkRange) : String :=
  match r.endByte with
  | some e => toString e
  | none => "EOF"

theorem ChunkRange.underscore_not_mem_endStr (r : ChunkRange) : '_' ∉ r.endStr.toList := by
  unfold endStr
  cases r.endByte with
  | none => decide
  | some e => exact underscore_not_mem_toString_int e

theorem ChunkRange.endStr_inj {r r' : ChunkRange} (h : r.endStr.toList = r'.endStr.toList) :
    r.endByte = r'.endByte := by
  unfold endStr at h
  cases he : r.endByte with
  | none =>
      cases he' : r'.endByte with
      | none => rfl
      | some e' =>
          rw [he, he'] at h
          exact absurd h.symm (toString_int_ne_eof e')
  | some e =>
      cases he' : r'.endByte with
      | none =>
          rw [he, he'] at h
          exact absurd h (toString_int_ne_eof e)
      | some e' =>
          rw [he, he'] at h
          rw [toString_int_inj h]

theorem toList_formatChunkFileName (r : ChunkRange) (fileName : String) :
    (formatChunkFileName r fileName).toList =
      (toString r.start).toList ++ '_' :: (r.endStr.toList ++ '_' ::
        (fileName.toList ++ ".sdownload".toList)) := by
  simp only [formatChunkFileName, ChunkRange.str, String.toList_append, List.append_assoc]
  rfl

/-- **Names are injective.** A chunk file's name determines the range and the file. -/
theorem formatChunkFileName_inj {r r' : ChunkRange} {fileName fileName' : String}
    (h : formatChunkFileName r fileName = formatChunkFileName r' fileName') :
    r = r' ∧ fileName = fileName' := by
  have hlist := congrArg String.toList h
  rw [toList_formatChunkFileName, toList_formatChunkFileName] at hlist
  obtain ⟨hstart, hlist⟩ := append_cons_inj (underscore_not_mem_toString_int _)
    (underscore_not_mem_toString_int _) hlist
  obtain ⟨hend, hlist⟩ := append_cons_inj r.underscore_not_mem_endStr
    r'.underscore_not_mem_endStr hlist
  refine ⟨?_, String.toList_injective (List.append_cancel_right hlist)⟩
  obtain ⟨s, e⟩ := r
  obtain ⟨s', e'⟩ := r'
  rw [ChunkRange.mk.injEq]
  exact ⟨toString_int_inj hstart, ChunkRange.endStr_inj hend⟩

/-- **Downloads keep apart.** A name has one range and one file, whatever the file's own name looks
like, so no chunk file of one file is called like a chunk file of another. -/
theorem formatChunkFileName_injective :
    Function.Injective2 formatChunkFileName ∧
      ∀ fileName fileName' : String, fileName ≠ fileName' →
        ∀ r r', formatChunkFileName r fileName ≠ formatChunkFileName r' fileName' :=
  ⟨fun _ _ _ _ h => formatChunkFileName_inj h,
    fun _ _ hne _ _ h => hne (formatChunkFileName_inj h).2⟩

/-- Two names that begin alike, and two files of which one is called like a chunk of the other. -/
theorem formatChunkFileName_injective_mimicked :
    formatChunkFileName ⟨0, none⟩ "9_a" ≠ formatChunkFileName ⟨0, some 9⟩ "EOF_9_a" ∧
      formatChunkFileName ⟨0, some 9⟩ "0_9_a.sdownload" ≠ formatChunkFileName ⟨0, some 9⟩ "a" :=
  ⟨fun h => absurd (formatChunkFileName_injective.1 h).2 (by decide),
    formatChunkFileName_injective.2 _ _ (by decide) _ _⟩

/-- No chunk file is named like the file itself. -/
theorem formatChunkFileName_ne (r : ChunkRange) (fileName : String) :
    formatChunkFileName r fileName ≠ fileName := by
  intro h
  have hlen := congrArg (fun s => s.toList.length) h
  simp only [toList_formatChunkFileName, List.length_append, List.length_cons] at hlen
  omega

end SDownload
