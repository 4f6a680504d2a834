import SDownload.Http.FileInfo
import SDownload.Lib.Paths
import SDownload.Models.Names
import SDownload.Recovery.RecoveryDownload

/-!
# SDownload.Http.Keys

Where the storage keys lead that are made of what a server says.

Three keys are built from the reply `get_file_info` reads: the name of the merged
file, the names of the chunk files around it, and the key of the recovery record
around the `ETag`. `LocalStorage` joins each to its directory as it is.

A name made of the URL is always a name (`isName_urlToFileName`). A name or an
identifier taken from a header is joined as the server sent it, and
`storageKeys_inside_iff` says which headers keep every key directly inside the
directory.
-/

namespace SDownload

open Paths

/-- The key names a file directly inside the directory of the storage, whichever that is. -/
def InStorage (key : String) : Prop :=
  ∀ storageDir : List Name, (∀ seg ∈ storageDir, IsName seg) → IsChild storageDir key.toList

/-- The keys made of a resource's description stay inside the directory. -/
def ResourceInfo.KeysInside {δ : Type} (info : ResourceInfo δ) : Prop :=
  InStorage info.fileName ∧
    (∀ r : ChunkRange, InStorage (formatChunkFileName r info.fileName)) ∧
    ∀ fileId ∈ info.fileId, InStorage (recoveryKey fileId)

/-! ### The three keys -/

theorem slash_not_mem_toString_int (i : Int) : '/' ∉ (toString i).toList := by
  intro h
  rcases mem_toString_int h with h | h <;> exact absurd h (by decide)

theorem ChunkRange.slash_not_mem_endStr (r : ChunkRange) : '/' ∉ r.endStr.toList := by
  unfold endStr
  cases r.endByte with
  | none => decide
  | some e => exact slash_not_mem_toString_int e

theorem length_toString_int_pos (i : Int) : 0 < (toString i).toList.length := by
  have hdigits : 0 < (Nat.toDigits 10 i.natAbs).length := Nat.length_toDigits_pos
  rw [toList_toString_int, List.length_append]
  omega

/-- A chunk file's key is around the name of the file. -/
theorem inStorage_formatChunkFileName (r : ChunkRange) (fileName : String) :
    InStorage (formatChunkFileName r fileName) ↔ LeadsBack fileName.toList := by
  have hfront : '/' ∉ (toString r.start).toList ++ '_' :: (r.endStr.toList ++ ['_']) := by
    simp only [List.mem_append, List.mem_cons, List.not_mem_nil, or_false, not_or]
    exact ⟨slash_not_mem_toString_int _, by decide, r.slash_not_mem_endStr, by decide⟩
  have hlen : 3 ≤ ((toString r.start).toList ++ '_' :: (r.endStr.toList ++ ['_'])).length := by
    have := length_toString_int_pos r.start
    simp only [List.length_append, List.length_cons, List.length_nil]
    omega
  have hkey : (formatChunkFileName r fileName).toList =
      ((toString r.start).toList ++ '_' :: (r.endStr.toList ++ ['_'])) ++
        (fileName.toList ++ ".sdownload".toList) := by
    rw [toList_formatChunkFileName]
    simp only [List.append_assoc, List.cons_append, List.nil_append]
  unfold InStorage
  rw [hkey]
  exact isChild_around_iff hfront (by decide) hlen (by decide)

/-- The recovery key is around the identifier of the file. -/
theorem inStorage_recoveryKey (fileId : String) :
    InStorage (recoveryKey fileId) ↔ LeadsBack fileId.toList := by
  have hkey : (recoveryKey fileId).toList =
      ".sdown_resume_".toList ++ (fileId.toList ++ ".json".toList) := by
    rw [recoveryKey, String.toList_append, String.toList_append, List.append_assoc]
  unfold InStorage
  rw [hkey]
  exact isChild_around_iff (by decide) (by decide) (by decide) (by decide)

/-- The keys stay inside if the name begins and ends with a name, and both texts lead back. -/
theorem ResourceInfo.keysInside_iff {δ : Type} (info : ResourceInfo δ) :
    info.KeysInside ↔ (EndsInNames info.fileName.toList ∧ LeadsBack info.fileName.toList) ∧
      ∀ fileId ∈ info.fileId, LeadsBack fileId.toList := by
  unfold KeysInside
  simp only [inStorage_formatChunkFileName, inStorage_recoveryKey]
  constructor
  · intro h
    obtain ⟨hname, hchunks, hid⟩ := h
    have hback := hchunks ⟨0, none⟩
    exact ⟨⟨(isChild_text_iff hback).mp hname, hback⟩, hid⟩
  · intro h
    obtain ⟨⟨hname, hback⟩, hid⟩ := h
    exact ⟨(isChild_text_iff hback).mpr hname, fun _ => hback, hid⟩

theorem endsInNames_of_isName {text : List Char} (h : IsName text) :
    EndsInNames text ∧ LeadsBack text := by
  have hslash := h.2.2.2
  refine ⟨?_, Or.inl hslash⟩
  unfold EndsInNames
  rw [components_of_not_mem hslash]
  exact ⟨fun seg hseg => Option.some.inj hseg ▸ h, fun seg hseg => Option.some.inj hseg ▸ h⟩

/-! ### A name made of the URL -/

/-- A character of a slug is alphanumeric, or an underscore. -/
theorem mem_slugRuns {c : Char} {s : List Char} {replaced : Bool} (h : c ∈ slugRuns replaced s) :
    c.isAlphanum = true ∨ c = '_' := by
  induction s generalizing replaced with
  | nil => cases h
  | cons d rest ih =>
      unfold slugRuns at h
      split at h
      · rcases List.mem_cons.mp h with rfl | h
        · exact Or.inl ‹_›
        · exact ih h
      · split at h
        · exact ih h
        · rcases List.mem_cons.mp h with rfl | h
          · exact Or.inr rfl
          · exact ih h

theorem slash_not_mem_safeSlugify (s : List Char) : '/' ∉ safeSlugify s := by
  intro h
  have hmem : '/' ∈ slugRuns false s :=
    (List.dropWhile_sublist _).subset ((List.rdropWhile_prefix _ _).subset h)
  rcases mem_slugRuns hmem with h | h <;> exact absurd h (by decide)

/-- **A name made of the URL** is a name. -/
theorem isName_urlToFileName (url : ParseResult) : IsName (urlToFileName url).toList := by
  unfold urlToFileName
  dsimp only
  split
  · -- the last segment of the path, which ends in an extension
    rename_i hext
    rw [String.toList_ofList]
    unfold hasExtension at hext
    obtain ⟨hlast, -⟩ := Bool.and_eq_true_iff.mp hext
    have hne : (lastSegment url.path.toList).rtakeWhile Char.isAlphanum ≠ [] :=
      of_decide_eq_true hlast
    obtain ⟨c, hc⟩ := List.exists_mem_of_ne_nil _ hne
    have halnum : c.isAlphanum = true := List.mem_rtakeWhile_imp hc
    have hmem : c ∈ lastSegment url.path.toList := (List.rtakeWhile_suffix _ _).subset hc
    refine ⟨List.ne_nil_of_mem hmem, fun he => ?_, fun he => ?_, fun hin => ?_⟩
    · rw [he] at hmem
      rw [List.mem_singleton.mp hmem] at halnum
      exact absurd halnum (by decide)
    · rw [he] at hmem
      simp only [List.mem_cons, List.not_mem_nil, or_false, or_self] at hmem
      rw [hmem] at halnum
      exact absurd halnum (by decide)
    · have hslash := List.mem_rtakeWhile_imp hin
      exact absurd hslash (by decide)
  · rw [String.toList_append, String.toList_ofList]
    refine isName_of_length ?_ fun hin => ?_
    · rw [List.length_append]
      show 3 ≤ _ + 4
      omega
    · rcases List.mem_append.mp hin with hin | hin
      · have hslug : ∀ slug : List Char, '/' ∉ slug →
            '/' ∉ (if slug ≠ [] then slug else safeSlugify url.netloc.toList) := by
          intro slug hslug
          split
          · exact hslug
          · exact slash_not_mem_safeSlugify _
        exact hslug _ (slash_not_mem_safeSlugify _) ((List.drop_sublist _ _).subset hin)
      · exact absurd hin (by decide)

/-! ### What the headers may say -/

/-- **The keys stay inside the directory** if and only if the name of the `Content-Disposition`, if
there is one, begins and ends with a name and leads back, and the `ETag`, if there is one, leads
back. -/
theorem storageKeys_inside_iff {δ : Type} (parsedateToDatetime : String → Option δ) (now : δ)
    (url : ParseResult) (head : ResponseHead) (info : ResourceInfo δ)
    (h : getFileInfo parsedateToDatetime now url head = .ok info) :
    info.KeysInside ↔
      (∀ name ∈ afterLast "filename=".toList (head.contentDisposition.getD "").toList,
        EndsInNames (stripChars (· = '"') name) ∧ LeadsBack (stripChars (· = '"') name)) ∧
      ∀ etag ∈ head.etag, LeadsBack etag.toList := by
  have hinfo : info.fileName = fileNameOf url head ∧ info.fileId = head.etag := by
    unfold getFileInfo at h
    split at h
    · cases h
    · split at h
      · cases h
      · split at h
        · cases h
        · obtain rfl := Except.ok.inj h
          exact ⟨rfl, rfl⟩
  rw [info.keysInside_iff, hinfo.1, hinfo.2]
  refine and_congr_left fun _ => ?_
  unfold fileNameOf
  cases afterLast "filename=".toList (head.contentDisposition.getD "").toList with
  | none =>
      exact iff_of_true (endsInNames_of_isName (isName_urlToFileName url)) nofun
  | some name =>
      dsimp only
      rw [String.toList_ofList]
      constructor
      · intro hname name' hname'
        obtain rfl := Option.some.inj hname'
        exact hname
      · exact fun hall => hall name rfl

/-- What a server may say of `http://host/get?id=1`. -/
def namedReply (contentDisposition etag : Option String) : ResponseHead where
  statusCode := 200
  contentLength := some "4"
  etag := etag
  contentDisposition := contentDisposition

def namedUrl : ParseResult := ⟨"host", "/get", "id=1"⟩

theorem storageKeys_inside_quoted :
    let info : ResourceInfo Unit := ⟨"a.bin", 4, some "abc", false, ()⟩
    info.KeysInside := by
  intro info
  refine (storageKeys_inside_iff (fun _ => some ()) () namedUrl
    (namedReply (some "attachment; filename=\"a.bin\"") (some "abc")) info rfl).mpr ⟨?_, ?_⟩
  · decide
  · decide

/-- **Keys that leave the directory**: a file name that goes up, and the recovery key of a weak
`ETag`. -/
theorem storageKeys_outside :
    (∃ info : ResourceInfo Unit, getFileInfo (fun _ => some ()) () namedUrl
        (namedReply (some "attachment; filename=\"../evil\"") none) = .ok info ∧
      ¬ InStorage info.fileName ∧ ¬ info.KeysInside) ∧
    ∃ info : ResourceInfo Unit, getFileInfo (fun _ => some ()) () namedUrl
        (namedReply none (some "W/\"abc\"")) = .ok info ∧
      (∀ fileId ∈ info.fileId, ¬ InStorage (recoveryKey fileId)) ∧ ¬ info.KeysInside := by
  constructor
  · have hout : ¬ InStorage "../evil" := by
      intro h
      exact absurd (isChild_iff.mp h) (by decide)
    exact ⟨⟨"../evil", 4, none, false, ()⟩, rfl, hout, fun h => hout h.1⟩
  · have hout : ¬ InStorage (recoveryKey "W/\"abc\"") := by
      rw [inStorage_recoveryKey]
      decide
    refine ⟨⟨"get_id_1.bin", 4, some "W/\"abc\"", false, ()⟩, rfl, fun fileId hid => ?_,
      fun h => hout (h.2.2 _ rfl)⟩
    obtain rfl := Option.some.inj hid
    exact hout

end SDownload
