import SDownload.Lib.Except
import SDownload.Ranges.Coverage
import SDownload.Storage.Merge

/-!
# SDownload.Storage.Assemble

What a merge writes, and that this is the source.

* `MergePlan.Inv` is the invariant of `mergeStep`: what the destination holds,
  followed by what the rest of the merge will add to it, is always the same bytes
  (`mergedBytes`). A round keeps it and lowers `MergeStage.roundsLeft`
  (`MergePlan.Inv.round`), and any change that leaves the destination and the
  sources alone keeps it too (`MergePlan.Inv.congr`).
* `mergeConfigs_bytes`: over chunks that hold exactly their slices of the source,
  these bytes are the source.
-/

namespace SDownload

/-- The bytes of the source that a range is about. -/
def ChunkRange.bytesOf (r : ChunkRange) (source : Bytes) : Bytes :=
  (source.drop r.start.toNat).take (r.stop source.length - r.start).toNat

theorem ChunkRange.InFile.length_bytesOf {r : ChunkRange} {source : Bytes}
    (h : r.InFile source.length) :
    ((r.bytesOf source).length : Int) = r.stop source.length - r.start := by
  have hlt := h.start_lt_stop
  have hle := h.stop_le
  have hstart := h.start_nonneg
  simp only [bytesOf, List.length_take, List.length_drop]
  omega

/-- A range as long as the source is all of it. -/
theorem ChunkRange.InFile.bytesOf_eq {r : ChunkRange} {source : Bytes} (h : r.InFile source.length)
    (hlen : r.stop source.length - r.start = source.length) : r.bytesOf source = source := by
  have hle := h.stop_le
  have hstart := h.start_nonneg
  have hzero : r.start.toNat = 0 := by omega
  rw [bytesOf, hzero, List.drop_zero, hlen, Int.toNat_natCast, List.take_length]

/-- The part of a file that a merge takes. -/
def FileRangeParams.slice (c : FileRangeParams) (bytes : Bytes) : Bytes :=
  let start := c.startByte.getD 0
  match c.endByte with
  | none => bytes.drop start.toNat
  | some e => (bytes.drop start.toNat).take (e - start + 1).toNat

/-- What a merge of these files writes. -/
def mergedBytes (content : String → Bytes) (configs : List FileRangeParams) : Bytes :=
  (configs.map fun c => c.slice (content c.key)).flatten

@[simp] theorem mergedBytes_nil (content : String → Bytes) : mergedBytes content [] = [] := rfl

@[simp] theorem mergedBytes_cons (content : String → Bytes) (c : FileRangeParams)
    (configs : List FileRangeParams) :
    mergedBytes content (c :: configs) = c.slice (content c.key) ++ mergedBytes content configs :=
  List.flatten_cons

/-! ### Files that stay the same -/

/-- The file systems agree on a file. -/
structure SameFile (files files' : Files) (name : String) : Prop where
  lookup : files'.lookup name = files.lookup name
  content : ∀ ino, files.lookup name = some ino → files'.content ino = files.content ino

theorem SameFile.refl (files : Files) (name : String) : SameFile files files name :=
  ⟨rfl, fun _ _ => rfl⟩

theorem SameFile.read {files files' : Files} {name : String} (h : SameFile files files' name) :
    files'.read name = files.read name :=
  FileSystem.read_congr h.lookup h.content

theorem sameFile_overwrite {files : Files} {name name' : String} {ino : Nat} (bytes : Bytes)
    (h : files.lookup name = some ino) (hne : name' ≠ name) :
    SameFile files (files.overwrite ino bytes) name' :=
  ⟨rfl, fun _ hino => FileSystem.content_overwrite_of_ne _ fun he =>
    hne (FileSystem.lookup_inj (he ▸ hino) h)⟩

theorem sameFile_openWrite {files : Files} {name name' : String} (hne : name' ≠ name) :
    SameFile files (files.openWrite name).2 name' :=
  ⟨FileSystem.lookup_openWrite_of_ne hne, fun _ hino =>
    FileSystem.content_openWrite_of_ne hne hino⟩

/-! ### The invariant of a merge -/

/-- What is left to read of an open source. -/
def MergeSource.rest (source : MergeSource) (bytes : Bytes) : Bytes :=
  match source.remainingToRead with
  | none => bytes.drop source.pos
  | some remaining => (bytes.drop source.pos).take remaining.toNat

/-- The sources that a stage has yet to open. -/
def MergeStage.configs : MergeStage → List FileRangeParams
  | .opening configs | .next _ configs | .reading _ _ configs | .writing _ _ _ configs => configs
  | .closing _ => []

/-- A bound on the rounds a stage has yet to take, when the merge writes `goal` bytes: two for
every byte and two for every source. -/
def MergeStage.roundsLeft (goal : Nat) : MergeStage → Nat
  | .opening configs => 2 * goal + 2 * configs.length + 2
  | .next dest configs => 2 * (goal - dest.pos) + 2 * configs.length + 1
  | .reading dest _ configs => 2 * (goal - dest.pos) + 2 * configs.length + 2
  | .writing dest _ _ configs => 2 * (goal - dest.pos) + 2 * configs.length + 1
  | .closing _ => 0

/-- The files a merge is to read, and what they hold. None is the destination. -/
structure MergePlan where
  destKey : String
  keys : List String
  content : String → Bytes
  destNotMem : destKey ∉ keys

namespace MergePlan

variable (plan : MergePlan)

/-- The files hold what they are to hold. -/
def SourcesOk (files : Files) : Prop :=
  ∀ key ∈ plan.keys, files.read key = some (plan.content key)

/-- The destination is open at its end, and holds `written`. -/
structure DestHolds (files : Files) (dest : Handle) (written : Bytes) : Prop where
  lookup : files.lookup plan.destKey = some dest.ino
  content : files.content dest.ino = written
  pos : dest.pos = written.length

/-- The open source is the file of `key`. -/
structure SourceOpen (files : Files) (source : MergeSource) (key : String) : Prop where
  mem : key ∈ plan.keys
  lookup : files.lookup key = some source.ino

/-- What the destination holds and what the rest of the merge adds to it make up `goal`. -/
def StageInv (goal : Bytes) (files : Files) : MergeStage → Prop
  | .opening configs => mergedBytes plan.content configs = goal
  | .next dest configs =>
      ∃ written, plan.DestHolds files dest written ∧
        written ++ mergedBytes plan.content configs = goal
  | .reading dest source configs =>
      ∃ written key, plan.DestHolds files dest written ∧ plan.SourceOpen files source key ∧
        written ++ (source.rest (plan.content key) ++ mergedBytes plan.content configs) = goal
  | .writing dest source chunk configs =>
      ∃ written key, plan.DestHolds files dest written ∧ plan.SourceOpen files source key ∧
        chunk ≠ [] ∧ chunk <+: source.rest (plan.content key) ∧
        written ++ (source.rest (plan.content key) ++ mergedBytes plan.content configs) = goal
  | .closing none => files.read plan.destKey = some goal
  | .closing (some _) => True

/-- The invariant of `mergeStep`. -/
structure Inv (goal : Bytes) (files : Files) (stage : MergeStage) : Prop where
  sources : plan.SourcesOk files
  keys : ∀ c ∈ stage.configs, c.key ∈ plan.keys
  stage : plan.StageInv goal files stage

variable {plan : MergePlan} {goal : Bytes} {files files' : Files} {stage : MergeStage}

theorem SourcesOk.congr (h : plan.SourcesOk files)
    (hsame : ∀ key ∈ plan.keys, SameFile files files' key) : plan.SourcesOk files' :=
  fun key hkey => (hsame key hkey).read.trans (h key hkey)

theorem DestHolds.congr {dest : Handle} {written : Bytes} (h : plan.DestHolds files dest written)
    (hsame : SameFile files files' plan.destKey) : plan.DestHolds files' dest written :=
  ⟨hsame.lookup.trans h.lookup, (hsame.content _ h.lookup).trans h.content, h.pos⟩

theorem SourceOpen.congr {source : MergeSource} {key : String}
    (h : plan.SourceOpen files source key) (hsame : SameFile files files' key) :
    plan.SourceOpen files' source key :=
  ⟨h.mem, hsame.lookup.trans h.lookup⟩

/-- The invariant survives whatever leaves the destination and the sources alone. -/
theorem Inv.congr (h : plan.Inv goal files stage)
    (hdest : SameFile files files' plan.destKey)
    (hsources : ∀ key ∈ plan.keys, SameFile files files' key) : plan.Inv goal files' stage := by
  refine ⟨h.sources.congr hsources, h.keys, ?_⟩
  have hstage := h.stage
  cases stage with
  | opening configs => exact hstage
  | next dest configs =>
      obtain ⟨written, hwritten, hgoal⟩ := hstage
      exact ⟨written, hwritten.congr hdest, hgoal⟩
  | reading dest source configs =>
      obtain ⟨written, key, hwritten, hsource, hgoal⟩ := hstage
      exact ⟨written, key, hwritten.congr hdest, hsource.congr (hsources key hsource.mem), hgoal⟩
  | writing dest source chunk configs =>
      obtain ⟨written, key, hwritten, hsource, hne, hchunk, hgoal⟩ := hstage
      exact ⟨written, key, hwritten.congr hdest, hsource.congr (hsources key hsource.mem), hne,
        hchunk, hgoal⟩
  | closing error =>
      cases error with
      | none => exact hdest.read.trans hstage
      | some e => trivial

theorem SourceOpen.content_eq {source : MergeSource} {key : String}
    (h : plan.SourceOpen files source key) (hsources : plan.SourcesOk files) :
    files.content source.ino = plan.content key := by
  have hread := hsources key h.mem
  rw [FileSystem.read_of_lookup h.lookup] at hread
  exact Option.some.inj hread

/-- Opening the next source: all of its slice is left to read. -/
theorem Inv.openSource {dest : Handle} {config : FileRangeParams}
    {configs : List FileRangeParams} (h : plan.Inv goal files (.next dest (config :: configs))) :
    plan.Inv goal files (openSource files dest config configs) := by
  obtain ⟨written, hwritten, hgoal⟩ := h.stage
  have hkey : config.key ∈ plan.keys := h.keys config List.mem_cons_self
  have hkeys : ∀ c ∈ configs, c.key ∈ plan.keys := fun c hc =>
    h.keys c (List.mem_cons_of_mem _ hc)
  rw [mergedBytes_cons] at hgoal
  unfold SDownload.openSource
  split
  · exact ⟨h.sources, by simp [MergeStage.configs], trivial⟩
  · rename_i ino hino
    dsimp only
    split
    · rename_i hend
      refine ⟨h.sources, hkeys, written, config.key, hwritten, ⟨hkey, hino⟩, ?_⟩
      rw [← hgoal]
      simp only [MergeSource.rest, FileRangeParams.slice, hend]
    · rename_i e hend
      split
      · exact ⟨h.sources, by simp [MergeStage.configs], trivial⟩
      · refine ⟨h.sources, hkeys, written, config.key, hwritten, ⟨hkey, hino⟩, ?_⟩
        rw [← hgoal]
        simp only [MergeSource.rest, FileRangeParams.slice, hend]

/-- What a read returns is the front of what is left, and nothing only when nothing is left. -/
theorem read_prefix {ioBufferSize : Nat} (hbuffer : 1 ≤ ioBufferSize) (source : MergeSource)
    (bytes : Bytes) :
    ((bytes.drop source.pos).take (readSize ioBufferSize source.remainingToRead)) <+:
        source.rest bytes ∧
      ((bytes.drop source.pos).take (readSize ioBufferSize source.remainingToRead) = [] →
        source.rest bytes = []) := by
  unfold MergeSource.rest readSize
  cases source.remainingToRead with
  | none =>
      refine ⟨List.take_prefix _ _, fun hnil => ?_⟩
      rcases List.take_eq_nil_iff.mp hnil with h | h
      · exact absurd h (Nat.ne_of_gt hbuffer)
      · exact h
  | some remaining =>
      dsimp only
      split
      · exact ⟨List.prefix_rfl, id⟩
      · rename_i hge
        have hle : ioBufferSize ≤ remaining.toNat := by omega
        refine ⟨?_, fun hnil => ?_⟩
        · rw [← Nat.min_eq_left hle, ← List.take_take]
          exact List.take_prefix _ _
        · rcases List.take_eq_nil_iff.mp hnil with h | h
          · exact absurd h (Nat.ne_of_gt hbuffer)
          · rw [h, List.take_nil]

/-- After a write: `tail` is what is left of the source, or the source is done. -/
theorem Inv.afterWrite {dest : Handle} {source : MergeSource} {chunk : Bytes}
    {configs : List FileRangeParams} {written : Bytes} {key : String}
    (hsources : plan.SourcesOk files) (hkeys : ∀ c ∈ configs, c.key ∈ plan.keys)
    (hdest : plan.DestHolds files { dest with pos := dest.pos + chunk.length } (written ++ chunk))
    (hsource : plan.SourceOpen files source key)
    (hchunk : chunk <+: source.rest (plan.content key))
    (hgoal : written ++ (source.rest (plan.content key) ++ mergedBytes plan.content configs) =
      goal) :
    plan.Inv goal files (afterWrite dest source chunk configs) := by
  obtain ⟨tail, htail⟩ := hchunk
  have hdrop : (source.rest (plan.content key)).drop chunk.length = tail := by
    rw [← htail, List.drop_left]
  rw [← htail] at hgoal
  unfold SDownload.afterWrite
  dsimp only
  split
  · rename_i hnone
    refine ⟨hsources, hkeys, written ++ chunk, key, hdest, ⟨hsource.mem, hsource.lookup⟩, ?_⟩
    have hrest : MergeSource.rest { source with pos := source.pos + chunk.length }
        (plan.content key) = tail := by
      rw [← hdrop]
      simp only [MergeSource.rest, hnone, List.drop_drop]
    rw [hrest, ← hgoal]
    simp only [List.append_assoc]
  · rename_i remaining hsome
    have hrest : source.rest (plan.content key) =
        ((plan.content key).drop source.pos).take remaining.toNat := by
      simp only [MergeSource.rest, hsome]
    split
    · -- the limit is used up
      have hlen := congrArg List.length htail
      rw [hrest, List.length_append, List.length_take] at hlen
      have hnil : tail = [] := List.eq_nil_of_length_eq_zero (by omega)
      refine ⟨hsources, hkeys, written ++ chunk, hdest, ?_⟩
      rw [← hgoal, hnil, List.append_nil, List.append_assoc]
    · refine ⟨hsources, hkeys, written ++ chunk, key, hdest, ⟨hsource.mem, hsource.lookup⟩, ?_⟩
      have hleft : MergeSource.rest ⟨source.ino, source.pos + chunk.length,
          some (remaining - (chunk.length : Int))⟩ (plan.content key) = tail := by
        rw [← hdrop, hrest]
        simp only [MergeSource.rest, List.drop_take, List.drop_drop]
        congr 1
        omega
      rw [hleft, ← hgoal]
      simp only [List.append_assoc]

theorem openSource_roundsLeft (files : Files) (dest : Handle) (config : FileRangeParams)
    (configs : List FileRangeParams) (n : Nat) :
    (SDownload.openSource files dest config configs).roundsLeft n <
      (MergeStage.next dest (config :: configs)).roundsLeft n := by
  have hle : 2 * (n - dest.pos) + 2 * configs.length + 2 <
      2 * (n - dest.pos) + 2 * (configs.length + 1) + 1 := by omega
  unfold SDownload.openSource
  split
  · exact Nat.zero_lt_succ _
  · dsimp only
    split
    · exact hle
    · split
      · exact Nat.zero_lt_succ _
      · exact hle

theorem afterWrite_roundsLeft {dest : Handle} {source : MergeSource} {chunk : Bytes}
    {configs : List FileRangeParams} {n : Nat} (hne : chunk ≠ [])
    (hle : dest.pos + chunk.length ≤ n) :
    (SDownload.afterWrite dest source chunk configs).roundsLeft n <
      (MergeStage.writing dest source chunk configs).roundsLeft n := by
  have hpos : 0 < chunk.length := List.length_pos_iff.mpr hne
  have hlt : 2 * (n - (dest.pos + chunk.length)) + 2 * configs.length + 2 <
      2 * (n - dest.pos) + 2 * configs.length + 1 := by omega
  unfold SDownload.afterWrite
  dsimp only
  split
  · exact hlt
  · split
    · exact lt_trans (Nat.lt_succ_self _) hlt
    · exact hlt

/-- What is written to the destination is added to what it holds. -/
theorem DestHolds.writeAt {dest : Handle} {written chunk : Bytes}
    (h : plan.DestHolds files dest written) :
    plan.DestHolds (files.writeAt dest.ino dest.pos chunk)
      { dest with pos := dest.pos + chunk.length } (written ++ chunk) := by
  refine ⟨h.lookup, ?_, ?_⟩
  · show (files.overwrite dest.ino _).content dest.ino = _
    rw [FileSystem.content_overwrite_self _ (FileSystem.lookup_lt h.lookup), h.pos, h.content,
      writeBytes_end]
  · show dest.pos + chunk.length = _
    rw [h.pos, List.length_append]

/-- What is said of a round: it touches no file but the destination, keeps the invariant, brings the
merge nearer to its end, and when it is the last the destination holds `goal`. -/
structure RoundOk (plan : MergePlan) (goal : Bytes) (files : Files) (stage : MergeStage)
    (files' : Files) (next : MergeStage ⊕ Option MergeError) : Prop where
  frame : ∀ name, name ≠ plan.destKey → SameFile files files' name
  keeps : ∀ stage', next = .inl stage' →
    plan.Inv goal files' stage' ∧ stage'.roundsLeft goal.length < stage.roundsLeft goal.length
  last : next = .inr none → files'.read plan.destKey = some goal

/-- A round that is not the last. -/
theorem RoundOk.on {stage' : MergeStage}
    (hframe : ∀ name, name ≠ plan.destKey → SameFile files files' name)
    (hinv : plan.Inv goal files' stage')
    (hless : stage'.roundsLeft goal.length < stage.roundsLeft goal.length) :
    plan.RoundOk goal files stage files' (.inl stage') := by
  refine ⟨hframe, fun stage'' hs => ?_, nofun⟩
  obtain rfl := Sum.inl.inj hs
  exact ⟨hinv, hless⟩

/-- A round that fails leaves the files as they are, and the destination to be closed. -/
theorem Inv.fails (h : plan.Inv goal files stage) (hleft : 0 < stage.roundsLeft goal.length)
    (e : MergeError) : plan.RoundOk goal files stage files (.inl (.closing (some e))) :=
  .on (fun _ _ => .refl _ _) ⟨h.sources, by simp [MergeStage.configs], trivial⟩ hleft

/-- The sources are as they were where only the destination has changed. -/
theorem SourcesOk.frame (h : plan.SourcesOk files)
    (hframe : ∀ name, name ≠ plan.destKey → SameFile files files' name) : plan.SourcesOk files' :=
  h.congr fun key hkey => hframe key fun he => plan.destNotMem (he ▸ hkey)

theorem Inv.round_next {ioBufferSize : Nat} {dest : Handle} {configs : List FileRangeParams}
    {next : MergeStage ⊕ Option MergeError} {ok : Bool}
    (h : plan.Inv goal files (.next dest configs))
    (hround : mergeStep ioBufferSize plan.destKey files ok (.next dest configs) = (files', next)) :
    plan.RoundOk goal files (.next dest configs) files' next := by
  cases configs with
  | nil =>
      obtain ⟨rfl, rfl⟩ := Prod.mk.inj hround
      obtain ⟨written, hwritten, hgoal⟩ := h.stage
      refine .on (fun _ _ => .refl _ _) ⟨h.sources, by simp [MergeStage.configs], ?_⟩
        (Nat.zero_lt_succ _)
      show files.read plan.destKey = some goal
      rw [FileSystem.read_of_lookup hwritten.lookup, hwritten.content, ← hgoal, mergedBytes_nil,
        List.append_nil]
  | cons config configs =>
      cases ok with
      | false =>
          obtain ⟨rfl, rfl⟩ := Prod.mk.inj hround
          exact h.fails (Nat.zero_lt_succ _) _
      | true =>
          obtain ⟨rfl, rfl⟩ := Prod.mk.inj hround
          exact .on (fun _ _ => .refl _ _) h.openSource (openSource_roundsLeft _ _ _ _ _)

theorem Inv.round_reading {ioBufferSize : Nat} (hbuffer : 1 ≤ ioBufferSize) {dest : Handle}
    {source : MergeSource} {configs : List FileRangeParams}
    {next : MergeStage ⊕ Option MergeError} {ok : Bool}
    (h : plan.Inv goal files (.reading dest source configs))
    (hround : mergeStep ioBufferSize plan.destKey files ok (.reading dest source configs) =
      (files', next)) :
    plan.RoundOk goal files (.reading dest source configs) files' next := by
  cases ok with
  | false =>
      obtain ⟨rfl, rfl⟩ := Prod.mk.inj hround
      exact h.fails (Nat.zero_lt_succ _) _
  | true =>
      obtain ⟨written, key, hwritten, hsource, hgoal⟩ := h.stage
      obtain ⟨hfront, hnil⟩ := read_prefix hbuffer source (plan.content key)
      simp only [mergeStep, if_true] at hround
      rw [hsource.content_eq h.sources] at hround
      split at hround
      · rename_i hempty
        obtain ⟨rfl, rfl⟩ := Prod.mk.inj hround
        refine .on (fun _ _ => .refl _ _) ⟨h.sources, h.keys, written, hwritten, ?_⟩
          (Nat.lt_succ_self _)
        rw [← hgoal, hnil hempty, List.nil_append]
      · rename_i hne
        obtain ⟨rfl, rfl⟩ := Prod.mk.inj hround
        exact .on (fun _ _ => .refl _ _)
          ⟨h.sources, h.keys, written, key, hwritten, hsource, hne, hfront, hgoal⟩
          (Nat.lt_succ_self _)

theorem Inv.round_writing {ioBufferSize : Nat} {dest : Handle} {source : MergeSource}
    {chunk : Bytes} {configs : List FileRangeParams} {next : MergeStage ⊕ Option MergeError}
    {ok : Bool} (h : plan.Inv goal files (.writing dest source chunk configs))
    (hround : mergeStep ioBufferSize plan.destKey files ok (.writing dest source chunk configs) =
      (files', next)) :
    plan.RoundOk goal files (.writing dest source chunk configs) files' next := by
  cases ok with
  | false =>
      obtain ⟨rfl, rfl⟩ := Prod.mk.inj hround
      exact h.fails (Nat.zero_lt_succ _) _
  | true =>
      obtain ⟨rfl, rfl⟩ := Prod.mk.inj hround
      obtain ⟨written, key, hwritten, hsource, hne, hfront, hgoal⟩ := h.stage
      have hsame : ∀ name, name ≠ plan.destKey →
          SameFile files (files.writeAt dest.ino dest.pos chunk) name :=
        fun name hne => sameFile_overwrite _ hwritten.lookup hne
      have hkey : key ≠ plan.destKey := fun he => plan.destNotMem (he ▸ hsource.mem)
      have hle : dest.pos + chunk.length ≤ goal.length := by
        have hlen := congrArg List.length hgoal
        have hchunk := hfront.length_le
        simp only [List.length_append] at hlen
        have hpos := hwritten.pos
        omega
      exact .on hsame (Inv.afterWrite (h.sources.frame hsame) h.keys hwritten.writeAt
        (hsource.congr (hsame key hkey)) hfront hgoal) (afterWrite_roundsLeft hne hle)

/-- **A round of a merge**, at any stage. -/
theorem Inv.round {ioBufferSize : Nat} (hbuffer : 1 ≤ ioBufferSize)
    {next : MergeStage ⊕ Option MergeError} {ok : Bool} (h : plan.Inv goal files stage)
    (hround : mergeStep ioBufferSize plan.destKey files ok stage = (files', next)) :
    plan.RoundOk goal files stage files' next := by
  cases stage with
  | opening configs =>
      cases ok with
      | false =>
          obtain ⟨rfl, rfl⟩ := Prod.mk.inj hround
          exact ⟨fun _ _ => .refl _ _, nofun, nofun⟩
      | true =>
          obtain ⟨rfl, rfl⟩ := Prod.mk.inj hround
          have hsame : ∀ name, name ≠ plan.destKey →
              SameFile files (files.openWrite plan.destKey).2 name :=
            fun name hne => sameFile_openWrite hne
          refine .on hsame ⟨h.sources.frame hsame, h.keys, [], ?_, h.stage⟩ (Nat.lt_succ_self _)
          exact ⟨FileSystem.lookup_openWrite_self, FileSystem.content_openWrite_self, rfl⟩
  | next dest configs => exact h.round_next hround
  | reading dest source configs => exact h.round_reading hbuffer hround
  | writing dest source chunk configs => exact h.round_writing hround
  | closing error =>
      cases ok with
      | false =>
          obtain ⟨rfl, rfl⟩ := Prod.mk.inj hround
          exact ⟨fun _ _ => .refl _ _, nofun, nofun⟩
      | true =>
          obtain ⟨rfl, rfl⟩ := Prod.mk.inj hround
          refine ⟨fun _ _ => .refl _ _, nofun, fun he => ?_⟩
          obtain rfl := Sum.inr.inj he
          exact h.stage

/-- A stage that no failure led to, with ranges that end no earlier than just before their
start. -/
def Sound : MergeStage → Prop
  | .closing error => error = none
  | stage => ∀ c ∈ stage.configs, ∀ e ∈ c.endByte, c.startByte.getD 0 ≤ e + 1

/-- A round that succeeds leads to no failure. -/
theorem Inv.round_sound {ioBufferSize : Nat} {next : MergeStage ⊕ Option MergeError}
    (h : plan.Inv goal files stage) (hsound : Sound stage)
    (hround : mergeStep ioBufferSize plan.destKey files true stage = (files', next)) :
    (∀ stage', next = .inl stage' → Sound stage') ∧ ∀ e, next = .inr e → e = none := by
  cases stage with
  | opening configs =>
      obtain ⟨rfl, rfl⟩ := Prod.mk.inj hround
      exact ⟨fun stage' hs => Sum.inl.inj hs ▸ hsound, by simp⟩
  | next dest configs =>
      cases configs with
      | nil =>
          obtain ⟨rfl, rfl⟩ := Prod.mk.inj hround
          exact ⟨fun stage' hs => Sum.inl.inj hs ▸ rfl, by simp⟩
      | cons config configs =>
          obtain ⟨rfl, rfl⟩ := Prod.mk.inj hround
          refine ⟨fun stage' hs => ?_, by simp⟩
          obtain rfl := Sum.inl.inj hs
          have hrest : ∀ c ∈ configs, ∀ e ∈ c.endByte, c.startByte.getD 0 ≤ e + 1 := fun c hc =>
            hsound c (List.mem_cons_of_mem _ hc)
          have hread := h.sources config.key (h.keys config List.mem_cons_self)
          simp only [SDownload.openSource]
          split
          · rename_i hnone
            simp [FileSystem.read, hnone] at hread
          · split
            · exact hrest
            · rename_i e hend
              have hle := hsound config List.mem_cons_self e hend
              rw [if_neg (by omega)]
              exact hrest
  | reading dest source configs =>
      simp only [mergeStep, if_true] at hround
      split at hround <;> obtain ⟨rfl, rfl⟩ := Prod.mk.inj hround
      · exact ⟨fun stage' hs => Sum.inl.inj hs ▸ hsound, by simp⟩
      · exact ⟨fun stage' hs => Sum.inl.inj hs ▸ hsound, by simp⟩
  | writing dest source chunk configs =>
      obtain ⟨rfl, rfl⟩ := Prod.mk.inj hround
      refine ⟨fun stage' hs => ?_, by simp⟩
      obtain rfl := Sum.inl.inj hs
      simp only [SDownload.afterWrite]
      split
      · exact hsound
      · split <;> exact hsound
  | closing error =>
      obtain ⟨rfl, rfl⟩ := Prod.mk.inj hround
      exact ⟨by simp, fun e he => Sum.inr.inj he ▸ hsound⟩

/-- Enough rounds bring a sound merge to its end, with `goal` in the destination. -/
theorem Inv.rounds {ioBufferSize : Nat} (hbuffer : 1 ≤ ioBufferSize) {fuel : Nat}
    (h : plan.Inv goal files stage) (hsound : Sound stage)
    (hfuel : stage.roundsLeft goal.length < fuel) :
    ∃ files', mergeRounds ioBufferSize plan.destKey fuel files stage = some (files', none) ∧
      files'.read plan.destKey = some goal := by
  induction fuel generalizing files stage with
  | zero => exact absurd hfuel (Nat.not_lt_zero _)
  | succ fuel ih =>
      rcases hround : mergeStep ioBufferSize plan.destKey files true stage with ⟨files₁, next⟩
      obtain ⟨-, hnext, hlast⟩ := h.round hbuffer hround
      obtain ⟨hsound', hend⟩ := h.round_sound hsound hround
      simp only [mergeRounds, hround]
      cases next with
      | inl stage' =>
          obtain ⟨hinv, hlt⟩ := hnext stage' rfl
          exact ih hinv (hsound' stage' rfl) (by omega)
      | inr e =>
          obtain rfl := hend e rfl
          exact ⟨files₁, rfl, hlast rfl⟩

/-- The rounds of a merge leave every other file as it was. -/
theorem Inv.rounds_frame {ioBufferSize : Nat} (hbuffer : 1 ≤ ioBufferSize) {fuel : Nat}
    {error : Option MergeError} (h : plan.Inv goal files stage)
    (hrounds : mergeRounds ioBufferSize plan.destKey fuel files stage = some (files', error))
    {name : String} (hname : name ≠ plan.destKey) : files'.read name = files.read name := by
  induction fuel generalizing files stage with
  | zero => cases hrounds
  | succ fuel ih =>
      rcases hround : mergeStep ioBufferSize plan.destKey files true stage with ⟨files₁, next⟩
      obtain ⟨hsame, hnext, -⟩ := h.round hbuffer hround
      have hread := (hsame name hname).read
      simp only [mergeRounds, hround] at hrounds
      cases next with
      | inl stage' => exact (ih (hnext stage' rfl).1 hrounds).trans hread
      | inr e =>
          obtain ⟨rfl, -⟩ := Prod.mk.inj (Option.some.inj hrounds)
          exact hread

/-- What a list of ranges asks a merge for. -/
def ofConfigs (configs : List FileRangeParams) (destKey : String) (content : String → Bytes)
    (hdest : ∀ c ∈ configs, c.key ≠ destKey) : MergePlan where
  destKey := destKey
  keys := configs.map (·.key)
  content := content
  destNotMem := fun hmem => by
    obtain ⟨c, hc, hkey⟩ := List.mem_map.mp hmem
    exact hdest c hc hkey

/-- Where a merge starts. -/
theorem inv_ofConfigs {configs : List FileRangeParams} {destKey : String}
    {content : String → Bytes} (hdest : ∀ c ∈ configs, c.key ≠ destKey)
    (hcontent : ∀ c ∈ configs, files.read c.key = some (content c.key)) :
    (ofConfigs configs destKey content hdest).Inv (mergedBytes content configs) files
      (.opening configs) := by
  refine ⟨fun key hkey => ?_, fun c hc => List.mem_map_of_mem hc, rfl⟩
  obtain ⟨c, hc, rfl⟩ := List.mem_map.mp hkey
  exact hcontent c hc

end MergePlan

theorem FileRangeParams.length_slice_le (c : FileRangeParams) (bytes : Bytes) :
    (c.slice bytes).length ≤ bytes.length := by
  unfold slice
  dsimp only
  split <;> simp

/-- **`merge_ranges` writes the slices of its sources**, whatever the buffer size. -/
theorem merge_ranges_exact {ioBufferSize : Nat} (hbuffer : 1 ≤ ioBufferSize) (files : Files)
    (configs : List FileRangeParams) (destKey : String) (content : String → Bytes)
    (hdest : ∀ c ∈ configs, c.key ≠ destKey)
    (hcontent : ∀ c ∈ configs, files.read c.key = some (content c.key))
    (hvalid : ∀ c ∈ configs, ∀ e ∈ c.endByte, c.startByte.getD 0 ≤ e + 1) :
    ∃ files', mergeRanges ioBufferSize files configs destKey = some (files', none) ∧
      files'.read destKey = some (mergedBytes content configs) := by
  refine (MergePlan.inv_ofConfigs hdest hcontent).rounds hbuffer hvalid ?_
  have hbudget : ∀ l : List FileRangeParams, (∀ c ∈ l, files.read c.key = some (content c.key)) →
      2 * (mergedBytes content l).length + 2 * l.length ≤
        (l.map fun c => 2 * ((files.read c.key).getD []).length + 2).sum := by
    intro l hl
    induction l with
    | nil => simp
    | cons c l ih =>
        have hslice := c.length_slice_le (content c.key)
        have hrest := ih fun c' hc' => hl c' (List.mem_cons_of_mem _ hc')
        simp only [mergedBytes_cons, List.length_append, List.length_cons, List.map_cons,
          List.sum_cons, hl c List.mem_cons_self, Option.getD_some]
        omega
  have hle := hbudget configs hcontent
  simp only [MergeStage.roundsLeft, mergeBudget]
  omega

/-- A merge whose sources are there leaves every file but the destination as it was. -/
theorem merge_ranges_frame {ioBufferSize : Nat} (hbuffer : 1 ≤ ioBufferSize) {files files' : Files}
    {configs : List FileRangeParams} {destKey : String} {content : String → Bytes}
    {error : Option MergeError} (hdest : ∀ c ∈ configs, c.key ≠ destKey)
    (hcontent : ∀ c ∈ configs, files.read c.key = some (content c.key))
    (h : mergeRanges ioBufferSize files configs destKey = some (files', error)) {name : String}
    (hname : name ≠ destKey) : files'.read name = files.read name :=
  (MergePlan.inv_ofConfigs hdest hcontent).rounds_frame hbuffer h hname

/-- The slice of a file that is to be read from end to end. -/
theorem mergedBytes_whole (content : String → Bytes) (keys : List String) :
    mergedBytes content (keys.map fun key => { key }) = (keys.map content).flatten := by
  rw [mergedBytes, List.map_map]
  rfl

/-- **A merge is the concatenation of its slices**, and a merge of whole files the concatenation
of the files. -/
theorem merge_concatenates {ioBufferSize : Nat} (hbuffer : 1 ≤ ioBufferSize) (files : Files)
    (destKey : String) (content : String → Bytes) :
    (∀ configs : List FileRangeParams,
      (∀ c ∈ configs, c.key ≠ destKey ∧ files.read c.key = some (content c.key)) →
      (∀ c ∈ configs, ∀ e ∈ c.endByte, c.startByte.getD 0 - 1 ≤ e) →
      ∃ files', mergeRanges ioBufferSize files configs destKey = some (files', none) ∧
        files'.read destKey = some (configs.map fun c => c.slice (content c.key)).flatten ∧
        ∀ name, name ≠ destKey → files'.read name = files.read name) ∧
    ∀ sourceKeys : List String,
      (∀ key ∈ sourceKeys, key ≠ destKey ∧ files.read key = some (content key)) →
      ∃ files', mergeBinaryFiles ioBufferSize files sourceKeys destKey = some (files', none) ∧
        files'.read destKey = some (sourceKeys.map content).flatten ∧
        ∀ name, name ≠ destKey → files'.read name = files.read name := by
  have hranges : ∀ configs : List FileRangeParams,
      (∀ c ∈ configs, c.key ≠ destKey ∧ files.read c.key = some (content c.key)) →
      (∀ c ∈ configs, ∀ e ∈ c.endByte, c.startByte.getD 0 - 1 ≤ e) →
      ∃ files', mergeRanges ioBufferSize files configs destKey = some (files', none) ∧
        files'.read destKey = some (mergedBytes content configs) ∧
        ∀ name, name ≠ destKey → files'.read name = files.read name := by
    intro configs hsources hvalid
    have hdest : ∀ c ∈ configs, c.key ≠ destKey := fun c hc => (hsources c hc).1
    have hcontent : ∀ c ∈ configs, files.read c.key = some (content c.key) := fun c hc =>
      (hsources c hc).2
    have hends : ∀ c ∈ configs, ∀ e ∈ c.endByte, c.startByte.getD 0 ≤ e + 1 := by
      intro c hc e he
      have hle := hvalid c hc e he
      omega
    obtain ⟨files', hmerge, hbytes⟩ :=
      merge_ranges_exact hbuffer files configs destKey content hdest hcontent hends
    exact ⟨files', hmerge, hbytes, fun name => merge_ranges_frame hbuffer hdest hcontent hmerge⟩
  refine ⟨hranges, fun sourceKeys hsources => ?_⟩
  rw [← mergedBytes_whole]
  refine hranges _ (fun c hc => ?_) fun c hc e he => ?_
  · obtain ⟨key, hkey, rfl⟩ := List.mem_map.mp hc
    exact hsources key hkey
  · obtain ⟨key, -, rfl⟩ := List.mem_map.mp hc
    cases he

/-- The end of a file, nothing of it, all of it, and more than there is of it. -/
theorem merge_concatenates_five :
    let files : Files := (FileSystem.empty.openWrite "a").2.writeAt 0 0 [1, 2, 3, 4, 5]
    ∃ files', mergeRanges 2 files
        [⟨"a", some 3, none⟩, ⟨"a", some 2, some 1⟩, ⟨"a", none, none⟩, ⟨"a", some 4, some 9⟩] "b" =
          some (files', none) ∧
      files'.read "b" = some [4, 5, 1, 2, 3, 4, 5, 5] := by
  intro files
  obtain ⟨files', hmerge, hbytes, -⟩ := (merge_concatenates (by decide : 1 ≤ 2) files "b"
    fun _ => [1, 2, 3, 4, 5]).1
    [⟨"a", some 3, none⟩, ⟨"a", some 2, some 1⟩, ⟨"a", none, none⟩, ⟨"a", some 4, some 9⟩]
    (by decide) (by decide)
  exact ⟨files', hmerge, hbytes⟩

/-! ### What a merge of completed chunks is -/

section Configs

variable {κ : Type} {source : Bytes} {content : String → Bytes}

theorem rangeMap_get? {completed : List (ChunkDownloadStats κ)} {r : ChunkRange}
    {stats : ChunkDownloadStats κ} (h : (rangeMap completed).get? r = some stats) :
    stats ∈ completed ∧ stats.range = r := by
  rcases Dict.get?_foldl_set ChunkDownloadStats.range id h with h | ⟨stats', hmem, hrange, rfl⟩
  · cases h
  · exact ⟨hmem, hrange⟩

/-- The config of a fragment is about the file of a completed chunk of its range. -/
theorem fragmentConfig_ok {completed : List (ChunkDownloadStats κ)} {frag : ChunkFragment}
    {config : FileRangeParams} (h : fragmentConfig (rangeMap completed) frag = .ok config) :
    ∃ stats ∈ completed, stats.range = frag.range ∧
      config = ⟨stats.chunkFileName, some 0,
        frag.readLimitQtBytes.bind fun limit => if limit = 0 then none else some (limit - 1)⟩ := by
  unfold fragmentConfig at h
  split at h
  · cases h
  · rename_i stats hstats
    obtain ⟨hmem, hrange⟩ := rangeMap_get? hstats
    refine ⟨stats, hmem, hrange, ?_⟩
    obtain rfl := Except.ok.inj h
    cases frag.readLimitQtBytes <;> rfl

/-- What a fragment contributes: the source from its start to where the next one starts. -/
theorem slice_fragment {frag : ChunkFragment} {key : String}
    (hin : frag.range.InFile source.length) (hlimit : frag.LimitOk)
    (hcontent : content key = frag.range.bytesOf source) :
    ∃ next, frag.next (some source.length) = some next ∧ frag.range.start ≤ next ∧
      FileRangeParams.slice ⟨key, some 0, frag.readLimitQtBytes.bind fun limit =>
          if limit = 0 then none else some (limit - 1)⟩ (content key) =
        (source.drop frag.range.start.toNat).take (next - frag.range.start).toNat := by
  have hstop := hin.start_lt_stop
  obtain ⟨⟨s, e⟩, limit⟩ := frag
  dsimp only at *
  cases limit with
  | none =>
      refine ⟨(⟨s, e⟩ : ChunkRange).stop source.length, ?_, hstop.le, ?_⟩
      · cases e <;> rfl
      · simp only [FileRangeParams.slice, Option.bind_none, Option.getD_some, Int.toNat_zero,
          List.drop_zero, hcontent, ChunkRange.bytesOf]
  | some k =>
      obtain ⟨hk, e, rfl, hke⟩ := hlimit k rfl
      refine ⟨s + k, rfl, by omega, ?_⟩
      have hne : k ≠ 0 := by omega
      simp only [FileRangeParams.slice, Option.bind_some, if_neg hne, Option.getD_some,
        Int.toNat_zero, List.drop_zero, hcontent, ChunkRange.bytesOf, ChunkRange.stop_some,
        List.take_take]
      congr 1
      dsimp only at hke
      omega

/-- Fragments that follow each other from `pos` merge to the source from there on. -/
theorem mergedBytes_of_fragTiles {completed : List (ChunkDownloadStats κ)}
    {chunks : List ChunkRange}
    (hchunk : ∀ s ∈ completed, s.range.InFile source.length ∧
      content s.chunkFileName = s.range.bytesOf source)
    {fragments : List ChunkFragment} {configs : List FileRangeParams}
    (hconfigs : List.Forall₂ (fun frag config =>
      fragmentConfig (rangeMap completed) frag = .ok config) fragments configs)
    {pos : Int} (hpos : 0 ≤ pos)
    (htiles : FragTiles chunks (some source.length) (some pos) fragments (some source.length)) :
    mergedBytes content configs = source.drop pos.toNat := by
  induction hconfigs generalizing pos with
  | nil =>
      obtain rfl := Option.some.inj (show some pos = some (source.length : Int) from htiles)
      simp
  | @cons frag config fragments configs hconfig _ ih =>
      obtain ⟨-, hstart, hlimit, htiles⟩ := htiles
      obtain rfl := Option.some.inj hstart
      obtain ⟨stats, hmem, hrange, rfl⟩ := fragmentConfig_ok hconfig
      obtain ⟨hin, hcontent⟩ := hchunk stats hmem
      rw [hrange] at hin hcontent
      obtain ⟨next, hnext, hle, hslice⟩ := slice_fragment hin hlimit hcontent
      rw [hnext] at htiles
      rw [mergedBytes_cons, hslice, ih (hpos.trans hle) htiles]
      have hdrop : source.drop next.toNat =
          (source.drop frag.range.start.toNat).drop (next - frag.range.start).toNat := by
        rw [List.drop_drop]
        congr 1
        omega
      rw [hdrop, List.take_append_drop]

/-- **The merge of a list of records is the source**, when every completed one of them holds its
part of it. -/
theorem mergeConfigs_bytes (content : String → Bytes) {statsList : List (ChunkDownloadStats κ)}
    {configs : List FileRangeParams} (hsource : 0 < source.length)
    (hchunk : ∀ s ∈ statsList, s.status = .completed → s.range.InFile source.length ∧
      content s.chunkFileName = s.range.bytesOf source)
    (h : mergeConfigs statsList (some source.length) = .ok configs) :
    (∀ c ∈ configs, ∃ s ∈ statsList, s.status = .completed ∧ c.key = s.chunkFileName) ∧
      mergedBytes content configs = source := by
  unfold mergeConfigs at h
  dsimp only at h
  split at h
  · cases h
  split at h
  · cases h
  rename_i fragments hfragments
  have hall := Except.forall₂_of_mapM_ok h
  constructor
  · intro c hc
    obtain ⟨frag, -, hconfig⟩ := Except.exists_of_mapM_ok h hc
    obtain ⟨stats, hmem, -, rfl⟩ := fragmentConfig_ok hconfig
    obtain ⟨hmem, hstatus⟩ := List.mem_filter.mp hmem
    exact ⟨stats, hmem, of_decide_eq_true hstatus, rfl⟩
  · have htiles := calculateOptimalCoverage_sound
      (by rintro g ⟨⟩; exact Int.natCast_pos.mpr hsource) hfragments
    rw [mergedBytes_of_fragTiles (fun s hs => ?_) hall le_rfl htiles]
    · rfl
    · obtain ⟨hmem, hstatus⟩ := List.mem_filter.mp hs
      exact hchunk s hmem (of_decide_eq_true hstatus)

/-- When the completed chunks cover the file, there is something to merge, and no part of it ends
before it starts. -/
theorem mergeConfigs_ok {statsList : List (ChunkDownloadStats κ)} {fileSize : Int}
    (hsize : 0 < fileSize) (hcompleted : ∀ s ∈ statsList, s.status = .completed)
    (hstart : ∀ s ∈ statsList, 0 ≤ s.range.start)
    (hcover : ∀ x, 0 ≤ x → x < fileSize → ∃ s ∈ statsList, s.range.Has x) :
    ∃ configs, mergeConfigs statsList (some fileSize) = .ok configs ∧
      ∀ c ∈ configs, ∀ e ∈ c.endByte, c.startByte.getD 0 ≤ e + 1 := by
  have hpos : ∀ g, some fileSize = some g → 0 < g := fun g hg => Option.some.inj hg ▸ hsize
  have hfilter : (statsList.filter fun s => s.status = .completed) = statsList :=
    List.filter_eq_self.mpr fun s hs => decide_eq_true (hcompleted s hs)
  obtain ⟨s₀, hs₀, -⟩ := hcover 0 le_rfl hsize
  obtain ⟨fragments, hfragments⟩ := calculateOptimalCoverage_complete hpos
    (fun r hr => by
      obtain ⟨s, hs, rfl⟩ := List.mem_map.mp hr
      exact hstart s hs)
    (fun x h0 hx => by
      obtain ⟨s, hs, hhas⟩ := hcover x h0 (hx fileSize rfl)
      exact ⟨s.range, List.mem_map_of_mem (f := (·.range)) hs, hhas⟩)
  have htiles := calculateOptimalCoverage_sound hpos hfragments
  have hfile : ∀ frag ∈ fragments, ∃ s, (rangeMap statsList).get? frag.range = some s :=
    fun frag hfrag => Dict.mem_keys_iff.mp ((Dict.mem_keys_foldl_set ChunkDownloadStats.range id
      statsList Dict.empty frag.range).mpr (Or.inr (htiles.of_mem hfrag).1))
  have hall : ∀ frag ∈ fragments, fragmentConfig (rangeMap statsList) frag =
      .ok ⟨(((rangeMap statsList).get? frag.range).getD default).chunkFileName, some 0,
        frag.readLimitQtBytes.bind fun limit => if limit = 0 then none else some (limit - 1)⟩ := by
    intro frag hfrag
    obtain ⟨s, hs⟩ := hfile frag hfrag
    simp only [fragmentConfig, hs, Option.getD_some]
    cases frag.readLimitQtBytes <;> rfl
  have hmerge : mergeConfigs statsList (some fileSize) =
      fragments.mapM (fragmentConfig (rangeMap statsList)) := by
    simp only [mergeConfigs, hfilter, if_neg (List.ne_nil_of_mem hs₀), hfragments]
  refine ⟨_, hmerge.trans (Except.mapM_ok_of_forall hall), fun c hc e he => ?_⟩
  obtain ⟨frag, hfrag, rfl⟩ := List.mem_map.mp hc
  obtain ⟨limit, hlimit, hend⟩ := Option.bind_eq_some_iff.mp he
  obtain ⟨hone, -⟩ := (htiles.of_mem hfrag).2 limit hlimit
  split at hend
  · cases hend
  · obtain rfl := Option.some.inj hend
    simp only [Option.getD_some]
    omega

end Configs

end SDownload
