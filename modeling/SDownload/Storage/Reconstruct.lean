import SDownload.Storage.Assemble

/-!
# SDownload.Storage.Reconstruct

`reconstruct_file` when its storage operations may fail.

A run is driven by the outcomes of the operations it awaits, one for each round of
`mergeStep` (`mergeUnder`). A merge opens its destination, and so empties it, before it
looks for its first source: what fails after that finds the destination spoiled, unless
it was empty before and nothing has been written to it (`reconstruct_clean_iff`).
-/

namespace SDownload

/-! ### Merges that are interrupted -/

/-- What the operation of a stage has done when it does not return: so many bytes of a write, and
of the opening nothing if it is 0. -/
def interrupted (destKey : String) (files : Files) (effect : Nat) : MergeStage → Files
  | .opening _ => if effect = 0 then files else (files.openWrite destKey).2
  | .writing dest _ chunk _ => files.writeAt dest.ino dest.pos (chunk.take effect)
  | _ => files

/-- One round of `merge_ranges`, whose operation returns (`none`) or does not. -/
def mergeStepUnder (ioBufferSize : Nat) (destKey : String) (files : Files)
    (outcome : Option Nat) (stage : MergeStage) : Files × (MergeStage ⊕ Option MergeError) :=
  match outcome with
  | none => mergeStep ioBufferSize destKey files true stage
  | some effect =>
      (interrupted destKey files effect stage, (mergeStep ioBufferSize destKey files false stage).2)

/-- `merge_ranges` from a stage on, with these outcomes; `none` is a run that they do not end. -/
def mergeUnder (ioBufferSize : Nat) (destKey : String) :
    List (Option Nat) → Files → MergeStage → Option (Files × Option MergeError)
  | [], _, _ => none
  | outcome :: outcomes, files, stage =>
      match mergeStepUnder ioBufferSize destKey files outcome stage with
      | (files, .inl stage) => mergeUnder ioBufferSize destKey outcomes files stage
      | (files, .inr error) => some (files, error)

/-- `reconstruct_file`, where its storage operations have these outcomes. -/
def reconstructFileUnder {κ : Type} (ioBufferSize : Nat) (outcomes : List (Option Nat))
    (files : Files) (statsList : List (ChunkDownloadStats κ)) (finalFilename : String)
    (totalFileSize : Option Int) : Option (Files × Except ReconstructionError String) :=
  match mergeConfigs statsList totalFileSize with
  | .error e => some (files, .error e)
  | .ok configs =>
      match mergeUnder ioBufferSize finalFilename outcomes files (.opening configs) with
      | none => none
      | some (files, none) => some (files, .ok finalFilename)
      | some (files, some e) => some (files, .error (.merge e))

variable {ioBufferSize : Nat} {destKey : String} {files files' : Files} {outcome : Option Nat}
  {outcomes : List (Option Nat)} {stage : MergeStage} {error : Option MergeError}
  {config : FileRangeParams} {configs : List FileRangeParams}

theorem mergeUnder_inl {stage' : MergeStage}
    (h : mergeStepUnder ioBufferSize destKey files outcome stage = (files', .inl stage')) :
    mergeUnder ioBufferSize destKey (outcome :: outcomes) files stage =
      mergeUnder ioBufferSize destKey outcomes files' stage' := by
  rw [mergeUnder, h]

theorem mergeUnder_inr
    (h : mergeStepUnder ioBufferSize destKey files outcome stage = (files', .inr error)) :
    mergeUnder ioBufferSize destKey (outcome :: outcomes) files stage = some (files', error) := by
  rw [mergeUnder, h]

/-- The opening of the destination. -/
theorem mergeUnder_opened :
    mergeUnder ioBufferSize destKey (none :: outcomes) files (.opening configs) =
      mergeUnder ioBufferSize destKey outcomes (files.openWrite destKey).2
        (.next ⟨(files.openWrite destKey).1, 0⟩ configs) :=
  rfl

/-- Where every operation returns, this is the merge that nothing interrupts. -/
theorem mergeUnder_replicate (fuel : Nat) (files : Files) (stage : MergeStage) :
    mergeUnder ioBufferSize destKey (List.replicate fuel none) files stage =
      mergeRounds ioBufferSize destKey fuel files stage := by
  induction fuel generalizing files stage with
  | zero => rfl
  | succ fuel ih =>
      rw [List.replicate_succ]
      unfold mergeUnder mergeRounds
      rw [show mergeStepUnder ioBufferSize destKey files none stage =
        mergeStep ioBufferSize destKey files true stage from rfl]
      rcases mergeStep ioBufferSize destKey files true stage with ⟨files₁, stage₁ | e⟩
      · exact ih files₁ stage₁
      · rfl

/-- So is the reconstruction. -/
theorem reconstructFileUnder_replicate {κ : Type} (files : Files)
    (statsList : List (ChunkDownloadStats κ)) (finalFilename : String)
    (totalFileSize : Option Int) {configs : List FileRangeParams}
    (hconfigs : mergeConfigs statsList totalFileSize = .ok configs) :
    reconstructFileUnder ioBufferSize (List.replicate (mergeBudget files configs) none) files
        statsList finalFilename totalFileSize =
      reconstructFile ioBufferSize files statsList finalFilename totalFileSize := by
  have hmerge : mergeUnder ioBufferSize finalFilename
      (List.replicate (mergeBudget files configs) none) files (.opening configs) =
        mergeRanges ioBufferSize files configs finalFilename := mergeUnder_replicate _ files _
  unfold reconstructFileUnder reconstructFile
  rw [hconfigs]
  dsimp only
  generalize mergeUnder ioBufferSize finalFilename _ files (.opening configs) = merged at hmerge
  subst hmerge
  rfl

/-! ### Only the destination changes -/

/-- The destination a stage has open is the file of that name. -/
def DestOpen (destKey : String) (files : Files) : MergeStage → Prop
  | .next dest _ | .reading dest _ _ | .writing dest _ _ _ => files.lookup destKey = some dest.ino
  | .opening _ | .closing _ => True

/-- A range that ends more than a byte before it starts. -/
def FileRangeParams.Invalid (c : FileRangeParams) : Prop :=
  ∃ e ∈ c.endByte, e - c.startByte.getD 0 + 1 < 0

/-- The next source is refused, or all of its slice is left to read. -/
theorem openSource_cases (files : Files) (dest : Handle) (c : FileRangeParams)
    (configs : List FileRangeParams) :
    (∃ e, openSource files dest c configs = .closing (some e) ∧
      (files.lookup c.key = none ∨ c.Invalid)) ∨
    ∃ source, openSource files dest c configs = .reading dest source configs ∧
      files.lookup c.key = some source.ino ∧ ¬ c.Invalid ∧
      ∀ bytes, source.rest bytes = c.slice bytes := by
  unfold openSource
  cases hlookup : files.lookup c.key with
  | none => exact Or.inl ⟨_, rfl, Or.inl rfl⟩
  | some ino =>
      dsimp only
      cases hend : c.endByte with
      | none =>
          refine Or.inr ⟨_, rfl, rfl, ?_, fun bytes => ?_⟩
          · rintro ⟨e, he, -⟩
            rw [hend] at he
            cases he
          · simp only [MergeSource.rest, FileRangeParams.slice, hend]
      | some e =>
          dsimp only
          split
          · rename_i hinvalid
            exact Or.inl ⟨_, rfl, Or.inr ⟨e, hend, hinvalid⟩⟩
          · rename_i hvalid
            refine Or.inr ⟨_, rfl, rfl, ?_, fun bytes => ?_⟩
            · rintro ⟨e', he', hlt⟩
              obtain rfl := Option.some.inj (hend.symm.trans he')
              exact hvalid hlt
            · simp only [MergeSource.rest, FileRangeParams.slice, hend]

/-- After a write the merge reads on, or turns to the next source. -/
theorem afterWrite_cases (dest : Handle) (source : MergeSource) (chunk : Bytes)
    (configs : List FileRangeParams) :
    (∃ source', afterWrite dest source chunk configs =
      .reading { dest with pos := dest.pos + chunk.length } source' configs) ∨
    afterWrite dest source chunk configs =
      .next { dest with pos := dest.pos + chunk.length } configs := by
  unfold afterWrite
  dsimp only
  split
  · exact Or.inl ⟨_, rfl⟩
  · split
    · exact Or.inr rfl
    · exact Or.inl ⟨_, rfl⟩

/-- What one round can do, at each stage. -/
theorem mergeStepUnder_cases {next : MergeStage ⊕ Option MergeError}
    (h : mergeStepUnder ioBufferSize destKey files outcome stage = (files', next)) :
    match stage with
    | .opening configs =>
        (files' = (files.openWrite destKey).2 ∧
            next = .inl (.next ⟨(files.openWrite destKey).1, 0⟩ configs)) ∨
          ((files' = files ∨ files' = (files.openWrite destKey).2) ∧ ∃ e, next = .inr e)
    | .next dest configs =>
        files' = files ∧ ((∃ e, next = .inl (.closing e)) ∨
          ∃ c rest, configs = c :: rest ∧ next = .inl (openSource files dest c rest))
    | .reading dest source configs =>
        let chunk := ((files.content source.ino).drop source.pos).take
          (readSize ioBufferSize source.remainingToRead)
        files' = files ∧ ((∃ e, next = .inl (.closing e)) ∨
          (chunk = [] ∧ next = .inl (.next dest configs)) ∨
          (chunk ≠ [] ∧ next = .inl (.writing dest source chunk configs)))
    | .writing dest source chunk configs =>
        ∃ bytes, files' = files.writeAt dest.ino dest.pos bytes ∧
          ((∃ e, next = .inl (.closing e)) ∨ next = .inl (afterWrite dest source chunk configs))
    | .closing _ => files' = files ∧ ∃ e, next = .inr e := by
  cases stage with
  | opening configs =>
      cases outcome with
      | none =>
          obtain ⟨rfl, rfl⟩ := Prod.mk.inj h
          exact Or.inl ⟨rfl, rfl⟩
      | some effect =>
          obtain ⟨rfl, rfl⟩ := Prod.mk.inj h
          exact Or.inr ⟨ite_eq_or_eq _ _ _, _, rfl⟩
  | next dest configs =>
      cases configs with
      | nil =>
          cases outcome with
          | none =>
              obtain ⟨rfl, rfl⟩ := Prod.mk.inj h
              exact ⟨rfl, Or.inl ⟨_, rfl⟩⟩
          | some effect =>
              obtain ⟨rfl, rfl⟩ := Prod.mk.inj h
              exact ⟨rfl, Or.inl ⟨_, rfl⟩⟩
      | cons c rest =>
          cases outcome with
          | none =>
              obtain ⟨rfl, rfl⟩ := Prod.mk.inj h
              exact ⟨rfl, Or.inr ⟨c, rest, rfl, rfl⟩⟩
          | some effect =>
              obtain ⟨rfl, rfl⟩ := Prod.mk.inj h
              exact ⟨rfl, Or.inl ⟨_, rfl⟩⟩
  | reading dest source configs =>
      cases outcome with
      | none =>
          simp only [mergeStepUnder, mergeStep, if_true] at h
          split at h
          · rename_i hnil
            obtain ⟨rfl, rfl⟩ := Prod.mk.inj h
            exact ⟨rfl, Or.inr (Or.inl ⟨hnil, rfl⟩)⟩
          · rename_i hne
            obtain ⟨rfl, rfl⟩ := Prod.mk.inj h
            exact ⟨rfl, Or.inr (Or.inr ⟨hne, rfl⟩)⟩
      | some effect =>
          obtain ⟨rfl, rfl⟩ := Prod.mk.inj h
          exact ⟨rfl, Or.inl ⟨_, rfl⟩⟩
  | writing dest source chunk configs =>
      cases outcome with
      | none =>
          obtain ⟨rfl, rfl⟩ := Prod.mk.inj h
          exact ⟨_, rfl, Or.inr rfl⟩
      | some effect =>
          obtain ⟨rfl, rfl⟩ := Prod.mk.inj h
          exact ⟨_, rfl, Or.inl ⟨_, rfl⟩⟩
  | closing error =>
      cases outcome with
      | none =>
          obtain ⟨rfl, rfl⟩ := Prod.mk.inj h
          exact ⟨rfl, _, rfl⟩
      | some effect =>
          obtain ⟨rfl, rfl⟩ := Prod.mk.inj h
          exact ⟨rfl, _, rfl⟩

/-- **A round**, whatever its outcome, touches no file but the destination. -/
theorem mergeStepUnder_frame {next : MergeStage ⊕ Option MergeError}
    (hopen : DestOpen destKey files stage)
    (h : mergeStepUnder ioBufferSize destKey files outcome stage = (files', next)) :
    (∀ name, name ≠ destKey → files'.read name = files.read name) ∧
      ∀ stage', next = .inl stage' → DestOpen destKey files' stage' := by
  have hcases := mergeStepUnder_cases h
  cases stage with
  | opening configs =>
      have hopened : ∀ name, name ≠ destKey →
          (files.openWrite destKey).2.read name = files.read name :=
        fun name hne => FileSystem.read_openWrite_of_ne hne
      rcases hcases with ⟨rfl, rfl⟩ | ⟨rfl | rfl, e, rfl⟩
      · refine ⟨hopened, fun stage' hs => ?_⟩
        obtain rfl := Sum.inl.inj hs
        exact FileSystem.lookup_openWrite_self
      · exact ⟨fun _ _ => rfl, nofun⟩
      · exact ⟨hopened, nofun⟩
  | next dest configs =>
      obtain ⟨rfl, ⟨e, rfl⟩ | ⟨c, rest, rfl, rfl⟩⟩ := hcases
      · exact ⟨fun _ _ => rfl, fun stage' hs => Sum.inl.inj hs ▸ trivial⟩
      · refine ⟨fun _ _ => rfl, fun stage' hs => ?_⟩
        obtain rfl := Sum.inl.inj hs
        rcases openSource_cases files' dest c rest with ⟨e, he, -⟩ | ⟨source, hs, -⟩
        · rw [he]
          trivial
        · rw [hs]
          exact hopen
  | reading dest source configs =>
      obtain ⟨rfl, ⟨e, rfl⟩ | ⟨-, rfl⟩ | ⟨-, rfl⟩⟩ := hcases
      · exact ⟨fun _ _ => rfl, fun stage' hs => Sum.inl.inj hs ▸ trivial⟩
      · exact ⟨fun _ _ => rfl, fun stage' hs => Sum.inl.inj hs ▸ hopen⟩
      · exact ⟨fun _ _ => rfl, fun stage' hs => Sum.inl.inj hs ▸ hopen⟩
  | writing dest source chunk configs =>
      obtain ⟨bytes, rfl, hnext⟩ := hcases
      have hwritten : ∀ name, name ≠ destKey →
          (files.writeAt dest.ino dest.pos bytes).read name = files.read name :=
        fun name hne => (sameFile_overwrite _ hopen hne).read
      refine ⟨hwritten, fun stage' hs => ?_⟩
      rcases hnext with ⟨e, rfl⟩ | rfl
      · exact Sum.inl.inj hs ▸ trivial
      · obtain rfl := Sum.inl.inj hs
        rcases afterWrite_cases dest source chunk configs with ⟨source', hs⟩ | hs <;> rw [hs] <;>
          exact hopen
  | closing error =>
      obtain ⟨rfl, e, rfl⟩ := hcases
      exact ⟨fun _ _ => rfl, nofun⟩

/-- **A merge**, however it ends, touches no file but the destination. -/
theorem mergeUnder_frame (hopen : DestOpen destKey files stage)
    (h : mergeUnder ioBufferSize destKey outcomes files stage = some (files', error))
    {name : String} (hname : name ≠ destKey) : files'.read name = files.read name := by
  induction outcomes generalizing files stage with
  | nil => cases h
  | cons outcome outcomes ih =>
      rcases hround : mergeStepUnder ioBufferSize destKey files outcome stage with ⟨files₁, next⟩
      obtain ⟨hsame, hnext⟩ := mergeStepUnder_frame hopen hround
      cases next with
      | inl stage' =>
          rw [mergeUnder_inl hround] at h
          exact (ih (hnext stage' rfl) h).trans (hsame name hname)
      | inr e =>
          rw [mergeUnder_inr hround] at h
          obtain ⟨rfl, -⟩ := Prod.mk.inj (Option.some.inj h)
          exact hsame name hname

/-! ### Where there is nothing to write -/

/-- Up to the first source that is refused, the slices are empty. -/
def NothingToMerge (files : Files) : List FileRangeParams → Prop
  | [] => True
  | c :: configs =>
      match files.read c.key with
      | none => True
      | some bytes => c.Invalid ∨ c.slice bytes = [] ∧ NothingToMerge files configs

/-- A stage from which nothing will be written. -/
def Quiet (ioBufferSize : Nat) (files : Files) : MergeStage → Prop
  | .opening configs | .next _ configs => ioBufferSize = 0 ∨ NothingToMerge files configs
  | .reading _ source configs =>
      ioBufferSize = 0 ∨
        source.rest (files.content source.ino) = [] ∧ NothingToMerge files configs
  | .writing _ _ _ _ => False
  | .closing _ => True

/-- A read that has nothing to return. -/
theorem read_nil {source : MergeSource} {bytes : Bytes}
    (h : ioBufferSize = 0 ∨ source.rest bytes = []) :
    (bytes.drop source.pos).take (readSize ioBufferSize source.remainingToRead) = [] := by
  rcases Nat.eq_zero_or_pos ioBufferSize with rfl | hpos
  · have hsize : readSize 0 source.remainingToRead = 0 := by
      unfold readSize
      split
      · split
        · omega
        · rfl
      · rfl
    rw [hsize, List.take_zero]
  · have hrest := h.resolve_left (Nat.ne_of_gt hpos)
    have hprefix := (MergePlan.read_prefix hpos source bytes).1
    rw [hrest] at hprefix
    exact List.prefix_nil.mp hprefix

/-- A quiet round over an empty destination changes nothing. -/
theorem mergeStepUnder_quiet {next : MergeStage ⊕ Option MergeError}
    (hempty : files.read destKey = some []) (hquiet : Quiet ioBufferSize files stage)
    (h : mergeStepUnder ioBufferSize destKey files outcome stage = (files', next)) :
    files' = files ∧ ∀ stage', next = .inl stage' → Quiet ioBufferSize files stage' := by
  have hopened : (files.openWrite destKey).2 = files := FileSystem.openWrite_of_read_nil hempty
  have hcases := mergeStepUnder_cases h
  cases stage with
  | opening configs =>
      rcases hcases with ⟨rfl, rfl⟩ | ⟨rfl | rfl, e, rfl⟩
      · exact ⟨hopened, fun stage' hs => Sum.inl.inj hs ▸ hquiet⟩
      · exact ⟨rfl, nofun⟩
      · exact ⟨hopened, nofun⟩
  | next dest configs =>
      obtain ⟨rfl, ⟨e, rfl⟩ | ⟨c, rest, rfl, rfl⟩⟩ := hcases
      · exact ⟨rfl, fun stage' hs => Sum.inl.inj hs ▸ trivial⟩
      · refine ⟨rfl, fun stage' hs => ?_⟩
        obtain rfl := Sum.inl.inj hs
        rcases openSource_cases files' dest c rest with
          ⟨e, he, -⟩ | ⟨source, hs, hlookup, hvalid, hrest⟩
        · rw [he]
          trivial
        · rw [hs]
          refine hquiet.imp_right fun hnothing => ?_
          rw [NothingToMerge, FileSystem.read_of_lookup hlookup] at hnothing
          obtain ⟨hslice, hnothing⟩ := hnothing.resolve_left hvalid
          exact ⟨(hrest _).trans hslice, hnothing⟩
  | reading dest source configs =>
      obtain ⟨rfl, ⟨e, rfl⟩ | ⟨-, rfl⟩ | ⟨hne, -⟩⟩ := hcases
      · exact ⟨rfl, fun stage' hs => Sum.inl.inj hs ▸ trivial⟩
      · exact ⟨rfl, fun stage' hs => Sum.inl.inj hs ▸ hquiet.imp_right And.right⟩
      · exact absurd (read_nil (hquiet.imp_right And.left)) hne
  | writing dest source chunk configs => exact hquiet.elim
  | closing error =>
      obtain ⟨rfl, e, rfl⟩ := hcases
      exact ⟨rfl, nofun⟩

/-- A quiet merge over an empty destination changes nothing. -/
theorem mergeUnder_quiet (hempty : files.read destKey = some [])
    (hquiet : Quiet ioBufferSize files stage)
    (h : mergeUnder ioBufferSize destKey outcomes files stage = some (files', error)) :
    files' = files := by
  induction outcomes generalizing stage with
  | nil => cases h
  | cons outcome outcomes ih =>
      rcases hround : mergeStepUnder ioBufferSize destKey files outcome stage with ⟨files₁, next⟩
      obtain ⟨rfl, hnext⟩ := mergeStepUnder_quiet hempty hquiet hround
      cases next with
      | inl stage' =>
          rw [mergeUnder_inl hround] at h
          exact ih (hnext stage' rfl) h
      | inr e =>
          rw [mergeUnder_inr hround] at h
          exact (Prod.mk.inj (Option.some.inj h)).1.symm

/-! ### What a failure leaves -/

/-- Whatever stage the merge is at with its destination open, it can fail there. -/
theorem fails_from (hstage : (∃ dest configs, stage = .next dest configs) ∨
      ∃ dest source configs, stage = .reading dest source configs) :
    ∃ e, mergeUnder ioBufferSize destKey [some 0, some 0] files stage = some (files, some e) := by
  rcases hstage with ⟨dest, configs, rfl⟩ | ⟨dest, source, configs, rfl⟩
  · cases configs with
    | nil => exact ⟨_, rfl⟩
    | cons c configs => exact ⟨_, rfl⟩
  · exact ⟨_, rfl⟩

/-- Where there is something to write, the merge can fail with some of it written. -/
theorem fails_written (hbuffer : 1 ≤ ioBufferSize) {dest : Handle}
    (hlookup : files.lookup destKey = some dest.ino) (hempty : files.content dest.ino = [])
    (hpos : dest.pos = 0) (hsome : ¬ NothingToMerge files configs) :
    ∃ outcomes files' e, mergeUnder ioBufferSize destKey outcomes files (.next dest configs) =
        some (files', some e) ∧ files'.read destKey ≠ some [] := by
  induction configs with
  | nil => exact absurd trivial hsome
  | cons c configs ih =>
      rcases openSource_cases files dest c configs with
        ⟨e, -, hmissing | hinvalid⟩ | ⟨source, hs, hsource, hvalid, hrest⟩
      · rw [NothingToMerge, FileSystem.read_eq_none_iff.mpr hmissing] at hsome
        exact absurd trivial hsome
      · refine absurd ?_ hsome
        unfold NothingToMerge
        split
        · trivial
        · exact Or.inl hinvalid
      · have hopen : mergeStepUnder ioBufferSize destKey files none (.next dest (c :: configs)) =
            (files, .inl (.reading dest source configs)) := by
          rw [← hs]
          rfl
        have hread : mergeStepUnder ioBufferSize destKey files none (.reading dest source configs) =
            if ((files.content source.ino).drop source.pos).take
                (readSize ioBufferSize source.remainingToRead) = [] then
              (files, .inl (.next dest configs))
            else (files, .inl (.writing dest source
              (((files.content source.ino).drop source.pos).take
                (readSize ioBufferSize source.remainingToRead)) configs)) := rfl
        generalize hchunk : ((files.content source.ino).drop source.pos).take
          (readSize ioBufferSize source.remainingToRead) = chunk at hread
        by_cases hnil : chunk = []
        · -- the slice is empty, and what is to be written comes later
          rw [if_pos hnil] at hread
          have hslice : c.slice (files.content source.ino) = [] := by
            rw [← hrest]
            exact (MergePlan.read_prefix hbuffer source _).2 (hchunk.trans hnil)
          have hlater : ¬ NothingToMerge files configs := fun hnothing => hsome (by
            rw [NothingToMerge, FileSystem.read_of_lookup hsource]
            exact Or.inr ⟨hslice, hnothing⟩)
          obtain ⟨outcomes, files', e, hmerge, hwritten⟩ := ih hlater
          refine ⟨none :: none :: outcomes, files', e, ?_, hwritten⟩
          rw [mergeUnder_inl hopen, mergeUnder_inl hread, hmerge]
        · rw [if_neg hnil] at hread
          have hwrite : mergeStepUnder ioBufferSize destKey files none
              (.writing dest source chunk configs) = (files.writeAt dest.ino dest.pos chunk,
                .inl (afterWrite dest source chunk configs)) := rfl
          have hafter := @fails_from ioBufferSize destKey (files.writeAt dest.ino dest.pos chunk)
            (afterWrite dest source chunk configs) (by
              rcases afterWrite_cases dest source chunk configs with ⟨source', hs⟩ | hs
              · exact Or.inr ⟨_, _, _, hs⟩
              · exact Or.inl ⟨_, _, hs⟩)
          obtain ⟨e, hfails⟩ := hafter
          refine ⟨[none, none, none, some 0, some 0], files.writeAt dest.ino dest.pos chunk, e, ?_,
            ?_⟩
          · rw [mergeUnder_inl hopen, mergeUnder_inl hread, mergeUnder_inl hwrite, hfails]
          · unfold FileSystem.writeAt
            rw [FileSystem.read_overwrite_self _ hlookup, hempty, hpos]
            simpa [writeBytes] using hnil

variable {κ : Type}

/-- Whenever `reconstruct_file` raises, the final file and the chunk files are as they were. -/
def ReconstructsOrSpares (ioBufferSize : Nat) (files : Files)
    (statsList : List (ChunkDownloadStats κ)) (finalFilename : String)
    (totalFileSize : Option Int) : Prop :=
  ∀ outcomes files' e,
    reconstructFileUnder ioBufferSize outcomes files statsList finalFilename totalFileSize =
      some (files', .error e) →
    files'.read finalFilename = files.read finalFilename ∧
      ∀ s ∈ statsList, files'.read s.chunkFileName = files.read s.chunkFileName

/-- A reconstruction, however it ends, touches no file but the final one. -/
theorem reconstructFileUnder_frame {statsList : List (ChunkDownloadStats κ)}
    {finalFilename : String} {totalFileSize : Option Int}
    {result : Except ReconstructionError String}
    (h : reconstructFileUnder ioBufferSize outcomes files statsList finalFilename totalFileSize =
      some (files', result)) {name : String} (hname : name ≠ finalFilename) :
    files'.read name = files.read name := by
  unfold reconstructFileUnder at h
  split at h
  · obtain ⟨rfl, -⟩ := Prod.mk.inj (Option.some.inj h)
    rfl
  · split at h
    · cases h
    · rename_i hmerge
      obtain ⟨rfl, -⟩ := Prod.mk.inj (Option.some.inj h)
      exact mergeUnder_frame (show DestOpen _ files (.opening _) from trivial) hmerge hname
    · rename_i hmerge
      obtain ⟨rfl, -⟩ := Prod.mk.inj (Option.some.inj h)
      exact mergeUnder_frame (show DestOpen _ files (.opening _) from trivial) hmerge hname

section Spares

variable {statsList : List (ChunkDownloadStats κ)} {finalFilename : String}
  {totalFileSize : Option Int}

/-- A failure right after the opening, or after the first write, is seen unless the destination was
empty and nothing is written. -/
theorem nothingToMerge_of_spares
    (hclean : ReconstructsOrSpares ioBufferSize files statsList finalFilename totalFileSize)
    (hconfigs : mergeConfigs statsList totalFileSize = .ok configs) :
    files.read finalFilename = some [] ∧ (ioBufferSize = 0 ∨ NothingToMerge files configs) := by
  -- whatever fails, fails behind the opening that empties the destination
  have hmerge : ∀ {outcomes : List (Option Nat)} {files' : Files} {e : MergeError},
      mergeUnder ioBufferSize finalFilename outcomes (files.openWrite finalFilename).2
        (.next ⟨(files.openWrite finalFilename).1, 0⟩ configs) = some (files', some e) →
      files'.read finalFilename = files.read finalFilename := by
    intro outcomes files' e h
    refine (hclean (none :: outcomes) files' (.merge e) ?_).1
    unfold reconstructFileUnder
    rw [hconfigs]
    dsimp only
    rw [mergeUnder_opened, h]
  have hopened := @FileSystem.read_openWrite_self _ _ _ files finalFilename
  have hempty : files.read finalFilename = some [] := by
    obtain ⟨e, hfails⟩ := @fails_from ioBufferSize finalFilename
      (files.openWrite finalFilename).2 _ (Or.inl ⟨_, configs, rfl⟩)
    exact (hmerge hfails).symm.trans hopened
  refine ⟨hempty, ?_⟩
  by_contra hnot
  obtain ⟨hbuffer, hsome⟩ := not_or.mp hnot
  have hsame : (files.openWrite finalFilename).2 = files :=
    FileSystem.openWrite_of_read_nil hempty
  have hwrites : ∃ outcomes files' e,
      mergeUnder ioBufferSize finalFilename outcomes (files.openWrite finalFilename).2
          (.next ⟨(files.openWrite finalFilename).1, 0⟩ configs) = some (files', some e) ∧
        files'.read finalFilename ≠ some [] :=
    fails_written (Nat.one_le_iff_ne_zero.mpr hbuffer) FileSystem.lookup_openWrite_self
      FileSystem.content_openWrite_self rfl (hsame.symm ▸ hsome)
  obtain ⟨outcomes, files', e, hfails, hwritten⟩ := hwrites
  exact hwritten ((hmerge hfails).trans hempty)

/-- And then no failure is seen. -/
theorem spares_of_nothingToMerge
    (hcond : ∀ configs, mergeConfigs statsList totalFileSize = .ok configs →
      files.read finalFilename = some [] ∧ (ioBufferSize = 0 ∨ NothingToMerge files configs)) :
    ReconstructsOrSpares ioBufferSize files statsList finalFilename totalFileSize := by
  intro outcomes files' e h
  unfold reconstructFileUnder at h
  split at h
  · obtain ⟨rfl, -⟩ := Prod.mk.inj (Option.some.inj h)
    exact ⟨rfl, fun _ _ => rfl⟩
  · rename_i configs hconfigs
    obtain ⟨hempty, hnothing⟩ := hcond configs hconfigs
    split at h
    · cases h
    · cases h
    · rename_i files₁ e₁ hmerge
      obtain ⟨rfl, -⟩ := Prod.mk.inj (Option.some.inj h)
      obtain rfl := mergeUnder_quiet hempty
        (show Quiet ioBufferSize files (.opening configs) from hnothing) hmerge
      exact ⟨rfl, fun _ _ => rfl⟩

end Spares

/-- **A failed reconstruction does not touch the destination** exactly when it fails before the
merge, or when the destination is an empty file and there is nothing to write to it. The chunk
files are as they were however it ends. -/
theorem reconstruct_clean_iff (ioBufferSize : Nat) (files : Files)
    (statsList : List (ChunkDownloadStats κ)) (finalFilename : String)
    (totalFileSize : Option Int) :
    (ReconstructsOrSpares ioBufferSize files statsList finalFilename totalFileSize ↔
      ∀ configs, mergeConfigs statsList totalFileSize = .ok configs →
        files.read finalFilename = some [] ∧
          (ioBufferSize = 0 ∨ NothingToMerge files configs)) ∧
    ∀ outcomes files' result,
      reconstructFileUnder ioBufferSize outcomes files statsList finalFilename totalFileSize =
        some (files', result) →
      ∀ s ∈ statsList, s.chunkFileName ≠ finalFilename →
        files'.read s.chunkFileName = files.read s.chunkFileName := by
  refine ⟨?_, fun outcomes files' result h s _ hname => reconstructFileUnder_frame h hname⟩
  constructor
  · exact fun hclean configs hconfigs => nothingToMerge_of_spares hclean hconfigs
  · exact spares_of_nothingToMerge

/-- The file of the only chunk is gone: the finished file of an earlier download is emptied. -/
theorem failed_reconstruct_empties :
    let files : Files := (FileSystem.empty.openWrite "out").2.writeAt 0 0 [7]
    let statsList : List (ChunkDownloadStats Unit) :=
      [{ chunkFileName := "a", range := ⟨0, some 0⟩, fileSize := some 1, bytesDownloaded := 1,
         status := .completed }]
    files.read "out" = some [7] ∧
      (reconstructFile 1024 files statsList "out" (some 1)).map
          (fun r => (r.1.read "out", r.2)) =
        some (some [], .error (.merge (.sourceNotFound "a"))) ∧
      ¬ ReconstructsOrSpares 1024 files statsList "out" (some 1) := by
  intro files statsList
  refine ⟨by decide, by decide, fun h => ?_⟩
  have hfails : ∃ r, reconstructFileUnder 1024 [none, none, none] files statsList "out" (some 1) =
      some (r, .error (.merge (.sourceNotFound "a"))) ∧ r.read "out" = some [] := by
    exact ⟨_, rfl, by decide⟩
  obtain ⟨r, hraised, hempty⟩ := hfails
  have hsame := (h _ _ _ hraised).1
  rw [hempty] at hsame
  exact absurd hsame (by decide)

end SDownload
