import SDownload.Manager.Links

/-!
# SDownload.Manager.Sharing

Successions that share a predecessor's file.

A succession crops the file of its predecessor in place and moves it in a second
step, so whoever else uses the file in between spoils it. `KeepsOrder` says of a step
that it is not one of these: a crop goes through only when no other succession from
that range is between its two steps and no download of the range still writes, and a
download of the range does not open its file between the two steps. In runs that
keep the order, every completed successor has exactly its part of the source
(`shared_predecessor_exact`).
-/

namespace SDownload

namespace Task

/-- The download has its file open and may write to it. The closing of the file is not among these
phases: a piece counts as on the disk once it is written (`DownloadState.write`), and a close that
succeeds, as all operations of these runs do, changes nothing more. -/
def Writing (t : Task) : Prop :=
  match t.phase with
  | .receiving _ _ | .writing _ _ _ => True
  | _ => False

/-- The succession has cropped its predecessor's file and not moved it. -/
def Moving (t : Task) : Prop :=
  match t.phase with
  | .moving _ _ => True
  | _ => False

instance (t : Task) : Decidable t.Writing := by
  delta Writing
  generalize t.phase = phase
  induction phase using Phase.casesOn <;> infer_instance

instance (t : Task) : Decidable t.Moving := by
  delta Moving
  generalize t.phase = phase
  induction phase using Phase.casesOn <;> infer_instance

end Task

namespace World

/-- The range whose file a succession takes over. -/
def predecessorRange (w : World) (t : Task) : Option ChunkRange :=
  match t.job with
  | .download => none
  | .succession p _ => some (w.record p).range

/-- A download of the range may write to its file. -/
def Writes (w : World) (r : ChunkRange) : Prop :=
  ∃ t ∈ w.tasks, t.job = .download ∧ t.range = r ∧ t.Writing

/-- A succession from the range has cropped its file and not moved it. -/
def Moves (w : World) (r : ChunkRange) : Prop :=
  ∃ t ∈ w.tasks, w.predecessorRange t = some r ∧ t.Moving

instance (w : World) (r : ChunkRange) : Decidable (w.Writes r) :=
  inferInstanceAs (Decidable (∃ t ∈ w.tasks, _))

instance (w : World) (r : ChunkRange) : Decidable (w.Moves r) :=
  inferInstanceAs (Decidable (∃ t ∈ w.tasks, _))

/-- The crop that a succession is about to do would go through. -/
def CropAccepted (w : World) (p : StatsId) (startCrop endCrop : Int) : Prop :=
  (cropFile w.files (w.record p).chunkFileName startCrop endCrop).toBool = true

instance (w : World) (p : StatsId) (startCrop endCrop : Int) :
    Decidable (w.CropAccepted p startCrop endCrop) :=
  inferInstanceAs (Decidable (_ = true))

/-- A turn that does not disturb a file between its crop and its move. -/
def TurnInOrder (w : World) (t : Task) : Prop :=
  match t.job, t.phase with
  | .download, .opening => ¬ w.Moves t.range
  | .succession p _, .cropping startCrop endCrop =>
      w.CropAccepted p startCrop endCrop →
        ¬ w.Moves (w.record p).range ∧ ¬ w.Writes (w.record p).range
  | _, _ => True

instance (w : World) (t : Task) : Decidable (w.TurnInOrder t) := by
  delta TurnInOrder
  generalize t.job = job, t.phase = phase
  induction job using Job.casesOn <;> induction phase using Phase.casesOn <;> infer_instance

end World

/-- A step that does not disturb a file between its crop and its move. -/
def KeepsOrder (w : World) : Event → Prop
  | .task i _ => ∀ t ∈ w.tasks[i]?, w.TurnInOrder t
  | _ => True

instance (w : World) (e : Event) : Decidable (KeepsOrder w e) := by
  delta KeepsOrder
  induction e using Event.casesOn <;> infer_instance

namespace World

variable {source : Bytes} {params : ChunkManagerParams} {w w' : World}

/-! ### The invariant -/

/-- The file of a range, if there is one, holds a front of its part of the source. -/
def HasPart (source : Bytes) (params : ChunkManagerParams) (w : World) (r : ChunkRange) : Prop :=
  ∀ bytes, w.files.read (formatChunkFileName r params.fileName) = some bytes →
    bytes <+: r.bytesOf source

/-- The offsets a succession crops at. -/
def CropOk (w : World) (t : Task) (p : StatsId) (startCrop endCrop : Int) : Prop :=
  startCrop = t.range.start - (w.record p).range.start ∧
    t.range.endByte = some (endCrop + (w.record p).range.start) ∧
    0 < (w.record p).bytesDownloaded

/-- Between crop and move, the predecessor's file holds the successor's part, and nobody writes. -/
structure MoveOk (source : Bytes) (params : ChunkManagerParams) (w : World) (t : Task)
    (p : StatsId) (startCrop endCrop : Int) : Prop where
  file : w.files.read (formatChunkFileName (w.record p).range params.fileName) =
    some (t.range.bytesOf source)
  bytes : endCrop - startCrop + 1 = (t.range.bytesOf source).length
  idle : ¬ w.Writes (w.record p).range

/-- The invariant of runs in which predecessors' files are shared in order. -/
structure Shared (source : Bytes) (params : ChunkManagerParams) (w : World) : Prop
    extends w.Linked source params where
  fetching : ∀ (i : TaskId) (t : Task), w.tasks[i]? = some t → t.job = .download →
    t.phase = .created ∨ t.phase = .opening ∨ t.Writing →
      DownloadState.Ok (honestService source t.range) ⟨t, w.record t.stats, w.files⟩
  file : ∀ s < w.stats.length, 0 < (w.record s).bytesDownloaded →
    w.Writes (w.record s).range ∨ w.Moves (w.record s).range ∨
      w.HasPart source params (w.record s).range
  cropping : ∀ (i : TaskId) (t : Task) (p : StatsId) (k : Option TaskId) (startCrop endCrop : Int),
    w.tasks[i]? = some t → t.job = .succession p k → t.phase = .cropping startCrop endCrop →
      w.CropOk t p startCrop endCrop
  moving : ∀ (i : TaskId) (t : Task) (p : StatsId) (k : Option TaskId) (startCrop endCrop : Int),
    w.tasks[i]? = some t → t.job = .succession p k → t.phase = .moving startCrop endCrop →
      w.MoveOk source params t p startCrop endCrop
  exclusive : ∀ (i j : TaskId) (t t' : Task) (r : ChunkRange), w.tasks[i]? = some t →
    w.tasks[j]? = some t' → w.predecessorRange t = some r → w.predecessorRange t' = some r →
      t.Moving → t'.Moving → i = j
  completed : ∀ (i : TaskId) (t : Task), w.tasks[i]? = some t → t.job ≠ .download →
    (w.record t.stats).status = .completed → ¬ w.Moves t.range →
      w.files.read (formatChunkFileName t.range params.fileName) = some (t.range.bytesOf source) ∧
        (w.record t.stats).bytesDownloaded = (t.range.bytesOf source).length

theorem writes_iff {r : ChunkRange} : w.Writes r ↔
    ∃ (i : TaskId) (t : Task), w.tasks[i]? = some t ∧ t.job = .download ∧ t.range = r ∧
      t.Writing := by
  constructor
  · rintro ⟨t, ht, h⟩
    obtain ⟨i, hi⟩ := List.mem_iff_getElem?.mp ht
    exact ⟨i, t, hi, h⟩
  · rintro ⟨i, t, hi, h⟩
    exact ⟨t, List.mem_of_getElem? hi, h⟩

theorem moves_iff {r : ChunkRange} : w.Moves r ↔
    ∃ (i : TaskId) (t : Task), w.tasks[i]? = some t ∧ w.predecessorRange t = some r ∧
      t.Moving := by
  constructor
  · rintro ⟨t, ht, h⟩
    obtain ⟨i, hi⟩ := List.mem_iff_getElem?.mp ht
    exact ⟨i, t, hi, h⟩
  · rintro ⟨i, t, hi, h⟩
    exact ⟨t, List.mem_of_getElem? hi, h⟩

/-! ### Steps that leave the files alone -/

/-- A task that did not come to or from the two steps of a crop. -/
structure Quiet (w w' : World) (t t' : Task) : Prop where
  phase : t'.phase = t.phase ∨ t.job ≠ .download ∧ ¬ t.Moving ∧ ¬ t'.Moving ∧
    ∀ p k startCrop endCrop, t'.job = .succession p k → t'.phase = .cropping startCrop endCrop →
      w'.CropOk t' p startCrop endCrop
  status : t.job = .download → (w'.record t.stats).status = (w.record t.stats).status
  completed : (w'.record t.stats).status = .completed → (w.record t.stats).status = .completed

/-- A task that was just created. -/
structure NewTask (w' : World) (t' : Task) : Prop where
  phase : t'.phase = .created
  completed : (w'.record t'.stats).status ≠ .completed
  bytes : (w'.record t'.stats).bytesDownloaded = 0
  download : t'.job = .download → (w'.record t'.stats).status = .pending

/-- The files and the counters are the same, and every task is quiet or new. -/
structure Calm (w w' : World) : Prop where
  files : w'.files = w.files
  record : ∀ s < w.stats.length, SameRecord (w.record s) (w'.record s) ∧
    (w'.record s).bytesDownloaded = (w.record s).bytesDownloaded
  fresh : ∀ s, w.stats.length ≤ s → (w'.record s).bytesDownloaded = 0
  old : ∀ (i : TaskId) (t : Task), w.tasks[i]? = some t →
    ∃ t', w'.tasks[i]? = some t' ∧ t.Later t' ∧ w.Quiet w' t t'
  new : ∀ (i : TaskId) (t' : Task), w'.tasks[i]? = some t' →
    (∃ t, w.tasks[i]? = some t ∧ t.Later t' ∧ w.Quiet w' t t') ∨ w'.NewTask t'

theorem Quiet.writing {t t' : Task} (h : w.Quiet w' t t') (hjob : t.job = .download) :
    t'.phase = t.phase :=
  h.phase.resolve_right fun hother => hother.1 hjob

theorem writing_congr {t t' : Task} (h : t'.phase = t.phase) : t'.Writing ↔ t.Writing := by
  unfold Task.Writing
  rw [h]

theorem moving_congr {t t' : Task} (h : t'.phase = t.phase) : t'.Moving ↔ t.Moving := by
  unfold Task.Moving
  rw [h]

theorem Quiet.moving {t t' : Task} (h : w.Quiet w' t t') : t'.Moving ↔ t.Moving := by
  obtain hphase | ⟨-, hold, hnew, -⟩ := h.phase
  · exact moving_congr hphase
  · exact ⟨fun hm => absurd hm hnew, fun hm => absurd hm hold⟩

theorem Calm.predecessorRange (h : w.Calm w') (hlinked : w.Linked source params) {i : TaskId}
    {t t' : Task} (ht : w.tasks[i]? = some t) (hl : t.Later t') :
    w'.predecessorRange t' = w.predecessorRange t := by
  unfold World.predecessorRange
  rw [hl.job]
  cases hjob : t.job with
  | download => rfl
  | succession p k =>
      exact congrArg some (h.record p (hlinked.succession i t p k ht hjob).predecessor).1.range

theorem Calm.writes (h : w.Calm w') {r : ChunkRange} : w'.Writes r ↔ w.Writes r := by
  rw [writes_iff, writes_iff]
  constructor
  · rintro ⟨i, t', ht', hjob, hrange, hwriting⟩
    obtain ⟨t, ht, hl, hquiet⟩ | hnew := h.new i t' ht'
    · rw [hl.job] at hjob
      exact ⟨i, t, ht, hjob, hl.range ▸ hrange, (writing_congr (hquiet.writing hjob)).mp hwriting⟩
    · simp [Task.Writing, hnew.phase] at hwriting
  · rintro ⟨i, t, ht, hjob, hrange, hwriting⟩
    obtain ⟨t', ht', hl, hquiet⟩ := h.old i t ht
    exact ⟨i, t', ht', hl.job.trans hjob, hl.range.trans hrange,
      (writing_congr (hquiet.writing hjob)).mpr hwriting⟩

theorem Calm.moves (h : w.Calm w') (hlinked : w.Linked source params) {r : ChunkRange} :
    w'.Moves r ↔ w.Moves r := by
  rw [moves_iff, moves_iff]
  constructor
  · rintro ⟨i, t', ht', hrange, hmoving⟩
    obtain ⟨t, ht, hl, hquiet⟩ | hnew := h.new i t' ht'
    · exact ⟨i, t, ht, (h.predecessorRange hlinked ht hl).symm.trans hrange,
        hquiet.moving.mp hmoving⟩
    · simp [Task.Moving, hnew.phase] at hmoving
  · rintro ⟨i, t, ht, hrange, hmoving⟩
    obtain ⟨t', ht', hl, hquiet⟩ := h.old i t ht
    exact ⟨i, t', ht', (h.predecessorRange hlinked ht hl).trans hrange,
      hquiet.moving.mpr hmoving⟩

/-- What a succession crops at depends on what never changes, and on there being data. -/
theorem CropOk.of_record {t t' : Task} {p : StatsId} {startCrop endCrop : Int}
    (h : w.CropOk t p startCrop endCrop) (hrange : t'.range = t.range)
    (hrecord : (w'.record p).range = (w.record p).range)
    (hbytes : 0 < (w.record p).bytesDownloaded → 0 < (w'.record p).bytesDownloaded) :
    w'.CropOk t' p startCrop endCrop := by
  unfold CropOk at h ⊢
  rw [hrange, hrecord]
  exact ⟨h.1, h.2.1, hbytes h.2.2⟩

/-- **A calm step** keeps the invariant. -/
theorem Shared.calm (h : w.Shared source params) (hlinked : w'.Linked source params)
    (hcalm : w.Calm w') : w'.Shared source params := by
  refine ⟨hlinked, ?_, ?_, ?_, ?_, ?_, ?_⟩
  -- every clause for a task that was there before, and for a task the step registers: it has not
  -- begun, so it neither writes nor moves
  · intro i t' ht' hjob hphase
    obtain ⟨t, ht, hl, hquiet⟩ | hnew := hcalm.new i t' ht'
    · rw [hl.job] at hjob
      have hsame := hquiet.writing hjob
      rw [hsame, writing_congr hsame] at hphase
      obtain ⟨hrecord, hbytes⟩ := hcalm.record _ (h.task i t ht).1
      rw [hl.range, hl.stats, hcalm.files]
      exact (h.fetching i t ht hjob hphase).congr
        ⟨hrecord.chunkFileName, hrecord.fileSize, hbytes, .refl _ _⟩ hsame (hquiet.status hjob)
    · refine ⟨fun _ => Or.inl (hnew.download hjob), ?_⟩
      show DownloadState.PhaseOk _ _ t'.phase
      rw [hnew.phase]
      exact hnew.bytes
  · intro s hs hbytes
    rcases Nat.lt_or_ge s w.stats.length with hlt | hge
    · obtain ⟨hrecord, hcount⟩ := hcalm.record s hlt
      rw [hrecord.range, hcalm.writes, hcalm.moves h.toLinked]
      unfold HasPart
      rw [hcalm.files]
      exact h.file s hlt (hcount ▸ hbytes)
    · rw [hcalm.fresh s hge] at hbytes
      exact absurd hbytes (lt_irrefl _)
  · intro i t' p k startCrop endCrop ht' hjob hphase
    obtain ⟨t, ht, hl, hquiet⟩ | hnew := hcalm.new i t' ht'
    · obtain hsame | ⟨-, -, -, hcrop⟩ := hquiet.phase
      · have hplt := (h.succession i t p k ht (hl.job ▸ hjob)).predecessor
        obtain ⟨hrecord, hcount⟩ := hcalm.record p hplt
        exact (h.cropping i t p k startCrop endCrop ht (hl.job ▸ hjob) (hsame ▸ hphase)).of_record
          hl.range hrecord.range (hcount ▸ id)
      · exact hcrop p k startCrop endCrop hjob hphase
    · rw [hnew.phase] at hphase
      cases hphase
  · intro i t' p k startCrop endCrop ht' hjob hphase
    obtain ⟨t, ht, hl, hquiet⟩ | hnew := hcalm.new i t' ht'
    · have hsame : t'.phase = t.phase := hquiet.phase.resolve_right fun hother =>
        hother.2.2.1 (by simp [Task.Moving, hphase])
      have hplt := (h.succession i t p k ht (hl.job ▸ hjob)).predecessor
      obtain ⟨hrecord, -⟩ := hcalm.record p hplt
      obtain ⟨hfile, hlen, hidle⟩ :=
        h.moving i t p k startCrop endCrop ht (hl.job ▸ hjob) (hsame ▸ hphase)
      constructor
      · rw [hrecord.range, hl.range, hcalm.files]
        exact hfile
      · rw [hl.range]
        exact hlen
      · rw [hrecord.range, hcalm.writes]
        exact hidle
    · rw [hnew.phase] at hphase
      cases hphase
  · intro i j t₁' t₂' r ht₁' ht₂' hr₁ hr₂ hm₁ hm₂
    obtain ⟨t₁, ht₁, hl₁, hquiet₁⟩ | hnew := hcalm.new i t₁' ht₁'
    · obtain ⟨t₂, ht₂, hl₂, hquiet₂⟩ | hnew := hcalm.new j t₂' ht₂'
      · exact h.exclusive i j t₁ t₂ r ht₁ ht₂
          ((hcalm.predecessorRange h.toLinked ht₁ hl₁).symm.trans hr₁)
          ((hcalm.predecessorRange h.toLinked ht₂ hl₂).symm.trans hr₂)
          (hquiet₁.moving.mp hm₁) (hquiet₂.moving.mp hm₂)
      · simp [Task.Moving, hnew.phase] at hm₂
    · simp [Task.Moving, hnew.phase] at hm₁
  · intro i t' ht' hjob hstatus hunmoved
    obtain ⟨t, ht, hl, hquiet⟩ | hnew := hcalm.new i t' ht'
    · rw [hl.job] at hjob
      rw [hl.stats] at hstatus
      obtain ⟨-, hcount⟩ := hcalm.record _ (h.task i t ht).1
      rw [hl.range, hl.stats, hcalm.files, hcount]
      refine h.completed i t ht hjob (hquiet.completed hstatus) ?_
      rw [← hcalm.moves h.toLinked, ← hl.range]
      exact hunmoved
    · exact absurd hstatus hnew.completed

theorem Quiet.refl {t t' : Task} (hphase : t'.phase = t.phase)
    (hstatus : (w'.record t.stats).status = (w.record t.stats).status) : w.Quiet w' t t' :=
  ⟨Or.inl hphase, fun _ => hstatus, hstatus ▸ id⟩

theorem Collects.calm (h : w.Collects w') : w.Calm w' := by
  have hrecord : ∀ s, w'.record s = w.record s := fun s => by rw [record, record, h.stats]
  refine ⟨h.files, fun s _ => ?_, fun s hs => ?_, fun i t ht => ?_, fun i t ht => ?_⟩
  · rw [hrecord]
    exact ⟨.refl _, rfl⟩
  · rw [hrecord, record_of_length_le hs]
    rfl
  · exact ⟨t, h.tasks ▸ ht, .refl t, .refl rfl (by rw [hrecord])⟩
  · exact Or.inl ⟨t, h.tasks ▸ ht, .refl t, .refl rfl (by rw [hrecord])⟩

/-- Registering a chunk is calm. -/
theorem calm_of_creates (h : w.Linked source params) {r : ChunkRange} {job : Job}
    {status : EDownloadStatus} (hcreates : w.Creates params w' r job)
    (hgrows : w.Grows params w' r status)
    (hasked : ∀ (i : TaskId) (t' : Task), i ≠ w.tasks.length → w'.tasks[i]? = some t' →
      ∃ t, w.tasks[i]? = some t ∧ t.Asked t')
    (hstatus : status ≠ .completed) (hpending : job = .download → status = .pending) :
    w.Calm w' := by
  obtain ⟨speed, hfresh⟩ := hgrows.fresh
  have hquiet : ∀ {i : TaskId} {t t' : Task}, w.tasks[i]? = some t → t.Asked t' →
      w.Quiet w' t t' := by
    rintro i t _ ht ⟨c, rfl⟩
    exact .refl rfl (hgrows.counts _ (h.task i t ht).1).2
  refine ⟨hgrows.files, fun s hs => ⟨hcreates.record s hs, (hgrows.counts s hs).1⟩,
    fun s hs => ?_, fun i t ht => ?_, fun i t' ht' => ?_⟩
  · obtain rfl | hlt := hs.eq_or_lt
    · rw [hfresh]
      rfl
    · rw [record_of_length_le (by rw [hcreates.numStats]; exact hlt)]
      rfl
  · obtain ⟨t', ht', hl⟩ := hcreates.task i t ht
    have hi : i ≠ w.tasks.length := Nat.ne_of_lt (List.getElem?_eq_some_iff.mp ht).1
    obtain ⟨t₀, ht₀, hsame⟩ := hasked i t' hi ht'
    obtain rfl := Option.some.inj (ht₀.symm.trans ht)
    exact ⟨t', ht', hl, hquiet ht hsame⟩
  · by_cases hi : i = w.tasks.length
    · rw [hi, hcreates.newTask] at ht'
      obtain rfl := Option.some.inj ht'
      refine Or.inr ⟨rfl, ?_, ?_, fun hjob => ?_⟩ <;> rw [hfresh]
      · exact hstatus
      · rfl
      · exact hpending hjob
    · obtain ⟨t, ht, hsame⟩ := hasked i t' hi ht'
      obtain ⟨t₁, ht₁, hl⟩ := hcreates.task i t ht
      obtain rfl := Option.some.inj (ht₁.symm.trans ht')
      exact Or.inl ⟨t, ht, hl, hquiet ht hsame⟩

end World

/-! ### A turn of a download -/

namespace DownloadState

variable {d d' : DownloadState} {service : Service}

/-- The download is at an `await` before its file is closed. -/
def Fetching (d : DownloadState) : Prop :=
  d.task.phase = .created ∨ d.task.phase = .opening ∨ d.task.Writing

/-- What a turn makes of the download's own file: it writes, it is not concerned with the file, or
it leaves a front of the answer. -/
inductive FileTurn (service : Service) (d d' : DownloadState) : Prop
  | writes (before : d.task.phase = .opening ∨ d.task.Writing) (writing : d'.task.Writing)
  | same (files : d'.files = d.files) (idle : ¬ d.task.Writing) (idle' : ¬ d'.task.Writing)
      (bytes : d'.stats.bytesDownloaded = d.stats.bytesDownloaded)
  | leaves (before : d.task.phase = .opening ∨ d.task.Writing) (idle' : ¬ d'.task.Writing)
      {bytes : Bytes} (read : d'.files.read d'.stats.chunkFileName = some bytes)
      (sent : service.sent bytes)

/-- A download that closes its file has what was sent in it. -/
theorem Ok.read_closing (h : d.Ok service) (hfails : ¬ service.fails) {file : Handle}
    {delivered : Bytes} {left : TaskEnd} (hphase : d.task.phase = .closing file delivered left) :
    d.files.read d.stats.chunkFileName = some delivered ∧ service.sent delivered := by
  have hok := h.phase
  rw [hphase] at hok
  obtain ⟨hlookup, -, hsent, hleft⟩ := hok
  refine ⟨?_, hsent⟩
  rw [FileSystem.read_of_lookup hlookup]
  cases left with
  | returned => exact congrArg some hleft.1
  | cancelled => exact congrArg some (hleft.resolve_left hfails)
  | failed e => exact absurd hleft hfails

theorem not_writing_finish (d : DownloadState) (e : TaskEnd) : ¬ (d.finish e).task.Writing := by
  obtain ⟨r, hr⟩ := d.finish_task e
  simp [Task.Writing, hr]

theorem finish_bytes (d : DownloadState) (e : TaskEnd) :
    (d.finish e).stats.bytesDownloaded = d.stats.bytesDownloaded := by
  obtain ⟨status, lastError, hstats⟩ := finish_record d e
  rw [hstats]

/-- A download that was writing and goes on to close its file. -/
theorem Ok.leaves (h : d'.Ok service) (hfails : ¬ service.fails) (hwriting : d.task.Writing)
    {file : Handle} {delivered : Bytes} {left : TaskEnd}
    (hphase : d'.task.phase = .closing file delivered left) : FileTurn service d d' := by
  obtain ⟨hread, hsent⟩ := h.read_closing hfails hphase
  exact .leaves (Or.inr hwriting) (by simp [Task.Writing, hphase]) hread hsent

/-- The own file after a turn, when no operation fails. -/
theorem Ok.fileTurn {e : TaskEvent} {called : Option StopCallback} (hfails : ¬ service.fails)
    (hok : d.Fetching → d'.Ok service) (hallowed : d.Allowed service e)
    (hstep : d.step e = some (d', called)) : FileTurn service d d' := by
  unfold DownloadState.step at hstep
  split at hstep
  · rename_i effect _
    obtain ⟨d'', hcancel, heq⟩ := Option.map_eq_some_iff.mp hstep
    obtain ⟨rfl, -⟩ := Prod.mk.inj heq
    unfold DownloadState.cancel at hcancel
    dsimp only at hcancel
    split at hcancel <;> first | cases hcancel; done | rename_i hphase
    all_goals obtain rfl := Option.some.inj hcancel
    · exact .same rfl (by simp [Task.Writing, hphase]) (by simp [Task.Writing, enter]) rfl
    · cases effect with
      | none =>
          exact .same (finish_files _ _) (by simp [Task.Writing, hphase]) (not_writing_finish _ _)
            (finish_bytes _ _)
      | some bytes =>
          refine .leaves (Or.inl hphase) (not_writing_finish _ _) ?_ service.sent_nil
          rw [finish_files, (finish_stats _ _).chunkFileName]
          exact FileSystem.read_openWrite_self
    · have hwriting : d.task.Writing := by simp [Task.Writing, hphase]
      exact (hok (Or.inr (Or.inr hwriting))).leaves hfails hwriting rfl
    · have hwriting : d.task.Writing := by simp [Task.Writing, hphase]
      exact (hok (Or.inr (Or.inr hwriting))).leaves hfails hwriting rfl
    · exact .same rfl (by simp [Task.Writing, hphase]) (by simp [Task.Writing, enter]) rfl
  · cases hstep
  · unfold DownloadState.Allowed at hallowed
    unfold DownloadState.run at hstep
    split at hstep <;> first | cases hstep; done | rename_i hphase
    all_goals
      obtain ⟨rfl, -⟩ := Prod.mk.inj (Option.some.inj hstep)
      simp only [hphase] at hallowed
    · exact .same rfl (by simp [Task.Writing, hphase]) (by simp [Task.Writing]) rfl
    · exact .writes (Or.inl hphase) (by simp [Task.Writing, enter])
    · exact absurd hallowed hfails
    · exact .writes (Or.inr (by simp [Task.Writing, hphase])) (by simp [Task.Writing, enter])
    · have hwriting : d.task.Writing := by simp [Task.Writing, hphase]
      exact (hok (Or.inr (Or.inr hwriting))).leaves hfails hwriting rfl
    · exact absurd hallowed hfails
    · exact .writes (Or.inr (by simp [Task.Writing, hphase])) (by simp [Task.Writing, enter])
    · exact absurd hallowed hfails
    · exact .same (finish_files _ _) (by simp [Task.Writing, hphase]) (not_writing_finish _ _)
        (finish_bytes _ _)
    · exact absurd hallowed hfails

/-- A turn of a download that is past writing leaves every file alone. -/
theorem FileTurn.files_of_not_fetching (h : FileTurn service d d') (hpast : ¬ d.Fetching) :
    d'.files = d.files := by
  cases h with
  | writes before _ => exact absurd (before.elim (Or.inr ∘ Or.inl) (Or.inr ∘ Or.inr)) hpast
  | same files _ _ _ => exact files
  | leaves before _ _ _ => exact absurd (before.elim (Or.inr ∘ Or.inl) (Or.inr ∘ Or.inr)) hpast

/-- A download that is at an `await` before its file is closed was so before the turn. -/
theorem fetching_of_step {e : TaskEvent} {called : Option StopCallback}
    (hstep : d.step e = some (d', called)) (h : d'.Fetching) : d.Fetching := by
  unfold Fetching Task.Writing at *
  unfold DownloadState.step at hstep
  split at hstep
  · obtain ⟨d'', hcancel, heq⟩ := Option.map_eq_some_iff.mp hstep
    obtain ⟨rfl, -⟩ := Prod.mk.inj heq
    unfold DownloadState.cancel at hcancel
    dsimp only at hcancel
    split at hcancel <;> first | cases hcancel; done | rename_i hphase
    all_goals first | (rw [hphase]; simp; done) | skip
    obtain rfl := Option.some.inj hcancel
    simp [enter] at h
  · cases hstep
  · unfold DownloadState.run at hstep
    split at hstep <;> first | cases hstep; done | rename_i hphase
    all_goals first | (rw [hphase]; simp; done) | skip
    all_goals
      obtain ⟨rfl, -⟩ := Prod.mk.inj (Option.some.inj hstep)
      obtain ⟨r, hr⟩ := finish_task _ _
      rw [hr] at h
      simp at h

end DownloadState

namespace World

variable {source : Bytes} {params : ChunkManagerParams} {w w' : World}

theorem not_done_of_writing {t : Task} (h : t.Writing) : ¬ t.Done := fun hdone => by
  obtain ⟨r, hr⟩ := Task.done_iff.mp hdone
  simp [Task.Writing, hr] at h

/-- Of the tasks of a running task's range, only itself can write. -/
theorem Linked.writes_of_live (h : w.Linked source params) {i : TaskId} {t : Task}
    (ht : w.tasks[i]? = some t) (hlive : ¬ t.Done) (hwrites : w.Writes t.range) : t.Writing := by
  obtain ⟨j, t', ht', -, hrange, hwriting⟩ := writes_iff.mp hwrites
  obtain rfl := h.registered.live_inj ht ht' hlive (not_done_of_writing hwriting) hrange
  exact Option.some.inj (ht'.symm.trans ht) ▸ hwriting

theorem predecessorRange_asked {t t' : Task} (h : t.Asked t') :
    w.predecessorRange t' = w.predecessorRange t := by
  obtain ⟨c, rfl⟩ := h
  rfl

/-- A turn of a download is no succession's. -/
theorem TurnOf.moves {i : TaskId} {t : Task} {d : DownloadState} (h : w.TurnOf w' i t d)
    (ht : w.tasks[i]? = some t) (hjob : t.job = .download) (hjob' : d.task.job = .download)
    (hrange : ∀ s, (w'.record s).range = (w.record s).range) {r : ChunkRange} :
    w'.Moves r ↔ w.Moves r := by
  have hpredecessor : ∀ t, w'.predecessorRange t = w.predecessorRange t := fun t => by
    unfold predecessorRange
    simp only [hrange]
  rw [moves_iff, moves_iff]
  constructor
  · rintro ⟨j, t', ht', hr, hmoving⟩
    rw [hpredecessor] at hr
    obtain ⟨-, hasked⟩ | ⟨-, t₀, ht₀, hasked⟩ := h.task j t' ht'
    · rw [predecessorRange_asked hasked, predecessorRange, hjob'] at hr
      cases hr
    · obtain ⟨c, rfl⟩ := hasked
      exact ⟨j, t₀, ht₀, hr, hmoving⟩
  · rintro ⟨j, t₀, ht₀, hr, hmoving⟩
    have hji : j ≠ i := by
      rintro rfl
      obtain rfl := Option.some.inj (ht₀.symm.trans ht)
      rw [predecessorRange, hjob] at hr
      cases hr
    obtain ⟨t', ht', c, rfl⟩ := h.old j t₀ ht₀ hji
    exact ⟨j, _, ht', by rw [hpredecessor]; exact hr, hmoving⟩

/-- A turn of a download changes who writes under its own range only. -/
theorem TurnOf.writes {i : TaskId} {t : Task} {d : DownloadState} (h : w.TurnOf w' i t d)
    (ht : w.tasks[i]? = some t) (hrange' : d.task.range = t.range) {r : ChunkRange}
    (hr : r ≠ t.range) : w'.Writes r ↔ w.Writes r := by
  rw [writes_iff, writes_iff]
  constructor
  · rintro ⟨j, t', ht', hjob, hrange, hwriting⟩
    obtain ⟨-, c, rfl⟩ | ⟨-, t₀, ht₀, c, rfl⟩ := h.task j t' ht'
    · exact absurd (hrange.symm.trans hrange') hr
    · exact ⟨j, t₀, ht₀, hjob, hrange, hwriting⟩
  · rintro ⟨j, t₀, ht₀, hjob, hrange, hwriting⟩
    have hji : j ≠ i := by
      rintro rfl
      obtain rfl := Option.some.inj (ht₀.symm.trans ht)
      exact hr hrange.symm
    obtain ⟨t', ht', c, rfl⟩ := h.old j t₀ ht₀ hji
    exact ⟨j, _, ht', hjob, hrange, hwriting⟩

/-- Under its own range, nobody writes after the turn but perhaps itself. -/
theorem TurnOf.not_writes {i : TaskId} {t : Task} {d : DownloadState} (h : w.TurnOf w' i t d)
    (hlinked : w.Linked source params) (ht : w.tasks[i]? = some t) (hlive : ¬ t.Done)
    (hidle : ¬ d.task.Writing) : ¬ w'.Writes t.range := by
  rw [writes_iff]
  rintro ⟨j, t', ht', -, hrange, hwriting⟩
  obtain ⟨-, c, rfl⟩ | ⟨hji, t₀, ht₀, c, rfl⟩ := h.task j t' ht'
  · exact hidle hwriting
  · have hwriting₀ : t₀.Writing := hwriting
    exact hji (hlinked.registered.live_inj ht ht₀ hlive (not_done_of_writing hwriting₀) hrange)

theorem TurnOf.writes_self {i : TaskId} {t : Task} {d : DownloadState} (h : w.TurnOf w' i t d)
    (hlt : i < w'.tasks.length) (hjob' : d.task.job = .download) (hrange' : d.task.range = t.range)
    (hwriting : d.task.Writing) : w'.Writes t.range := by
  rw [writes_iff]
  have ht' := List.getElem?_eq_getElem hlt
  obtain ⟨-, c, hc⟩ | ⟨hii, -⟩ := h.task i _ ht'
  · exact ⟨i, _,
      ht', by rw [hc]; exact hjob', by rw [hc]; exact hrange', by rw [hc]; exact hwriting⟩
  · exact absurd rfl hii

/-- A turn of a download in a run in order, with all it does. -/
structure DownloadStep (source : Bytes) (params : ChunkManagerParams) (w w' : World) (i : TaskId)
    (t : Task) (d : DownloadState) : Prop where
  before : w.Shared source params
  evolves : w.Evolves w'
  task : w.tasks[i]? = some t
  job : t.job = .download
  live : ¬ t.Done
  order : w.TurnInOrder t
  later : DownloadState.Later ⟨t, w.record t.stats, w.files⟩ d
  turnOf : w.TurnOf w' i t d
  bytes : (w.record t.stats).bytesDownloaded ≤ d.stats.bytesDownloaded
  fetching : d.Fetching → d.Ok (honestService source t.range)
  file : DownloadState.FileTurn (honestService source t.range) ⟨t, w.record t.stats, w.files⟩ d
  others : ∀ r, r ≠ t.range →
    SameFile w.files w'.files (formatChunkFileName r params.fileName)

theorem Shared.downloadStep (h : w.Shared source params) {i : TaskId} {t : Task} {e : TaskEvent}
    (ht : w.tasks[i]? = some t) (hjob : t.job = .download)
    (hallowed : DownloadState.Allowed (honestService source t.range)
      ⟨t, w.record t.stats, w.files⟩ e)
    (horder : w.TurnInOrder t) (hstep : w.taskStep i e = some w') :
    ∃ d, w.DownloadStep source params w' i t d := by
  obtain ⟨d, called, hturn, hdownload, -, -⟩ := h.downloadTurn ht hjob hstep
  have hof := h.turnOf ht hstep hturn hdownload
  have hok : DownloadState.Fetching ⟨t, w.record t.stats, w.files⟩ →
      d.Ok (honestService source t.range) ∧
        DownloadState.OthersSame ⟨t, w.record t.stats, w.files⟩ d := fun hf =>
    (h.fetching i t ht hjob hf).step hallowed hturn
  have hfile := DownloadState.Ok.fileTurn id (fun hf => (hok hf).1) hallowed hturn
  refine ⟨d, h, taskStep_evolves hstep, ht, hjob, DownloadState.not_done_of_step hturn, horder,
    DownloadState.step_later hturn, hof, DownloadState.bytes_le_of_step hturn,
    fun hf => (hok (DownloadState.fetching_of_step hturn hf)).1, hfile, fun r hr => ?_⟩
  rw [hof.files]
  by_cases hf : DownloadState.Fetching ⟨t, w.record t.stats, w.files⟩
  · obtain ⟨hlt, hrange⟩ := h.task i t ht
    have hname : (w.record t.stats).chunkFileName =
        formatChunkFileName t.range params.fileName := hrange ▸ h.chunkFileName hlt
    exact (hok hf).2 _ fun he => hr (formatChunkFileName_inj (he.trans hname)).1
  · rw [hfile.files_of_not_fetching hf]
    exact .refl _ _

namespace DownloadStep

variable {i : TaskId} {t : Task} {d : DownloadState}

theorem range_record (h : w.DownloadStep source params w' i t d) (s : StatsId) :
    (w'.record s).range = (w.record s).range :=
  (h.evolves.record s).range

theorem job' (h : w.DownloadStep source params w' i t d) : d.task.job = .download :=
  h.later.task.job.trans h.job

theorem moves (h : w.DownloadStep source params w' i t d) {r : ChunkRange} :
    w'.Moves r ↔ w.Moves r :=
  h.turnOf.moves h.task h.job h.job' h.range_record

/-- A download that runs afterwards is as it should be. -/
theorem keeps_fetching (h : w.DownloadStep source params w' i t d) {j : TaskId} {t' : Task}
    (ht' : w'.tasks[j]? = some t') (hjob : t'.job = .download)
    (hphase : t'.phase = .created ∨ t'.phase = .opening ∨ t'.Writing) :
    DownloadState.Ok (honestService source t'.range) ⟨t', w'.record t'.stats, w'.files⟩ := by
  have hlive' : ¬ t'.Done := fun hdone => by
    obtain ⟨r, hr⟩ := Task.done_iff.mp hdone
    simp [Task.Writing, hr] at hphase
  obtain ⟨rfl, c, rfl⟩ | ⟨hji, t₀, ht₀, c, rfl⟩ := h.turnOf.task j t' ht'
  · show DownloadState.Ok (honestService source d.task.range) ⟨_, w'.record d.task.stats, _⟩
    rw [h.later.task.range, h.later.task.stats, h.turnOf.self, h.turnOf.files]
    exact (h.fetching hphase).congr ⟨rfl, rfl, rfl, .refl _ _⟩ rfl rfl
  · -- another download that runs: neither its record nor its file is this one's
    have hne : t₀.range ≠ t.range := fun he =>
      hji (h.before.registered.live_inj h.task ht₀ h.live hlive' he)
    obtain ⟨hlt₀, hrange₀⟩ := h.before.task j t₀ ht₀
    have hrecord := h.turnOf.other _ (h.before.record_ne h.task ht₀ hji)
    refine (h.before.fetching j t₀ ht₀ hjob hphase).congr ⟨?_, ?_, ?_, ?_⟩ rfl ?_
    · exact congrArg _ hrecord
    · exact congrArg _ hrecord
    · exact congrArg _ hrecord
    · show SameFile _ _ (w.record t₀.stats).chunkFileName
      rw [h.before.chunkFileName hlt₀, hrange₀]
      exact h.others _ hne
    · exact congrArg _ hrecord

/-- What a range's file is in afterwards. -/
theorem keeps_file (h : w.DownloadStep source params w' i t d) {s : StatsId}
    (hs : s < w.stats.length) (hbytes : 0 < (w'.record s).bytesDownloaded) :
    w'.Writes (w'.record s).range ∨ w'.Moves (w'.record s).range ∨
      w'.HasPart source params (w'.record s).range := by
  obtain ⟨hlt, hrange⟩ := h.before.task i t h.task
  rw [h.range_record, h.moves]
  by_cases hr : (w.record s).range = t.range
  · rw [hr]
    cases h.file with
    | writes _ writing =>
        have hlt' : i < w'.tasks.length := by
          rw [h.evolves.numTasks]
          exact (List.getElem?_eq_some_iff.mp h.task).1
        exact Or.inl (h.turnOf.writes_self hlt' h.job' h.later.task.range writing)
    | leaves _ _ read sent =>
        refine Or.inr (Or.inr fun bytes hread => ?_)
        have hread' := read
        rw [h.later.stats.chunkFileName, h.before.chunkFileName hlt, hrange, ← h.turnOf.files,
          hread] at hread'
        obtain rfl := Option.some.inj hread'
        exact sent
    | same files idle _ bytes =>
        have hbytes₀ : 0 < (w.record s).bytesDownloaded := by
          by_cases hst : s = t.stats
          · rw [hst, h.turnOf.self, bytes] at hbytes
            exact hst ▸ hbytes
          · rwa [h.turnOf.other s hst] at hbytes
        have hold := h.before.file s hs hbytes₀
        rw [hr] at hold
        have hpart := hold.resolve_left fun hwrites =>
          idle (h.before.writes_of_live h.task h.live hwrites)
        refine Or.inr (hpart.imp_right fun hpart => ?_)
        unfold HasPart
        rw [h.turnOf.files, files]
        exact hpart
  · have hst : s ≠ t.stats := fun he => hr (he ▸ hrange)
    rw [h.turnOf.other s hst] at hbytes
    rw [h.turnOf.writes h.task h.later.task.range hr]
    refine (h.before.file s hs hbytes).imp_right (Or.imp_right fun hpart => ?_)
    unfold HasPart
    rw [(h.others _ hr).read]
    exact hpart

/-- A succession is another task than the download. -/
theorem succession (h : w.DownloadStep source params w' i t d) {j : TaskId} {t' : Task}
    (ht' : w'.tasks[j]? = some t') (hjob : t'.job ≠ .download) :
    j ≠ i ∧ ∃ t₀, w.tasks[j]? = some t₀ ∧ t₀.Asked t' := by
  obtain ⟨-, c, rfl⟩ | hother := h.turnOf.task j t' ht'
  · exact absurd h.job' hjob
  · exact hother

theorem keeps_cropping (h : w.DownloadStep source params w' i t d) {j : TaskId} {t' : Task}
    {p : StatsId} {k : Option TaskId} {startCrop endCrop : Int} (ht' : w'.tasks[j]? = some t')
    (hjob : t'.job = .succession p k) (hphase : t'.phase = .cropping startCrop endCrop) :
    w'.CropOk t' p startCrop endCrop := by
  obtain ⟨-, t₀, ht₀, c, rfl⟩ := h.succession ht' (by simp [hjob])
  refine (h.before.cropping j t₀ p k startCrop endCrop ht₀ hjob hphase).of_record rfl
    (h.range_record p) fun hpos => ?_
  by_cases hp : p = t.stats
  · rw [hp, h.turnOf.self]
    exact lt_of_lt_of_le (hp ▸ hpos) h.bytes
  · rw [h.turnOf.other p hp]
    exact hpos

/-- The download of a range between crop and move neither writes nor opens its file. -/
theorem same_of_moves (h : w.DownloadStep source params w' i t d) (hmoves : w.Moves t.range)
    (hidle : ¬ w.Writes t.range) : w'.files = w.files ∧ ¬ d.task.Writing := by
  have hopening : t.phase ≠ .opening := fun hopening => by
    have horder := h.order
    simp only [TurnInOrder, h.job, hopening] at horder
    exact horder hmoves
  have hwriting : ¬ t.Writing := fun hwriting =>
    hidle (writes_iff.mpr ⟨i, t, h.task, h.job, rfl, hwriting⟩)
  cases h.file with
  | writes before _ => exact absurd before (not_or.mpr ⟨hopening, hwriting⟩)
  | leaves before _ _ _ => exact absurd before (not_or.mpr ⟨hopening, hwriting⟩)
  | same files _ idle' _ => exact ⟨h.turnOf.files.trans files, idle'⟩

theorem keeps_moving (h : w.DownloadStep source params w' i t d) {j : TaskId} {t' : Task}
    {p : StatsId} {k : Option TaskId} {startCrop endCrop : Int} (ht' : w'.tasks[j]? = some t')
    (hjob : t'.job = .succession p k) (hphase : t'.phase = .moving startCrop endCrop) :
    w'.MoveOk source params t' p startCrop endCrop := by
  obtain ⟨-, t₀, ht₀, c, rfl⟩ := h.succession ht' (by simp [hjob])
  obtain ⟨hread, hlen, hidle⟩ := h.before.moving j t₀ p k startCrop endCrop ht₀ hjob hphase
  by_cases hr : (w.record p).range = t.range
  · have hmoves : w.Moves t.range := moves_iff.mpr ⟨j, t₀, ht₀,
      by rw [predecessorRange, show t₀.job = _ from hjob, ← hr],
      by simp [Task.Moving, show t₀.phase = _ from hphase]⟩
    obtain ⟨hfiles, hwriting⟩ := h.same_of_moves hmoves (hr ▸ hidle)
    refine ⟨?_, hlen, ?_⟩
    · rw [h.range_record, hfiles]
      exact hread
    · rw [h.range_record, hr]
      exact h.turnOf.not_writes h.before.toLinked h.task h.live hwriting
  · refine ⟨?_, hlen, ?_⟩
    · rw [h.range_record, (h.others _ hr).read]
      exact hread
    · rw [h.range_record, h.turnOf.writes h.task h.later.task.range hr]
      exact hidle

theorem predecessorRange (h : w.DownloadStep source params w' i t d) (t' : Task) :
    w'.predecessorRange t' = w.predecessorRange t' := by
  unfold World.predecessorRange
  simp only [h.range_record]

theorem keeps_exclusive (h : w.DownloadStep source params w' i t d) {j k : TaskId} {t₁ t₂ : Task}
    {r : ChunkRange} (ht₁ : w'.tasks[j]? = some t₁) (ht₂ : w'.tasks[k]? = some t₂)
    (hr₁ : w'.predecessorRange t₁ = some r) (hr₂ : w'.predecessorRange t₂ = some r)
    (hm₁ : t₁.Moving) (hm₂ : t₂.Moving) : j = k := by
  have hjob : ∀ {t : Task}, w.predecessorRange t = some r → t.job ≠ .download := by
    intro t ht hjob
    rw [World.predecessorRange, hjob] at ht
    cases ht
  rw [h.predecessorRange] at hr₁ hr₂
  obtain ⟨-, t₁', ht₁', c₁, rfl⟩ := h.succession ht₁ (hjob hr₁)
  obtain ⟨-, t₂', ht₂', c₂, rfl⟩ := h.succession ht₂ (hjob hr₂)
  exact h.before.exclusive j k t₁' t₂' r ht₁' ht₂' hr₁ hr₂ hm₁ hm₂

theorem keeps_completed (h : w.DownloadStep source params w' i t d) {j : TaskId} {t' : Task}
    (ht' : w'.tasks[j]? = some t') (hjob : t'.job ≠ .download)
    (hstatus : (w'.record t'.stats).status = .completed)
    (hunmoved : ¬ w'.Moves t'.range) :
    w'.files.read (formatChunkFileName t'.range params.fileName) = some (t'.range.bytesOf source) ∧
      (w'.record t'.stats).bytesDownloaded = (t'.range.bytesOf source).length := by
  obtain ⟨hji, t₀, ht₀, c, rfl⟩ := h.succession ht' hjob
  have hown := h.before.record_ne h.task ht₀ hji
  have hrecord : w'.record t₀.stats = w.record t₀.stats := h.turnOf.other _ hown
  -- the range of a completed succession is not that of a download that runs
  have hstatus₀ : (w.record t₀.stats).status = .completed := hrecord ▸ hstatus
  have hne : t₀.range ≠ t.range := fun he => by
    cases hjob₀ : t₀.job with
    | download => exact hjob hjob₀
    | succession p k =>
        have htable := h.before.table ht₀ hjob₀ (Or.inr hstatus₀)
        have hentry := h.before.entry i t h.task (h.before.registered.live i t h.task h.live)
        rw [he, hentry] at htable
        exact hown (Option.some.inj htable).symm
  obtain ⟨hread, hlen⟩ := h.before.completed j t₀ ht₀ hjob hstatus₀ fun hmoves =>
    hunmoved (h.moves.mpr hmoves)
  show w'.files.read (formatChunkFileName t₀.range params.fileName) = _ ∧
    (w'.record t₀.stats).bytesDownloaded = _
  rw [(h.others _ hne).read, hrecord]
  exact ⟨hread, hlen⟩

/-- **A turn of a download** that keeps the order keeps the invariant. -/
theorem shared (h : w.DownloadStep source params w' i t d) (hlinked : w'.Linked source params) :
    w'.Shared source params :=
  ⟨hlinked, fun _ _ ht hjob => h.keeps_fetching ht hjob,
    fun _ hs => h.keeps_file (h.evolves.numStats ▸ hs),
    fun _ _ _ _ _ _ ht hjob => h.keeps_cropping ht hjob,
    fun _ _ _ _ _ _ ht hjob => h.keeps_moving ht hjob,
    fun _ _ _ _ _ ht₁ ht₂ => h.keeps_exclusive ht₁ ht₂,
    fun _ _ ht hjob => h.keeps_completed ht hjob⟩

end DownloadStep

/-! ### A turn of a succession -/

/-- A turn of a succession in a run in order, with all it does. -/
structure SuccessionStep (source : Bytes) (params : ChunkManagerParams) (w w' : World) (i : TaskId)
    (t : Task) (p : StatsId) (k : Option TaskId) (u : SuccessionState) (ended : Bool) : Prop where
  before : w.Shared source params
  evolves : w.Evolves w'
  task : w.tasks[i]? = some t
  job : t.job = .succession p k
  live : ¬ t.Done
  order : w.TurnInOrder t
  turns : SuccessionState.Turns ⟨t, w.record t.stats, w.record p, w.files⟩ ended u
  turn : w.SuccessionTurn w' i t p u
  own : t.stats ≠ p

theorem Shared.successionStep (h : w.Shared source params) {i : TaskId} {t : Task} {e : TaskEvent}
    {p : StatsId} {k : Option TaskId} (ht : w.tasks[i]? = some t) (hjob : t.job = .succession p k)
    (he : ∀ effect, e ≠ .fails effect) (horder : w.TurnInOrder t)
    (hstep : w.taskStep i e = some w') :
    ∃ u ended, w.SuccessionStep source params w' i t p k u ended := by
  obtain ⟨u, ended, hturns, hturn, hown, hlive, -⟩ := h.turns ht hjob he hstep
  exact ⟨u, ended, h, taskStep_evolves hstep, ht, hjob, hlive, horder, hturns, hturn, hown⟩

variable {i : TaskId} {t : Task} {p : StatsId} {k : Option TaskId} {u : SuccessionState}
  {ended : Bool}

namespace SuccessionStep

theorem linked (h : w.SuccessionStep source params w' i t p k u ended) :
    w.SuccessionLinked t p k :=
  h.before.succession i t p k h.task h.job

theorem range_record (h : w.SuccessionStep source params w' i t p k u ended) (s : StatsId) :
    (w'.record s).range = (w.record s).range :=
  (h.evolves.record s).range

theorem range_stats (h : w.SuccessionStep source params w' i t p k u ended) :
    (w.record t.stats).range = t.range :=
  (h.before.task i t h.task).2

theorem predecessorRange (h : w.SuccessionStep source params w' i t p k u ended) (t' : Task) :
    w'.predecessorRange t' = w.predecessorRange t' := by
  unfold World.predecessorRange
  simp only [h.range_record]

theorem predecessorRange_self (h : w.SuccessionStep source params w' i t p k u ended) :
    w.predecessorRange t = some (w.record p).range := by
  rw [World.predecessorRange, h.job]

theorem job_self (h : w.SuccessionStep source params w' i t p k u ended) :
    u.task.job = .succession p k := by
  obtain ⟨t', ht', hl⟩ := h.evolves.task i t h.task
  rw [h.turn.tasks, List.getElem?_set_self (List.getElem?_eq_some_iff.mp h.task).1] at ht'
  rw [Option.some.inj ht']
  exact hl.job.trans h.job

theorem get_self (h : w.SuccessionStep source params w' i t p k u ended) :
    w'.tasks[i]? = some u.task := by
  rw [h.turn.tasks, List.getElem?_set_self (List.getElem?_eq_some_iff.mp h.task).1]

theorem get_other (h : w.SuccessionStep source params w' i t p k u ended) {j : TaskId}
    (hji : j ≠ i) : w'.tasks[j]? = w.tasks[j]? := by
  rw [h.turn.tasks, List.getElem?_set_ne (Ne.symm hji)]

theorem record_self (h : w.SuccessionStep source params w' i t p k u ended) :
    w'.record t.stats = u.successor := by
  rw [h.turn.record, if_neg fun hs => h.own hs.1, if_pos ⟨rfl, (h.before.task i t h.task).1⟩]

theorem record_predecessor (h : w.SuccessionStep source params w' i t p k u ended) :
    w'.record p = u.predecessor := by
  rw [h.turn.record, if_pos ⟨rfl, h.linked.predecessor⟩]

theorem record_other (h : w.SuccessionStep source params w' i t p k u ended) {s : StatsId}
    (hs : s ≠ t.stats) (hp : s ≠ p) : w'.record s = w.record s := by
  rw [h.turn.record, if_neg fun hs' => hp hs'.1, if_neg fun hs' => hs hs'.1]

/-- Who writes does not change. -/
theorem writes (h : w.SuccessionStep source params w' i t p k u ended) {r : ChunkRange} :
    w'.Writes r ↔ w.Writes r := by
  rw [writes_iff, writes_iff]
  constructor
  · rintro ⟨j, t', ht', hjob, hrest⟩
    have hji : j ≠ i := by
      rintro rfl
      rw [h.get_self] at ht'
      obtain rfl := Option.some.inj ht'
      exact absurd (h.job_self.symm.trans hjob) (by simp)
    exact ⟨j, t', h.get_other hji ▸ ht', hjob, hrest⟩
  · rintro ⟨j, t', ht', hjob, hrest⟩
    have hji : j ≠ i := by
      rintro rfl
      obtain rfl := Option.some.inj (h.task.symm.trans ht')
      exact absurd (h.job.symm.trans hjob) (by simp)
    exact ⟨j, t', (h.get_other hji).trans ht', hjob, hrest⟩

/-- Another succession that is between its steps still is. -/
theorem moves_of_ne (h : w.SuccessionStep source params w' i t p k u ended) {r : ChunkRange}
    (hr : r ≠ (w.record p).range) (hmoves : w.Moves r) : w'.Moves r := by
  obtain ⟨j, t', ht', hrange, hmoving⟩ := moves_iff.mp hmoves
  have hji : j ≠ i := by
    rintro rfl
    obtain rfl := Option.some.inj (h.task.symm.trans ht')
    exact hr (Option.some.inj (hrange.symm.trans h.predecessorRange_self))
  exact moves_iff.mpr ⟨j, t', (h.get_other hji).trans ht', (h.predecessorRange t').trans hrange,
    hmoving⟩

/-- A turn that leaves files, counters and the predecessor's record alone is calm. -/
theorem calm (h : w.SuccessionStep source params w' i t p k u ended)
    (hsame : SuccessionState.SameData ⟨t, w.record t.stats, w.record p, w.files⟩ u)
    (hmoving : ¬ t.Moving ∧ ¬ u.task.Moving)
    (hcropping : ∀ startCrop endCrop, u.task.phase = .cropping startCrop endCrop →
      w'.CropOk u.task p startCrop endCrop)
    (hcompleted : u.successor.status = .completed → (w.record t.stats).status = .completed) :
    w.Calm w' := by
  have hrecord : ∀ s, s ≠ t.stats → w'.record s = w.record s := fun s hs => by
    by_cases hp : s = p
    · rw [hp, h.record_predecessor]
      exact hsame.predecessor
    · exact h.record_other hs hp
  have hself : t.Later u.task := by
    obtain ⟨t', ht', hl⟩ := h.evolves.task i t h.task
    rw [h.get_self] at ht'
    exact Option.some.inj ht' ▸ hl
  have hquiet : ∀ (j : TaskId) (t₀ : Task), w.tasks[j]? = some t₀ →
      ∃ t', w'.tasks[j]? = some t' ∧ t₀.Later t' ∧ w.Quiet w' t₀ t' := fun j t₀ ht₀ => by
    by_cases hji : j = i
    · subst hji
      obtain rfl := Option.some.inj (h.task.symm.trans ht₀)
      refine ⟨u.task, h.get_self, hself, Or.inr ⟨by simp [h.job], hmoving.1, hmoving.2, ?_⟩,
        fun hjob => absurd (h.job.symm.trans hjob) (by simp), h.record_self ▸ hcompleted⟩
      intro q k' startCrop endCrop hjob hphase
      obtain ⟨rfl, -⟩ := Job.succession.inj (h.job_self.symm.trans hjob)
      exact hcropping startCrop endCrop hphase
    · refine ⟨t₀, (h.get_other hji).trans ht₀, .refl t₀, .refl rfl ?_⟩
      rw [hrecord _ (h.before.record_ne h.task ht₀ hji)]
  refine ⟨h.turn.files.trans hsame.files, fun s hs => ⟨h.evolves.record s, ?_⟩, fun s hs => ?_,
    hquiet, fun j t' ht' => ?_⟩
  · by_cases hst : s = t.stats
    · rw [hst, h.record_self]
      exact hsame.bytesDownloaded
    · rw [hrecord s hst]
  · rw [hrecord s (Nat.ne_of_gt ((h.before.task i t h.task).1.trans_le hs)),
      record_of_length_le hs]
    rfl
  · obtain ⟨t₀, ht₀, -⟩ := h.evolves.task_of ht'
    obtain ⟨t₁, ht₁, hl, hq⟩ := hquiet j t₀ ht₀
    obtain rfl := Option.some.inj (ht₁.symm.trans ht')
    exact Or.inl ⟨t₀, ht₀, hl, hq⟩

/-- A task of the world after the turn that is not the one that had it was there before. -/
theorem task_of (h : w.SuccessionStep source params w' i t p k u ended) {j : TaskId} {t' : Task}
    (ht' : w'.tasks[j]? = some t') :
    j = i ∧ t' = u.task ∨ j ≠ i ∧ w.tasks[j]? = some t' := by
  by_cases hji : j = i
  · subst hji
    rw [h.get_self] at ht'
    exact Or.inl ⟨rfl, (Option.some.inj ht').symm⟩
  · exact Or.inr ⟨hji, (h.get_other hji).symm.trans ht'⟩

/-- A download that runs has neither of the two records. -/
theorem record_download (h : w.SuccessionStep source params w' i t p k u ended)
    (hpast : t.PastPredecessor) {j : TaskId} {t' : Task} (ht' : w.tasks[j]? = some t')
    (hjob : t'.job = .download) (hlive : ¬ t'.Done) :
    w'.record t'.stats = w.record t'.stats := by
  refine h.record_other (fun he => ?_) fun he => ?_
  · obtain rfl := h.before.own j i t' t ht' h.task he
    obtain rfl := Option.some.inj (h.task.symm.trans ht')
    exact absurd (h.job.symm.trans hjob) (by simp)
  · exact hlive (h.linked.ended (Or.inr hpast) j t' ht' he)

/-- A download that has nothing in its file yet is as it should be, whatever happens to the
file. -/
theorem ok_of_idle {t' : Task} {stats stats' : Stats} {files files' : Files} {service : Service}
    (hok : DownloadState.Ok service ⟨t', stats, files⟩) (hstats : stats' = stats)
    (hphase : t'.phase = .created ∨ t'.phase = .opening) :
    DownloadState.Ok service ⟨t', stats', files'⟩ := by
  subst hstats
  refine ⟨hok.running, ?_⟩
  have hbytes := hok.phase
  rcases hphase with hphase | hphase <;> simp only [hphase] at hbytes ⊢ <;> exact hbytes

theorem not_done_of_fetching {t' : Task}
    (h : t'.phase = .created ∨ t'.phase = .opening ∨ t'.Writing) : ¬ t'.Done := fun hdone => by
  obtain ⟨r, hr⟩ := Task.done_iff.mp hdone
  simp [Task.Writing, hr] at h

/-- A succession goes on to crop at its own offsets. -/
theorem cropOk (h : w.SuccessionStep source params w' i t p k u ended)
    (hcrops : SuccessionState.Crops ⟨t, w.record t.stats, w.record p, w.files⟩ u) :
    w'.CropOk u.task p (SuccessionState.startCrop ⟨t, w.record t.stats, w.record p, w.files⟩)
      (SuccessionState.endCrop ⟨t, w.record t.stats, w.record p, w.files⟩) := by
  have hrange : u.task.range = t.range := by
    obtain ⟨t', ht', hl⟩ := h.evolves.task i t h.task
    rw [h.get_self] at ht'
    rw [Option.some.inj ht']
    exact hl.range
  obtain ⟨e, hend⟩ := Option.isSome_iff_exists.mp h.linked.bounded
  unfold CropOk SuccessionState.startCrop SuccessionState.endCrop
  dsimp only
  rw [hrange, h.range_record, h.range_stats, hend, h.record_predecessor, hcrops.predecessor]
  exact ⟨rfl, by rw [Int.sub_add_cancel], hcrops.hasData⟩

end SuccessionStep

/-! ### The crop -/

/-- The turn in which a succession crops its predecessor's file. -/
structure CropStep (source : Bytes) (params : ChunkManagerParams) (w w' : World) (i : TaskId)
    (t : Task) (p : StatsId) (k : Option TaskId) (u : SuccessionState) (ended : Bool)
    (startCrop endCrop : Int) (ino : Nat) : Prop
    extends w.SuccessionStep source params w' i t p k u ended where
  phase : t.phase = .cropping startCrop endCrop
  phase' : u.task.phase = .moving startCrop endCrop
  range' : u.task.range = t.range
  record : ∀ s, w'.record s = w.record s
  lookup : w.files.lookup (formatChunkFileName (w.record p).range params.fileName) = some ino
  fits : endCrop < (w.files.content ino).length
  files : w'.files =
    w.files.overwrite ino (cropBytes (w.files.content ino) startCrop endCrop)
  unmoved : ¬ w.Moves (w.record p).range
  unwritten : ¬ w.Writes (w.record p).range

theorem SuccessionStep.cropStep (h : w.SuccessionStep source params w' i t p k u ended)
    {startCrop endCrop : Int} {files : Files} (hphase : t.phase = .cropping startCrop endCrop)
    (hcrop : cropFile w.files (w.record p).chunkFileName startCrop endCrop = .ok files)
    (hu : u = { SuccessionState.enter ⟨t, w.record t.stats, w.record p, w.files⟩
      (.moving startCrop endCrop) with files }) :
    ∃ ino, w.CropStep source params w' i t p k u ended startCrop endCrop ino := by
  have hname := h.before.chunkFileName h.linked.predecessor
  obtain ⟨hidle, hquiet⟩ : ¬ w.Moves (w.record p).range ∧ ¬ w.Writes (w.record p).range := by
    have horder := h.order
    simp only [TurnInOrder, h.job, hphase, CropAccepted, hcrop] at horder
    exact horder rfl
  obtain ⟨ino, hlookup, hlt, rfl⟩ := cropFile_eq_ok hcrop
  refine ⟨ino, ⟨h, hphase, by rw [hu]; rfl, by rw [hu]; rfl, fun s => ?_, hname ▸ hlookup, hlt,
    by rw [h.turn.files, hu], hidle, hquiet⟩⟩
  by_cases hs : s = t.stats
  · rw [hs, h.record_self, hu]
    rfl
  · by_cases hsp : s = p
    · rw [hsp, h.record_predecessor, hu]
      rfl
    · exact h.record_other hs hsp

namespace CropStep

variable {startCrop endCrop : Int} {ino : Nat}

theorem others (h : w.CropStep source params w' i t p k u ended startCrop endCrop ino)
    {r : ChunkRange} (hr : r ≠ (w.record p).range) :
    SameFile w.files w'.files (formatChunkFileName r params.fileName) := by
  rw [h.files]
  exact sameFile_overwrite _ h.lookup fun he => hr (formatChunkFileName_inj he).1

theorem keeps_fetching (h : w.CropStep source params w' i t p k u ended startCrop endCrop ino)
    {j : TaskId} {t' : Task} (ht' : w'.tasks[j]? = some t') (hjob : t'.job = .download)
    (hphase : t'.phase = .created ∨ t'.phase = .opening ∨ t'.Writing) :
    DownloadState.Ok (honestService source t'.range) ⟨t', w'.record t'.stats, w'.files⟩ := by
  obtain ⟨-, rfl⟩ | ⟨hji, ht'⟩ := h.task_of ht'
  · exact absurd (h.job_self.symm.trans hjob) (by simp)
  have hok := h.before.fetching j t' ht' hjob hphase
  rw [h.record]
  by_cases hr : t'.range = (w.record p).range
  · exact SuccessionStep.ok_of_idle hok rfl <| hphase.imp_right fun hor =>
      hor.resolve_right fun hwriting =>
        h.unwritten (writes_iff.mpr ⟨j, t', ht', hjob, hr, hwriting⟩)
  · obtain ⟨hlt, hrange⟩ := h.before.task j t' ht'
    refine hok.congr ⟨rfl, rfl, rfl, ?_⟩ rfl rfl
    show SameFile _ _ (w.record t'.stats).chunkFileName
    rw [h.before.chunkFileName hlt, hrange]
    exact h.others hr

theorem keeps_file (h : w.CropStep source params w' i t p k u ended startCrop endCrop ino)
    {s : StatsId} (hs : s < w.stats.length) (hbytes : 0 < (w'.record s).bytesDownloaded) :
    w'.Writes (w'.record s).range ∨ w'.Moves (w'.record s).range ∨
      w'.HasPart source params (w'.record s).range := by
  rw [h.record] at hbytes ⊢
  by_cases hr : (w.record s).range = (w.record p).range
  · refine Or.inr (Or.inl (moves_iff.mpr ⟨i, u.task, h.get_self, ?_, ?_⟩))
    · rw [h.predecessorRange, World.predecessorRange, h.job_self, hr]
    · simp [Task.Moving, h.phase']
  · rw [h.writes]
    refine (h.before.file s hs hbytes).imp_right (Or.imp (h.moves_of_ne hr) fun hpart => ?_)
    unfold HasPart
    rw [(h.others hr).read]
    exact hpart

theorem keeps_cropping (h : w.CropStep source params w' i t p k u ended startCrop endCrop ino)
    {j : TaskId} {t' : Task} {q : StatsId} {k' : Option TaskId} {startCrop' endCrop' : Int}
    (ht' : w'.tasks[j]? = some t') (hjob : t'.job = .succession q k')
    (hphase : t'.phase = .cropping startCrop' endCrop') :
    w'.CropOk t' q startCrop' endCrop' := by
  obtain ⟨-, rfl⟩ | ⟨hji, ht'⟩ := h.task_of ht'
  · rw [h.phase'] at hphase
    cases hphase
  · refine (h.before.cropping j t' q k' _ _ ht' hjob hphase).of_record rfl ?_ ?_ <;> rw [h.record]
    exact id

/-- **What the crop leaves** is the successor's part. -/
theorem moveOk (h : w.CropStep source params w' i t p k u ended startCrop endCrop ino) :
    w'.MoveOk source params u.task p startCrop endCrop := by
  have hplt := h.linked.predecessor
  obtain ⟨hstart, hend, hdata⟩ := h.before.cropping i t p k startCrop endCrop h.task h.job h.phase
  obtain ⟨hin, hle, -⟩ := ChunkRange.of_contains hend h.linked.inside
  have hfront : w.files.content ino <+: (w.record p).range.bytesOf source :=
    ((h.before.file p hplt hdata).resolve_left h.unwritten).resolve_left h.unmoved _
      (FileSystem.read_of_lookup h.lookup)
  have hcropped : cropBytes (w.files.content ino) startCrop endCrop = t.range.bytesOf source := by
    have hcrop := cropBytes_of_prefix (h.before.stats p hplt).2.2 hend h.linked.inside hfront
    rw [← hstart, add_sub_cancel_right] at hcrop
    exact hcrop h.fits
  constructor
  · rw [h.record, h.range', h.files, FileSystem.read_overwrite_self _ h.lookup, hcropped]
  · rw [h.range', ← hcropped, length_cropBytes (by omega) (by omega) h.fits]
  · rw [h.record, h.writes]
    exact h.unwritten

/-- No other succession is between its steps with the same file. -/
theorem range_ne_of_moving
    (h : w.CropStep source params w' i t p k u ended startCrop endCrop ino) {j : TaskId}
    {t' : Task} {r : ChunkRange} (ht' : w.tasks[j]? = some t')
    (hr : w.predecessorRange t' = some r) (hmoving : t'.Moving) : r ≠ (w.record p).range :=
  fun he => h.unmoved (moves_iff.mpr ⟨j, t', ht', hr.trans (congrArg some he), hmoving⟩)

theorem keeps_moving (h : w.CropStep source params w' i t p k u ended startCrop endCrop ino)
    {j : TaskId} {t' : Task} {q : StatsId} {k' : Option TaskId} {startCrop' endCrop' : Int}
    (ht' : w'.tasks[j]? = some t') (hjob : t'.job = .succession q k')
    (hphase : t'.phase = .moving startCrop' endCrop') :
    w'.MoveOk source params t' q startCrop' endCrop' := by
  obtain ⟨-, rfl⟩ | ⟨hji, ht'⟩ := h.task_of ht'
  · obtain ⟨rfl, -⟩ := Job.succession.inj (h.job_self.symm.trans hjob)
    obtain ⟨rfl, rfl⟩ := Phase.moving.inj (h.phase'.symm.trans hphase)
    exact h.moveOk
  · have hr := h.range_ne_of_moving ht' (by rw [World.predecessorRange, hjob])
      (by simp [Task.Moving, hphase])
    obtain ⟨hread, hlen, hwrites⟩ := h.before.moving j t' q k' _ _ ht' hjob hphase
    constructor
    · rw [h.record, (h.others hr).read]
      exact hread
    · exact hlen
    · rw [h.record, h.writes]
      exact hwrites

theorem keeps_exclusive (h : w.CropStep source params w' i t p k u ended startCrop endCrop ino)
    {j₁ j₂ : TaskId} {t₁ t₂ : Task} {r : ChunkRange} (ht₁ : w'.tasks[j₁]? = some t₁)
    (ht₂ : w'.tasks[j₂]? = some t₂) (hr₁ : w'.predecessorRange t₁ = some r)
    (hr₂ : w'.predecessorRange t₂ = some r) (hm₁ : t₁.Moving) (hm₂ : t₂.Moving) : j₁ = j₂ := by
  have hself : w.predecessorRange u.task = some (w.record p).range := by
    rw [World.predecessorRange, h.job_self]
  rw [h.predecessorRange] at hr₁ hr₂
  obtain ⟨hj₁, rfl⟩ | ⟨-, ht₁⟩ := h.task_of ht₁ <;>
    obtain ⟨hj₂, rfl⟩ | ⟨-, ht₂⟩ := h.task_of ht₂
  · rw [hj₁, hj₂]
  · exact absurd (Option.some.inj (hr₁.symm.trans hself)) (h.range_ne_of_moving ht₂ hr₂ hm₂)
  · exact absurd (Option.some.inj (hr₂.symm.trans hself)) (h.range_ne_of_moving ht₁ hr₁ hm₁)
  · exact h.before.exclusive j₁ j₂ t₁ t₂ r ht₁ ht₂ hr₁ hr₂ hm₁ hm₂

theorem keeps_completed (h : w.CropStep source params w' i t p k u ended startCrop endCrop ino)
    {j : TaskId} {t' : Task} (ht' : w'.tasks[j]? = some t') (hjob : t'.job ≠ .download)
    (hstatus : (w'.record t'.stats).status = .completed)
    (hunmoved : ¬ w'.Moves t'.range) :
    w'.files.read (formatChunkFileName t'.range params.fileName) = some (t'.range.bytesOf source) ∧
      (w'.record t'.stats).bytesDownloaded = (t'.range.bytesOf source).length := by
  -- the predecessor's file is the one file that is spoiled, until it is moved
  have hp : t'.range ≠ (w.record p).range := fun he => by
    refine hunmoved (moves_iff.mpr ⟨i, u.task, h.get_self, ?_, by simp [Task.Moving, h.phase']⟩)
    rw [h.predecessorRange, he, World.predecessorRange, h.job_self]
  have hunmoved₀ : ¬ w.Moves t'.range := fun hmoves => hunmoved (h.moves_of_ne hp hmoves)
  rw [h.record] at hstatus ⊢
  rw [(h.others hp).read]
  obtain ⟨rfl, rfl⟩ | ⟨hji, ht'⟩ := h.task_of ht'
  · obtain ⟨t₀, ht₀, hl⟩ := h.evolves.task_of h.get_self
    obtain rfl := Option.some.inj (h.task.symm.trans ht₀)
    rw [hl.stats] at hstatus ⊢
    rw [h.range'] at hunmoved₀ ⊢
    exact h.before.completed j t h.task (by simp [h.job]) hstatus hunmoved₀
  · exact h.before.completed j t' ht' hjob hstatus hunmoved₀

/-- **The crop** keeps the invariant. -/
theorem shared (h : w.CropStep source params w' i t p k u ended startCrop endCrop ino)
    (hlinked : w'.Linked source params) : w'.Shared source params :=
  ⟨hlinked, fun _ _ ht hjob => h.keeps_fetching ht hjob,
    fun _ hs => h.keeps_file (h.evolves.numStats ▸ hs),
    fun _ _ _ _ _ _ ht hjob => h.keeps_cropping ht hjob,
    fun _ _ _ _ _ _ ht hjob => h.keeps_moving ht hjob,
    fun _ _ _ _ _ ht₁ ht₂ => h.keeps_exclusive ht₁ ht₂,
    fun _ _ ht hjob => h.keeps_completed ht hjob⟩

end CropStep

/-! ### The move -/

/-- The turn in which a succession moves the cropped file, and is complete. -/
structure MoveStep (source : Bytes) (params : ChunkManagerParams) (w w' : World) (i : TaskId)
    (t : Task) (p : StatsId) (k : Option TaskId) (u : SuccessionState) (ended : Bool)
    (startCrop endCrop : Int) (ino : Nat) : Prop
    extends w.SuccessionStep source params w' i t p k u ended where
  phase : t.phase = .moving startCrop endCrop
  phase' : u.task.phase = .done .returned
  range' : u.task.range = t.range
  stats' : u.task.stats = t.stats
  bytes : (w'.record t.stats).bytesDownloaded = endCrop - startCrop + 1
  predecessor : w'.record p = (w.record p).setStatus .deprecated
  lookup : w.files.lookup (formatChunkFileName (w.record p).range params.fileName) = some ino
  files : w'.files =
    w.files.rename (formatChunkFileName (w.record p).range params.fileName)
      (formatChunkFileName t.range params.fileName)

theorem SuccessionStep.moveStep (h : w.SuccessionStep source params w' i t p k u ended)
    {startCrop endCrop : Int} {ino : Nat} (hphase : t.phase = .moving startCrop endCrop)
    (hlookup : w.files.lookup (w.record p).chunkFileName = some ino)
    (hu : u = SuccessionState.complete ⟨t, w.record t.stats, w.record p,
      w.files.rename (w.record p).chunkFileName (w.record t.stats).chunkFileName⟩
      startCrop endCrop) :
    w.MoveStep source params w' i t p k u ended startCrop endCrop ino := by
  have hname := h.before.chunkFileName h.linked.predecessor
  have hname' := h.before.chunkFileName (h.before.task i t h.task).1
  rw [h.range_stats] at hname'
  refine ⟨h, hphase, ?_, ?_, ?_, ?_, ?_, hname ▸ hlookup, ?_⟩
  · rw [hu]; rfl
  · rw [hu]; rfl
  · rw [hu]; rfl
  · rw [h.record_self, hu]; rfl
  · rw [h.record_predecessor, hu]; rfl
  · rw [h.turn.files, hu, ← hname, ← hname']; rfl

namespace MoveStep

variable {startCrop endCrop : Int} {ino : Nat}

theorem moveOk (h : w.MoveStep source params w' i t p k u ended startCrop endCrop ino) :
    w.MoveOk source params t p startCrop endCrop :=
  h.before.moving i t p k startCrop endCrop h.task h.job h.phase

theorem past (h : w.MoveStep source params w' i t p k u ended startCrop endCrop ino) :
    t.PastPredecessor :=
  Task.pastPredecessor_of_moving h.phase

theorem read (h : w.MoveStep source params w' i t p k u ended startCrop endCrop ino)
    (name : String) :
    w'.files.read name =
      if name = formatChunkFileName t.range params.fileName then some (t.range.bytesOf source)
      else if name = formatChunkFileName (w.record p).range params.fileName then none
      else w.files.read name := by
  rw [h.files, FileSystem.read_rename h.lookup, h.moveOk.file]

theorem others (h : w.MoveStep source params w' i t p k u ended startCrop endCrop ino)
    {r : ChunkRange} (hr : r ≠ (w.record p).range) (hr' : r ≠ t.range) :
    SameFile w.files w'.files (formatChunkFileName r params.fileName) := by
  rw [h.files]
  refine ⟨?_, fun _ _ => FileSystem.content_rename⟩
  rw [FileSystem.lookup_rename h.lookup, if_neg fun he => hr' (formatChunkFileName_inj he).1,
    if_neg fun he => hr (formatChunkFileName_inj he).1]

/-- What a download that runs has to do with the two files: nothing, or nothing yet. -/
theorem keeps_fetching (h : w.MoveStep source params w' i t p k u ended startCrop endCrop ino)
    {j : TaskId} {t' : Task} (ht' : w'.tasks[j]? = some t') (hjob : t'.job = .download)
    (hphase : t'.phase = .created ∨ t'.phase = .opening ∨ t'.Writing) :
    DownloadState.Ok (honestService source t'.range) ⟨t', w'.record t'.stats, w'.files⟩ := by
  obtain ⟨-, rfl⟩ | ⟨hji, ht'⟩ := h.task_of ht'
  · exact absurd (h.job_self.symm.trans hjob) (by simp)
  have hok := h.before.fetching j t' ht' hjob hphase
  have hlive := SuccessionStep.not_done_of_fetching hphase
  have hrecord := h.record_download h.past ht' hjob hlive
  by_cases hr : t'.range = (w.record p).range
  · exact SuccessionStep.ok_of_idle hok hrecord <| hphase.imp_right fun hor =>
      hor.resolve_right fun hwriting =>
        h.moveOk.idle (writes_iff.mpr ⟨j, t', ht', hjob, hr, hwriting⟩)
  · obtain ⟨hlt, hrange⟩ := h.before.task j t' ht'
    have hr' : t'.range ≠ t.range := fun he =>
      hji (h.before.registered.live_inj h.task ht' h.live hlive he)
    rw [hrecord]
    refine hok.congr ⟨rfl, rfl, rfl, ?_⟩ rfl rfl
    show SameFile _ _ (w.record t'.stats).chunkFileName
    rw [h.before.chunkFileName hlt, hrange]
    exact h.others hr hr'

theorem keeps_file (h : w.MoveStep source params w' i t p k u ended startCrop endCrop ino)
    {s : StatsId} (hs : s < w.stats.length) (hbytes : 0 < (w'.record s).bytesDownloaded) :
    w'.Writes (w'.record s).range ∨ w'.Moves (w'.record s).range ∨
      w'.HasPart source params (w'.record s).range := by
  rw [h.range_record, h.writes]
  by_cases hr' : (w.record s).range = t.range
  · refine Or.inr (Or.inr fun bytes hread => ?_)
    rw [hr', h.read, if_pos rfl] at hread
    rw [hr', ← Option.some.inj hread]
  · by_cases hr : (w.record s).range = (w.record p).range
    · refine Or.inr (Or.inr fun bytes hread => ?_)
      rw [hr, h.read, if_neg fun he => h.linked.proper (formatChunkFileName_inj he).1.symm,
        if_pos rfl] at hread
      cases hread
    · have hst : s ≠ t.stats := fun he => hr' (by rw [he]; exact h.range_stats)
      have hsp : s ≠ p := fun he => hr (by rw [he])
      rw [h.record_other hst hsp] at hbytes
      refine (h.before.file s hs hbytes).imp_right (Or.imp (h.moves_of_ne hr) fun hpart => ?_)
      unfold HasPart
      rw [(h.others hr hr').read]
      exact hpart

/-- A succession from the successor's range would have to wait for this one. -/
theorem not_successor (h : w.MoveStep source params w' i t p k u ended startCrop endCrop ino)
    {j : TaskId} {t' : Task} {q : StatsId} {k' : Option TaskId} (ht' : w.tasks[j]? = some t')
    (hjob : t'.job = .succession q k') (hpast : t'.PastPredecessor) :
    q ≠ t.stats ∧ (w.record q).range ≠ t.range := by
  have hlinked := h.before.succession j t' q k' ht' hjob
  have hq : q ≠ t.stats := fun he => h.live (hlinked.ended (Or.inr hpast) i t h.task he.symm)
  exact ⟨hq, fun he => hq (h.linked.only (Or.inl h.live) q hlinked.predecessor he)⟩

theorem keeps_cropping (h : w.MoveStep source params w' i t p k u ended startCrop endCrop ino)
    {j : TaskId} {t' : Task} {q : StatsId} {k' : Option TaskId} {startCrop' endCrop' : Int}
    (ht' : w'.tasks[j]? = some t') (hjob : t'.job = .succession q k')
    (hphase : t'.phase = .cropping startCrop' endCrop') :
    w'.CropOk t' q startCrop' endCrop' := by
  obtain ⟨-, rfl⟩ | ⟨hji, ht'⟩ := h.task_of ht'
  · rw [h.phase'] at hphase
    cases hphase
  · obtain ⟨hq, -⟩ := h.not_successor ht' hjob (Task.pastPredecessor_of_cropping hphase)
    refine (h.before.cropping j t' q k' _ _ ht' hjob hphase).of_record rfl (h.range_record q)
      fun hpos => ?_
    by_cases hqp : q = p
    · rw [hqp, h.predecessor]
      exact hqp ▸ hpos
    · rw [h.record_other hq hqp]
      exact hpos

theorem keeps_moving (h : w.MoveStep source params w' i t p k u ended startCrop endCrop ino)
    {j : TaskId} {t' : Task} {q : StatsId} {k' : Option TaskId} {startCrop' endCrop' : Int}
    (ht' : w'.tasks[j]? = some t') (hjob : t'.job = .succession q k')
    (hphase : t'.phase = .moving startCrop' endCrop') :
    w'.MoveOk source params t' q startCrop' endCrop' := by
  obtain ⟨-, rfl⟩ | ⟨hji, ht'⟩ := h.task_of ht'
  · rw [h.phase'] at hphase
    cases hphase
  · obtain ⟨-, hr'⟩ := h.not_successor ht' hjob (Task.pastPredecessor_of_moving hphase)
    have hr : (w.record q).range ≠ (w.record p).range := fun he => by
      refine hji (h.before.exclusive j i t' t (w.record p).range ht' h.task ?_
        h.predecessorRange_self (by simp [Task.Moving, hphase]) (by simp [Task.Moving, h.phase]))
      rw [World.predecessorRange, hjob]
      exact congrArg some he
    obtain ⟨hread, hlen, hwrites⟩ := h.before.moving j t' q k' _ _ ht' hjob hphase
    constructor
    · rw [h.range_record, (h.others hr hr').read]
      exact hread
    · exact hlen
    · rw [h.range_record, h.writes]
      exact hwrites

theorem keeps_exclusive (h : w.MoveStep source params w' i t p k u ended startCrop endCrop ino)
    {j₁ j₂ : TaskId} {t₁ t₂ : Task} {r : ChunkRange} (ht₁ : w'.tasks[j₁]? = some t₁)
    (ht₂ : w'.tasks[j₂]? = some t₂) (hr₁ : w'.predecessorRange t₁ = some r)
    (hr₂ : w'.predecessorRange t₂ = some r) (hm₁ : t₁.Moving) (hm₂ : t₂.Moving) : j₁ = j₂ := by
  have hself : ¬ u.task.Moving := by simp [Task.Moving, h.phase']
  rw [h.predecessorRange] at hr₁ hr₂
  obtain ⟨-, rfl⟩ | ⟨-, ht₁⟩ := h.task_of ht₁
  · exact absurd hm₁ hself
  obtain ⟨-, rfl⟩ | ⟨-, ht₂⟩ := h.task_of ht₂
  · exact absurd hm₂ hself
  exact h.before.exclusive j₁ j₂ t₁ t₂ r ht₁ ht₂ hr₁ hr₂ hm₁ hm₂

/-- **What the move leaves** is a completed successor that is exact. -/
theorem keeps_completed (h : w.MoveStep source params w' i t p k u ended startCrop endCrop ino)
    {j : TaskId} {t' : Task} (ht' : w'.tasks[j]? = some t') (hjob : t'.job ≠ .download)
    (hstatus : (w'.record t'.stats).status = .completed)
    (hunmoved : ¬ w'.Moves t'.range) :
    w'.files.read (formatChunkFileName t'.range params.fileName) = some (t'.range.bytesOf source) ∧
      (w'.record t'.stats).bytesDownloaded = (t'.range.bytesOf source).length := by
  obtain ⟨-, rfl⟩ | ⟨hji, ht'⟩ := h.task_of ht'
  · rw [h.range', h.stats', h.read, if_pos rfl, h.bytes]
    exact ⟨rfl, h.moveOk.bytes⟩
  · have hne := h.before.record_ne h.task ht' hji
    -- the predecessor is completed no longer, and no other record has one of the two ranges
    have hnotp : t'.stats ≠ p := fun he => by
      rw [he, h.predecessor] at hstatus
      cases hstatus
    have hrecord : w'.record t'.stats = w.record t'.stats := h.record_other hne hnotp
    rw [hrecord] at hstatus ⊢
    have honly : ∀ s < w.stats.length, (w.record s).range = t'.range → s = t'.stats := by
      cases hjob' : t'.job with
      | download => exact absurd hjob' hjob
      | succession q k' =>
          exact (h.before.succession j t' q k' ht' hjob').only (Or.inr hstatus)
    have hr : t'.range ≠ (w.record p).range := fun he =>
      hnotp (honly p h.linked.predecessor he.symm).symm
    have hr' : t'.range ≠ t.range := fun he =>
      hne (honly _ (h.before.task i t h.task).1 (h.range_stats.trans he.symm)).symm
    rw [(h.others hr hr').read]
    exact h.before.completed j t' ht' hjob hstatus fun hmoves =>
      hunmoved (h.moves_of_ne hr hmoves)

/-- **The move** keeps the invariant. -/
theorem shared (h : w.MoveStep source params w' i t p k u ended startCrop endCrop ino)
    (hlinked : w'.Linked source params) : w'.Shared source params :=
  ⟨hlinked, fun _ _ ht hjob => h.keeps_fetching ht hjob,
    fun _ hs => h.keeps_file (h.evolves.numStats ▸ hs),
    fun _ _ _ _ _ _ ht hjob => h.keeps_cropping ht hjob,
    fun _ _ _ _ _ _ ht hjob => h.keeps_moving ht hjob,
    fun _ _ _ _ _ ht₁ ht₂ => h.keeps_exclusive ht₁ ht₂,
    fun _ _ ht hjob => h.keeps_completed ht hjob⟩

end MoveStep

/-! ### Each step -/

/-- **A turn of a succession** that keeps the order keeps the invariant. -/
theorem SuccessionStep.shared (h : w.SuccessionStep source params w' i t p k u ended)
    (hlinked : w'.Linked source params) : w'.Shared source params := by
  have hturns := h.turns
  generalize hu : u = u' at hturns
  cases hturns with
  | failed hfailed hmissing =>
      subst hu
      obtain ⟨e, hphase⟩ := hfailed.phase
      refine h.before.calm hlinked (h.calm hfailed.toSameData ⟨?_, ?_⟩ ?_ ?_)
      · -- between its steps, the file a succession is to move is there
        intro hmoving
        unfold Task.Moving at hmoving
        split at hmoving
        · rename_i startCrop endCrop hp
          have hread := (h.before.moving i t p k startCrop endCrop h.task h.job hp).file
          have hnone := hmissing startCrop endCrop hp
          rw [h.before.chunkFileName h.linked.predecessor] at hnone
          rw [FileSystem.read_eq_none_iff.mpr hnone] at hread
          cases hread
        · exact hmoving
      · simp [Task.Moving, hphase]
      · simp [hphase]
      · simp [hfailed.status]
  | waits hphase hwaits =>
      subst hu
      refine h.before.calm hlinked (h.calm hwaits.toSameData ⟨?_, ?_⟩ ?_ ?_)
      · simp [Task.Moving, show t.phase = _ from hphase]
      · simp [Task.Moving, hwaits.phase]
      · simp [hwaits.phase]
      · rw [hwaits.successor]
        exact id
  | crops hended hphase hcrops =>
      subst hu
      refine h.before.calm hlinked (h.calm hcrops.toSameData ⟨?_, ?_⟩ ?_ ?_)
      · rcases hphase with hphase | hphase <;>
          simp [Task.Moving, show t.phase = _ from hphase]
      · simp [Task.Moving, hcrops.phase]
      · intro startCrop endCrop hcropping
        obtain ⟨rfl, rfl⟩ := Phase.cropping.inj (hcrops.phase.symm.trans hcropping)
        exact h.cropOk hcrops
      · rw [hcrops.successor]
        exact id
  | cropped hphase hcrop =>
      obtain ⟨ino, hstep⟩ := h.cropStep hphase hcrop hu
      exact hstep.shared hlinked
  | moved hphase hlookup => exact (h.moveStep hphase hlookup hu).shared hlinked

theorem shared_init (source : Bytes) (params : ChunkManagerParams) (files : Files) :
    (World.init files []).Shared source params := by
  refine ⟨linked_init source params files, ?_, ?_, ?_, ?_, ?_, ?_⟩ <;> simp [World.init]

/-- **Every step** of an honest run that keeps the order keeps the invariant. -/
theorem Shared.step (h : w.Shared source params) {e : Event} {out : List Returned}
    (hused : UsedHonestly source w e) (horder : KeepsOrder w e)
    (hstep : SDownload.step params w e = some (w', out)) : w'.Shared source params := by
  have hlinked := h.toLinked.step hused hstep
  cases (h.honestStep hused hstep).1 with
  | collects hcollects => exact h.calm hlinked hcollects.calm
  | started hin hfree hkey hstarted =>
      refine h.calm hlinked (calm_of_creates h.toLinked hstarted.toCreates hstarted.toGrows
        (fun i t' hi ht' => ⟨t', hstarted.tasks i hi ▸ ht', .refl t'⟩) (by decide) fun _ => rfl)
  | resized hbounded hnew hresizes htable hresized =>
      refine h.calm hlinked (calm_of_creates h.toLinked hresized.toCreates hresized.toGrows
        (fun i t' hi ht' => ?_) (by decide) fun hjob => by cases hjob)
      obtain ⟨t, ht, rfl | ⟨-, -, hasked⟩⟩ := hresized.asked i t' hi ht'
      · exact ⟨t', ht, .refl t'⟩
      · exact ⟨t, ht, hasked⟩
  | turn ht hhonest hturn =>
      have hinOrder := horder _ ht
      unfold HonestTurn at hhonest
      split at hhonest
      · rename_i hjob
        obtain ⟨d, hd⟩ := h.downloadStep ht hjob hhonest hinOrder hturn
        exact hd.shared hlinked
      · rename_i hjob
        obtain ⟨u, ended, hu⟩ := h.successionStep ht hjob hhonest hinOrder hturn
        exact hu.shared hlinked

/-- All of a successor's part of the source is in its file, and counted. -/
def ExactTask (source : Bytes) (params : ChunkManagerParams) (w : World) (t : Task) : Prop :=
  w.files.read (formatChunkFileName t.range params.fileName) = some (t.range.bytesOf source) ∧
    (w.record t.stats).bytesDownloaded = (t.range.bytesOf source).length

end World

/-! ### Runs -/

/-- The steps of an honest run in which no file is disturbed between its crop and its move. -/
def UsedInOrder (source : Bytes) (w : World) (e : Event) : Prop :=
  UsedHonestly source w e ∧ KeepsOrder w e

instance (source : Bytes) (w : World) (e : Event) : Decidable (UsedInOrder source w e) :=
  inferInstanceAs (Decidable (_ ∧ _))

/-- **Successions that share a predecessor.** In every honest run that keeps the order of crops and
moves, a successor that is complete has exactly its part of the source, unless a
succession from it has cropped its file in turn; where all successions are from one
range, there is none. -/
theorem shared_predecessor_exact (source : Bytes) (params : ChunkManagerParams) (files : Files)
    {w : World} (h : Reaches (step params) (UsedInOrder source) (World.init files []) w) :
    (∀ t ∈ w.tasks, t.job ≠ .download → (w.record t.stats).status = .completed →
      ¬ w.Moves t.range → w.ExactTask source params t) ∧
    ∀ a : ChunkRange, (∀ t ∈ w.tasks, ∀ r, w.predecessorRange t = some r → r = a) →
      ∀ t ∈ w.tasks, t.job ≠ .download → (w.record t.stats).status = .completed →
        w.ExactTask source params t := by
  have hshared : w.Shared source params := h.invariant (World.shared_init source params files)
    fun hshared hused hstep => hshared.step hused.1 hused.2 hstep
  have hexact : ∀ t ∈ w.tasks, t.job ≠ .download → (w.record t.stats).status = .completed →
      ¬ w.Moves t.range → w.ExactTask source params t := fun t ht hjob hstatus hunmoved => by
    obtain ⟨i, hi⟩ := List.mem_iff_getElem?.mp ht
    exact hshared.completed i t hi hjob hstatus hunmoved
  refine ⟨hexact, fun a hone t ht hjob hstatus => hexact t ht hjob hstatus ?_⟩
  -- `t` is a proper part of `a`, so nothing is a succession from it
  rintro ⟨t', ht', hrange, -⟩
  obtain ⟨i, hi⟩ := List.mem_iff_getElem?.mp ht
  cases hjob' : t.job with
  | download => exact hjob hjob'
  | succession p k =>
      have hlinked := hshared.succession i t p k hi hjob'
      have hp : (w.record p).range = a :=
        hone t ht _ (by rw [World.predecessorRange, hjob'])
      exact hlinked.proper ((hone t' ht' _ hrange).trans hp.symm)

/-- A chunk is split and downloaded again before its succession goes on, and split again meanwhile.
The second succession finds the file moved away. -/
def restartedRun : List Event :=
  [.startChunk ⟨0, some 3⟩ none, .task 0 .begins, .task 0 .opened, .task 0 (.piece [1, 2]),
    .resizeChunk ⟨0, some 3⟩ ⟨0, some 1⟩, .task 1 .begins, .task 0 (.cancelled none),
    .task 0 .closed, .wait false .firstCompleted, .resume 0 true, .startChunk ⟨0, some 3⟩ none,
    .task 2 .begins, .resizeChunk ⟨0, some 3⟩ ⟨1, some 1⟩, .task 2 .opened,
    .task 2 (.piece [1, 2]), .task 2 (.cancelled none), .task 2 .closed,
    .task 1 .predecessorEnded, .task 1 .cropped, .task 1 .moved, .task 3 .begins,
    .task 3 .predecessorEnded, .task 3 .cropped]

theorem shared_predecessor_exact_restarted :
    let params : ChunkManagerParams := ⟨"f", some 4, 1⟩
    let w := runTo (step params) (UsedInOrder [1, 2, 3, 4]) (World.init FileSystem.empty [])
      restartedRun
    w.stats.map (·.status) = [.deprecated, .completed, .deprecated, .error] ∧
      ∀ t ∈ w.tasks[1]?, w.ExactTask [1, 2, 3, 4] params t := by
  intro params w
  refine ⟨by decide, fun t ht => ?_⟩
  have hexact := (shared_predecessor_exact [1, 2, 3, 4] params FileSystem.empty
    (reaches_runTo _ _ _ restartedRun)).1
  have hcompleted : ∀ t ∈ w.tasks[1]?, t.job ≠ .download ∧
      (w.record t.stats).status = .completed ∧ ¬ w.Moves t.range := by decide
  obtain ⟨hjob, hstatus, hunmoved⟩ := hcompleted t ht
  exact hexact t (List.mem_of_getElem? ht) hjob hstatus hunmoved

/-- A complete chunk is split twice, and both crops happen before the first move. -/
def croppedTwiceRun : List Event :=
  [.startChunk ⟨0, some 3⟩ none, .task 0 .begins, .task 0 .opened, .task 0 (.piece [1, 2, 3, 4]),
    .task 0 .written, .task 0 .eof, .task 0 .closed, .resizeChunk ⟨0, some 3⟩ ⟨0, some 1⟩,
    .resizeChunk ⟨0, some 3⟩ ⟨1, some 1⟩, .task 1 .begins, .task 2 .begins,
    .task 1 .predecessorEnded, .task 2 .predecessorEnded, .task 1 .cropped, .task 2 .cropped,
    .task 1 .moved]

/-- The first successor is complete with the file that the second one cropped. -/
theorem shared_predecessor_spoiled :
    ¬ ∀ w, Reaches (step ⟨"f", some 4, 1⟩) (UsedHonestly [1, 2, 3, 4])
        (World.init FileSystem.empty []) w →
      ∀ a : ChunkRange, (∀ t ∈ w.tasks, ∀ r, w.predecessorRange t = some r → r = a) →
        ∀ t ∈ w.tasks, t.job ≠ .download → (w.record t.stats).status = .completed →
          w.ExactTask [1, 2, 3, 4] ⟨"f", some 4, 1⟩ t := by
  intro h
  have hreach := reaches_runTo (step ⟨"f", some 4, 1⟩) (UsedHonestly [1, 2, 3, 4])
    (World.init FileSystem.empty []) croppedTwiceRun
  obtain ⟨hread, -⟩ := h _ hreach ⟨0, some 3⟩ (by decide)
    { range := ⟨0, some 1⟩, stats := 1, job := .succession 0 (some 0),
      phase := .done .returned, initSignal := true } (by decide) (by decide) (by decide)
  exact absurd hread (by decide)

end SDownload
