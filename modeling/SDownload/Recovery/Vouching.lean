import SDownload.Lib.Run
import SDownload.Manager.Downloads
import SDownload.Recovery.RoundTrip

/-!
# SDownload.Recovery.Vouching

Which bytes `save_info` vouches for.

`save_info` looks at a chunk's file from outside: it is persisted when it is as long
as the chunk's counter says. What that says about the file is `DownloadState.Front`:
at every `await` of a download and however it ends, the file holds a front of what
the server sent, and the counter is the length of the whole, so a file of that
length holds all of it. It says nothing about what was sent. `Session` lets the
server answer each request as it likes, with the bytes asked for or with the file
from its first byte, and `recovery_vouches_iff` says when the records are right.
-/

namespace SDownload

/-! ### What a download leaves in its file -/

namespace DownloadState

/-- A server of which nothing is known but what it sends. -/
def sendingService (sent : Bytes → Prop) (hnil : sent []) : Service where
  sent := sent
  whole := sent
  fails := True
  sent_nil := hnil

/-- An operation that fails leaves a front of what it was given to write. -/
def LeavesFront (d : DownloadState) (e : TaskEvent) : Prop :=
  match d.task.phase, e with
  | .writing file _ chunk, .fails (some bytes) =>
      d.files.content file.ino <+: bytes ∧ bytes <+: d.files.content file.ino ++ chunk
  | .closing file _ _, .fails (some bytes) => bytes <+: d.files.content file.ino
  | _, _ => True

instance (d : DownloadState) (e : TaskEvent) : Decidable (d.LeavesFront e) := by
  delta LeavesFront
  generalize d.task.phase = phase
  induction e using TaskEvent.casesOn with
  | fails effect =>
      induction phase using Phase.casesOn <;> induction effect using Option.casesOn <;>
        infer_instance
  | _ => induction phase using Phase.casesOn <;> infer_instance

/-- The file holds a front of what was sent, and the counter is the length of the whole. -/
def Front (sent : Bytes → Prop) (d : DownloadState) : Prop :=
  d.stats.bytesDownloaded = 0 ∨
    ∃ delivered bytes : Bytes, d.stats.bytesDownloaded = delivered.length ∧ sent delivered ∧
      d.files.read d.stats.chunkFileName = some bytes ∧ bytes <+: delivered

/-- What the invariant of a download (`DownloadState.Ok`) leaves open where operations fail. -/
def LeftOk (sent : Bytes → Prop) (d : DownloadState) : Prop :=
  match d.task.phase with
  | .closing file delivered _ => d.files.content file.ino <+: delivered
  | .done _ => d.Front sent
  | _ => True

variable {sent : Bytes → Prop} {hnil : sent []} {d d' : DownloadState}

theorem Front.congr (h : d.Front sent)
    (hcount : d'.stats.bytesDownloaded = d.stats.bytesDownloaded)
    (hread : d'.files.read d'.stats.chunkFileName = d.files.read d.stats.chunkFileName) :
    d'.Front sent := by
  unfold Front
  rw [hcount, hread]
  exact h

theorem Front.finish (h : d.Front sent) (e : TaskEnd) : (d.finish e).LeftOk sent := by
  obtain ⟨r, hr⟩ := d.finish_task e
  have hphase : (d.finish e).task.phase = .done r := by rw [hr]
  unfold LeftOk
  rw [hphase]
  refine h.congr (d.finish_bytesDownloaded e) ?_
  rw [finish_files, (d.finish_stats e).chunkFileName]

/-- Nothing was counted yet. -/
theorem front_of_zero (h : d.stats.bytesDownloaded = 0) : d.Front sent := Or.inl h

/-- Closing leaves the file as it is. -/
theorem front_of_closing {file : Handle} {delivered : Bytes} {left : TaskEnd}
    (h : d.PhaseOk (sendingService sent hnil) (.closing file delivered left))
    (hfront : d.files.content file.ino <+: delivered) : d.Front sent := by
  obtain ⟨hlookup, hbytes, hsent, -⟩ := h
  exact Or.inr ⟨delivered, _, hbytes, hsent, FileSystem.read_of_lookup hlookup, hfront⟩

/-- At every `await`, and at the end, the file holds a front of what was sent. -/
theorem Ok.front (h : d.Ok (sendingService sent hnil)) (hleft : d.LeftOk sent) : d.Front sent := by
  have hok := h.phase
  unfold LeftOk at hleft
  cases hphase : d.task.phase with
  | created | opening =>
      rw [hphase] at hok
      exact front_of_zero hok
  | receiving file delivered =>
      rw [hphase] at hok
      obtain ⟨hholds, -, hbytes, hsent⟩ := hok
      exact Or.inr ⟨delivered, delivered, hbytes, hsent, hholds.read, List.prefix_rfl⟩
  | writing file delivered chunk =>
      rw [hphase] at hok
      obtain ⟨before, rfl, hholds, -, hbytes, hsent⟩ := hok
      exact Or.inr ⟨_, before, hbytes, hsent, hholds.read, List.prefix_append _ _⟩
  | closing file delivered left =>
      rw [hphase] at hok hleft
      exact front_of_closing hok hleft
  | done r =>
      rw [hphase] at hleft
      exact hleft
  | _ =>
      rw [hphase] at hok
      exact hok.elim

/-- A turn that no cancellation waits for. -/
theorem LeftOk.run {e : TaskEvent} {cb : Option StopCallback} (h : d.LeftOk sent)
    (hd : d.Ok (sendingService sent hnil)) (hfront : d.LeavesFront e)
    (hrun : d.run e = some (d', cb)) : d'.LeftOk sent := by
  have hok := hd.phase
  unfold LeavesFront at hfront
  unfold LeftOk at h
  unfold DownloadState.run at hrun
  split at hrun <;> first | cases hrun; done | rename_i hphase
  all_goals
    rw [hphase] at hok h
    obtain ⟨rfl, -⟩ := Prod.mk.inj (Option.some.inj hrun)
  · trivial
  · trivial
  · -- opening failed, and nothing was counted
    refine (front_of_zero ?_).finish _
    split <;> exact hok
  · trivial
  · obtain ⟨hholds, -⟩ := hok
    exact hholds.content ▸ List.prefix_rfl
  · obtain ⟨hholds, -⟩ := hok
    exact hholds.content ▸ List.prefix_rfl
  · trivial
  · rename_i file delivered chunk effect
    obtain ⟨before, rfl, hholds, -⟩ := hok
    simp only [hphase] at hfront
    cases effect with
    | none =>
        show d.files.content file.ino <+: before ++ chunk
        rw [hholds.content]
        exact List.prefix_append _ _
    | some bytes =>
        show (d.files.overwrite file.ino bytes).content file.ino <+: before ++ chunk
        rw [FileSystem.content_overwrite_self _ (FileSystem.lookup_lt hholds.lookup),
          ← hholds.content]
        exact hfront.2
  · exact (front_of_closing hok h).finish _
  · rename_i file delivered left effect
    simp only [hphase] at hfront
    obtain ⟨hlookup, hbytes, hsent, -⟩ := hok
    refine Front.finish ?_ _
    cases effect with
    | none =>
        exact Or.inr ⟨delivered, _, hbytes, hsent, FileSystem.read_of_lookup hlookup, h⟩
    | some bytes =>
        refine Or.inr ⟨delivered, bytes, hbytes, hsent, ?_, hfront.trans h⟩
        exact FileSystem.read_overwrite_self _ hlookup

/-- The turn in which a cancellation arrives. -/
theorem LeftOk.cancel {effect : Option Bytes} (h : d.LeftOk sent)
    (hd : d.Ok (sendingService sent hnil)) (hcancel : d.cancel effect = some d') :
    d'.LeftOk sent := by
  have hok := hd.phase
  unfold LeftOk at h
  unfold DownloadState.cancel at hcancel
  dsimp only at hcancel
  split at hcancel <;> first | cases hcancel; done | rename_i hphase
  all_goals
    rw [hphase] at hok h
    obtain rfl := Option.some.inj hcancel
  · exact front_of_zero hok
  · refine (front_of_zero ?_).finish _
    split <;> exact hok
  · obtain ⟨hholds, -⟩ := hok
    exact hholds.content ▸ List.prefix_rfl
  · -- the shielded write is done before the file is closed
    rename_i file delivered chunk
    obtain ⟨before, rfl, hholds, hpos, -⟩ := hok
    exact (hholds.write hpos chunk).1.content ▸ List.prefix_rfl
  · exact h

theorem LeftOk.step {e : TaskEvent} {cb : Option StopCallback} (h : d.LeftOk sent)
    (hd : d.Ok (sendingService sent hnil)) (hfront : d.LeavesFront e)
    (hstep : d.step e = some (d', cb)) : d'.LeftOk sent := by
  unfold DownloadState.step at hstep
  split at hstep
  · obtain ⟨d'', hcancel, heq⟩ := Option.map_eq_some_iff.mp hstep
    obtain ⟨rfl, -⟩ := Prod.mk.inj heq
    exact h.cancel hd hcancel
  · cases hstep
  · exact h.run hd hfront hstep

end DownloadState

/-! ### Chunks and the server -/

/-- A chunk that is being downloaded; `honoursRange` says how the server answers its request. -/
structure Fetch where
  task : Task
  stats : Stats
  honoursRange : Bool
  deriving DecidableEq

namespace Fetch

/-- `download_chunk` sends a `Range` header. -/
def sendsRange (f : Fetch) : Bool :=
  match f.stats.range.endByte with
  | none => true
  | some e => 0 ≤ f.stats.range.start && f.stats.range.start ≤ e

/-- The first byte of the body. -/
def sentFrom (f : Fetch) : Int :=
  if f.honoursRange && f.sendsRange then f.stats.range.start else 0

/-- The server has sent these bytes, of the source from the first byte of the body on, perhaps more
or fewer than were asked for. A negative start is refused before the request. -/
def Sent (source : Bytes) (f : Fetch) (delivered : Bytes) : Prop :=
  delivered ≠ [] → 0 ≤ f.stats.range.start ∧ delivered <+: source.drop f.sentFrom.toNat

instance (source : Bytes) (f : Fetch) (delivered : Bytes) : Decidable (f.Sent source delivered) :=
  inferInstanceAs (Decidable (_ → _ ∧ _))

theorem sent_nil (source : Bytes) (f : Fetch) : f.Sent source [] := fun h => absurd rfl h

/-- The coroutine of the chunk, over the disk. -/
def download (f : Fetch) (files : Files) : DownloadState := ⟨f.task, f.stats, files⟩

end Fetch

/-- Chunks that are downloaded side by side into one directory. -/
structure Session where
  files : Files
  fetches : List Fetch

/-- A chunk's task has a turn, is cancelled, or gets a limit observer on its record. -/
inductive SessionEvent
  | turn (i : Nat) (e : TaskEvent)
  | cancel (i : Nat)
  | limit (i : Nat) (qtBytes : Int)
  deriving Repr, DecidableEq

namespace Session

/-- One step. A callback only cancels a task, which is an event of its own. -/
def step (s : Session) : SessionEvent → Option (Session × List Empty)
  | .turn i e =>
      match s.fetches[i]? with
      | none => none
      | some f =>
          match (f.download s.files).step e with
          | none => none
          | some (d, _) =>
              some (⟨d.files, s.fetches.set i { f with task := d.task, stats := d.stats }⟩, [])
  | .cancel i =>
      s.fetches[i]?.map fun f =>
        ({ s with fetches := s.fetches.set i { f with task := World.requestCancel f.task } }, [])
  | .limit i qtBytes =>
      s.fetches[i]?.map fun f =>
        ({ s with
          fetches := s.fetches.set i
            { f with stats := (f.stats.addLimitObserver qtBytes ⟨i, some i⟩).1 } }, [])

/-- The server sends bytes of the source, and operations that fail leave fronts. -/
def Allowed (source : Bytes) (s : Session) : SessionEvent → Prop
  | .turn i e => ∀ f ∈ s.fetches[i]?,
      (f.download s.files).Allowed
          (DownloadState.sendingService (f.Sent source) (f.sent_nil source)) e ∧
        (f.download s.files).LeavesFront e
  | _ => True

instance (source : Bytes) (f : Fetch) (d : DownloadState) (e : TaskEvent) :
    Decidable (d.Allowed (DownloadState.sendingService (f.Sent source) (f.sent_nil source)) e) := by
  delta DownloadState.Allowed DownloadState.sendingService
  generalize d.task.phase = phase
  induction phase using Phase.casesOn <;> induction e using TaskEvent.casesOn <;> infer_instance

instance (source : Bytes) (s : Session) (e : SessionEvent) : Decidable (s.Allowed source e) := by
  delta Allowed
  induction e using SessionEvent.casesOn <;> infer_instance

/-- Before the first turn. Every chunk has a file of its own. -/
structure Fresh (s : Session) : Prop where
  names : (s.fetches.map fun f => f.stats.chunkFileName).Nodup
  created : ∀ f ∈ s.fetches, f.task.phase = .created
  pending : ∀ f ∈ s.fetches, f.stats.status = .pending
  empty : ∀ f ∈ s.fetches, f.stats.bytesDownloaded = 0

/-- The invariant of a chunk. -/
structure FetchOk (source : Bytes) (files : Files) (f : Fetch) : Prop where
  ok : (f.download files).Ok (DownloadState.sendingService (f.Sent source) (f.sent_nil source))
  left : (f.download files).LeftOk (f.Sent source)

/-- The invariant of a session. -/
structure Ok (source : Bytes) (s : Session) : Prop where
  names : (s.fetches.map fun f => f.stats.chunkFileName).Nodup
  fetch : ∀ f ∈ s.fetches, FetchOk source s.files f

variable {source : Bytes} {s s' : Session}

theorem Fresh.ok (h : s.Fresh) : s.Ok source := by
  refine ⟨h.names, fun f hf => ⟨⟨fun _ => Or.inl (h.pending f hf), ?_⟩, ?_⟩⟩
  · show DownloadState.PhaseOk _ _ f.task.phase
    rw [h.created f hf]
    exact h.empty f hf
  · unfold DownloadState.LeftOk
    show match f.task.phase with | .closing _ _ _ => _ | .done _ => _ | _ => True
    rw [h.created f hf]
    trivial

/-- The same chunk and server, further on. -/
structure SameFetch (f f' : Fetch) : Prop where
  honoursRange : f'.honoursRange = f.honoursRange
  stats : SameRecord f.stats f'.stats

theorem SameFetch.sent (h : SameFetch f f') : f'.Sent source = f.Sent source := by
  have hfrom : f'.sentFrom = f.sentFrom := by
    unfold Fetch.sentFrom Fetch.sendsRange
    rw [h.honoursRange, h.stats.range]
  funext delivered
  simp only [Fetch.Sent, hfrom, h.stats.range]

/-- Neither another chunk's turn nor a request to stop matters to a chunk. -/
theorem FetchOk.congr {files files' : Files} {f f' : Fetch} (h : FetchOk source files f)
    (hfetch : SameFetch f f') (hphase : f'.task.phase = f.task.phase)
    (hstatus : f'.stats.status = f.stats.status)
    (hcount : f'.stats.bytesDownloaded = f.stats.bytesDownloaded)
    (hfile : SameFile files files' f.stats.chunkFileName) : FetchOk source files' f' := by
  have hsent : f'.Sent source = f.Sent source := hfetch.sent
  have hservice : DownloadState.sendingService (f'.Sent source) (f'.sent_nil source) =
      DownloadState.sendingService (f.Sent source) (f.sent_nil source) := by
    simp only [DownloadState.sendingService, hsent]
  have hsame : (f.download files).SameSaved (f'.download files') :=
    ⟨hfetch.stats.chunkFileName, hfetch.stats.fileSize, hcount, hfile⟩
  have hok := h.ok.congr hsame hphase hstatus
  refine ⟨?_, ?_⟩
  · rw [hservice]
    exact hok
  · rw [hsent]
    have hleft := h.left
    have hphaseOk := h.ok.phase
    unfold DownloadState.LeftOk at hleft ⊢
    have hphase' : (f'.download files').task.phase = (f.download files).task.phase := hphase
    rw [hphase']
    cases hp : (f.download files).task.phase with
    | closing file delivered left =>
        rw [hp] at hleft hphaseOk
        show files'.content file.ino <+: delivered
        rw [hfile.content _ hphaseOk.1]
        exact hleft
    | done r =>
        rw [hp] at hleft
        refine hleft.congr hcount ?_
        show files'.read f'.stats.chunkFileName = files.read f.stats.chunkFileName
        rw [hfetch.stats.chunkFileName, hfile.read]
    | _ => trivial

/-- A chunk is replaced by itself, further on, and no file but its own has changed. -/
theorem Ok.put {files' : Files} {i : Nat} {f f' : Fetch} (h : s.Ok source)
    (hf : s.fetches[i]? = some f) (hsame : SameFetch f f')
    (hothers : ∀ name, name ≠ f.stats.chunkFileName → SameFile s.files files' name)
    (hok : FetchOk source files' f') : Session.Ok source ⟨files', s.fetches.set i f'⟩ := by
  have hlt : i < s.fetches.length := (List.getElem?_eq_some_iff.mp hf).1
  have hnames : (s.fetches.set i f').map (fun f => f.stats.chunkFileName) =
      s.fetches.map fun f => f.stats.chunkFileName := by
    refine List.ext_getElem? fun j => ?_
    rw [List.map_set, List.getElem?_set]
    split
    · rename_i hij
      subst hij
      rw [if_pos (by simpa using hlt), List.getElem?_map, hf, Option.map_some,
        hsame.stats.chunkFileName]
    · rfl
  refine ⟨hnames ▸ h.names, fun g hg => ?_⟩
  obtain ⟨j, hj⟩ := List.mem_iff_getElem?.mp hg
  by_cases hij : i = j
  · subst hij
    rw [List.getElem?_set_self hlt] at hj
    exact Option.some.inj hj ▸ hok
  · rw [List.getElem?_set_ne hij] at hj
    have hne : g.stats.chunkFileName ≠ f.stats.chunkFileName := by
      intro heq
      have hindex := List.nodup_iff_getElem?_ne_getElem?.mp h.names
      have hmap : ∀ {k : Nat} {f : Fetch}, s.fetches[k]? = some f →
          (s.fetches.map fun f => f.stats.chunkFileName)[k]? = some f.stats.chunkFileName :=
        fun hk => by rw [List.getElem?_map, hk, Option.map_some]
      have hltj : j < s.fetches.length := (List.getElem?_eq_some_iff.mp hj).1
      rcases Nat.lt_or_gt_of_ne hij with hlt' | hlt'
      · exact hindex i j hlt' (by simpa using hltj) (by rw [hmap hf, hmap hj, heq])
      · exact hindex j i hlt' (by simpa using hlt) (by rw [hmap hf, hmap hj, heq])
    exact (h.fetch g (List.mem_iff_getElem?.mpr ⟨j, hj⟩)).congr
      ⟨rfl, .refl _⟩ rfl rfl rfl (hothers _ hne)

/-- **A step of a session** keeps the invariant. -/
theorem Ok.step {e : SessionEvent} {out : List Empty} (h : s.Ok source)
    (hallowed : s.Allowed source e) (hstep : s.step e = some (s', out)) : s'.Ok source := by
  cases e with
  | turn i e =>
      simp only [Session.step] at hstep
      split at hstep
      · cases hstep
      · rename_i f hf
        split at hstep
        · cases hstep
        · rename_i d cb hturn
          obtain ⟨rfl, -⟩ := Prod.mk.inj (Option.some.inj hstep)
          obtain ⟨hserver, hfront⟩ := hallowed f hf
          have hfetch := h.fetch f (List.mem_iff_getElem?.mpr ⟨i, hf⟩)
          obtain ⟨hd, hothers⟩ := hfetch.ok.step hserver hturn
          have hsame : SameFetch f { f with task := d.task, stats := d.stats } :=
            ⟨rfl, (DownloadState.step_later hturn).stats⟩
          have hsent : Fetch.Sent source { f with task := d.task, stats := d.stats } =
              f.Sent source := hsame.sent
          refine h.put hf hsame hothers ⟨?_, ?_⟩
          · have hservice : DownloadState.sendingService
                (Fetch.Sent source { f with task := d.task, stats := d.stats })
                (Fetch.sent_nil source _) =
                DownloadState.sendingService (f.Sent source) (f.sent_nil source) := by
              simp only [DownloadState.sendingService, hsent]
            rw [hservice]
            exact hd
          · rw [hsent]
            exact hfetch.left.step hfetch.ok hfront hturn
  | cancel i =>
      obtain ⟨f, hf, heq⟩ := Option.map_eq_some_iff.mp hstep
      obtain ⟨rfl, -⟩ := Prod.mk.inj heq
      have hphase : (World.requestCancel f.task).phase = f.task.phase := by
        obtain ⟨c, hc⟩ := World.requestCancel_asked f.task
        rw [hc]
      have hsame : SameFetch f { f with task := World.requestCancel f.task } := ⟨rfl, .refl _⟩
      exact h.put hf hsame (fun _ _ => .refl _ _)
        ((h.fetch f (List.mem_iff_getElem?.mpr ⟨i, hf⟩)).congr hsame hphase rfl rfl (.refl _ _))
  | limit i qtBytes =>
      obtain ⟨f, hf, heq⟩ := Option.map_eq_some_iff.mp hstep
      obtain ⟨rfl, -⟩ := Prod.mk.inj heq
      have hkeep : (f.stats.addLimitObserver qtBytes ⟨i, some i⟩).1.status = f.stats.status ∧
          (f.stats.addLimitObserver qtBytes ⟨i, some i⟩).1.bytesDownloaded =
            f.stats.bytesDownloaded := by
        unfold ChunkDownloadStats.addLimitObserver
        split <;> exact ⟨rfl, rfl⟩
      have hsame : SameFetch f
          { f with stats := (f.stats.addLimitObserver qtBytes ⟨i, some i⟩).1 } :=
        ⟨rfl, SameRecord.addLimitObserver _ _ _⟩
      exact h.put hf hsame (fun _ _ => .refl _ _)
        ((h.fetch f (List.mem_iff_getElem?.mpr ⟨i, hf⟩)).congr hsame rfl hkeep.1 hkeep.2
          (.refl _ _))

/-- Every state of a session keeps it. -/
theorem Ok.of_reaches (h : s.Ok source)
    (hreach : Reaches Session.step (Session.Allowed source) s s') : s'.Ok source :=
  hreach.invariant h fun hs hallowed hstep => hs.step hallowed hstep

/-! ### What is persisted -/

/-- A chunk that is persisted has in its file all that was sent for it. -/
theorem FetchOk.read_of_persists {files : Files} {f : Fetch} (h : FetchOk source files f)
    {minChunkSize : Int} (hpersists : Persists files minChunkSize f.stats) :
    0 ≤ f.stats.range.start ∧ ∃ bytes, files.read f.stats.chunkFileName = some bytes ∧
      f.stats.bytesDownloaded = bytes.length ∧ bytes <+: source.drop f.sentFrom.toNat := by
  obtain ⟨hsize, hpos, -⟩ := hpersists
  rcases h.ok.front h.left with hzero | ⟨delivered, bytes, hcount, hsent, hread, hfront⟩
  · have hzero' : f.stats.bytesDownloaded = 0 := hzero
    omega
  · have hcount' : f.stats.bytesDownloaded = delivered.length := hcount
    have hread' : files.read f.stats.chunkFileName = some bytes := hread
    rw [sizeOnDisk, hread', Option.getD_some] at hsize
    -- a front as long as the whole
    obtain rfl : bytes = delivered := hfront.eq_of_length (by omega)
    have hne : bytes ≠ [] := by
      intro hnil
      rw [hnil, List.length_nil] at hcount'
      omega
    exact ⟨(hsent hne).1, bytes, hread', hcount', (hsent hne).2⟩

/-- The records that `save_info` persists of these chunks are right, on this disk: a record is of a
chunk, its range is in the range of the chunk, and the file holds the bytes of the range. -/
def Vouches (source : Bytes) (s : Session) (minChunkSize : Int) (disk : Files) : Prop :=
  ∀ c ∈ dtoChunks s.files minChunkSize (s.fetches.map Fetch.stats),
    ∃ f ∈ s.fetches, f.stats.chunkFileName = c.chunkFileName ∧
      f.stats.range.contains ⟨c.start, some c.endByte⟩ = true ∧
      disk.read c.chunkFileName =
        some (ChunkRange.bytesOf ⟨c.start, some c.endByte⟩ source)

end Session

/-- What was counted for the chunk is not more than its range, and comes from where the chunk starts
or happens to be what is there. -/
def Fetch.Faithful (source : Bytes) (f : Fetch) : Prop :=
  (f.sentFrom = f.stats.range.start ∨
    source.take f.stats.bytesDownloaded.toNat =
      (source.drop f.stats.range.start.toNat).take f.stats.bytesDownloaded.toNat) ∧
  ∀ e ∈ f.stats.range.endByte, f.stats.range.start + f.stats.bytesDownloaded ≤ e + 1

/-- A range that starts where another does is in it when it ends no later. -/
theorem ChunkRange.contains_front_iff (r : ChunkRange) {e : Int} (he : r.start ≤ e) :
    r.contains ⟨r.start, some e⟩ = true ↔ ∀ e' ∈ r.endByte, e ≤ e' := by
  obtain ⟨start, endByte⟩ := r
  have hstart : ¬ start < start := lt_irrefl start
  have hend : ¬ e < start := not_lt.mpr he
  cases endByte with
  | none => simp [contains, hend]
  | some e' => simp [contains, hend]

namespace Session

variable {source : Bytes} {s s' : Session}

/-- One chunk: its record is right exactly when it was served faithfully. -/
theorem FetchOk.vouched_iff {files : Files} {f : Fetch} (h : FetchOk source files f)
    {minChunkSize : Int} (hpersists : Persists files minChunkSize f.stats) :
    (f.stats.range.contains ⟨f.stats.range.start,
        some (f.stats.range.start + f.stats.bytesDownloaded - 1)⟩ = true ∧
      files.read f.stats.chunkFileName = some (ChunkRange.bytesOf ⟨f.stats.range.start,
        some (f.stats.range.start + f.stats.bytesDownloaded - 1)⟩ source)) ↔
    f.Faithful source := by
  obtain ⟨-, bytes, hread, hcount, hprefix⟩ := h.read_of_persists hpersists
  have hpos := hpersists.2.1
  have hbytes : bytes = (source.drop f.sentFrom.toNat).take f.stats.bytesDownloaded.toNat := by
    rw [hcount, Int.toNat_natCast]
    exact List.prefix_iff_eq_take.mp hprefix
  have hrange : ChunkRange.bytesOf ⟨f.stats.range.start,
      some (f.stats.range.start + f.stats.bytesDownloaded - 1)⟩ source =
      (source.drop f.stats.range.start.toNat).take f.stats.bytesDownloaded.toNat := by
    simp only [ChunkRange.bytesOf, ChunkRange.stop_some]
    congr 2
    omega
  rw [ChunkRange.contains_front_iff _ (by omega), hread, hrange, hbytes, Option.some_inj,
    Fetch.Faithful, and_comm]
  refine and_congr ?_ ?_
  · by_cases hfrom : f.sentFrom = f.stats.range.start
    · rw [hfrom]
      exact iff_of_true rfl (Or.inl rfl)
    · have hzero : f.sentFrom = 0 := by
        unfold Fetch.sentFrom at hfrom ⊢
        split
        · rename_i hsent
          exact absurd (if_pos hsent) hfrom
        · rfl
      rw [hzero, Int.toNat_zero, List.drop_zero]
      exact ⟨Or.inr, fun hor => hor.resolve_left (hzero ▸ hfrom)⟩
  · refine forall₂_congr fun e _ => ?_
    omega

end Session

/-- **What recovery vouches for.** However the chunks were served, cancelled or failed, the records
that `save_info` persists are right exactly when every chunk that it persists was served
faithfully. -/
theorem recovery_vouches_iff {τ : Type} {source : Bytes} {start s : Session} (hfresh : start.Fresh)
    (hreach : Reaches Session.step (Session.Allowed source) start s) (codec : JsonCodec τ)
    (fileId : String) (totalFileSize minChunkSize : Int) (deleteUselessChunks : Bool) (now : τ)
    (deletes : String → Bool)
    (hkey : ∀ f ∈ s.fetches, f.stats.chunkFileName ≠ recoveryKey fileId) :
    s.Vouches source minChunkSize (saveInfo codec s.files fileId totalFileSize
        (s.fetches.map Fetch.stats) minChunkSize deleteUselessChunks now deletes) ↔
      ∀ f ∈ s.fetches, Persists s.files minChunkSize f.stats → f.Faithful source := by
  have hok := hfresh.ok.of_reaches hreach
  have hnames : ((s.fetches.map Fetch.stats).map (·.chunkFileName)).Nodup := by
    rw [List.map_map]
    exact hok.names
  -- the file of a chunk that is persisted is not touched
  have hread : ∀ f ∈ s.fetches, Persists s.files minChunkSize f.stats →
      (saveInfo codec s.files fileId totalFileSize (s.fetches.map Fetch.stats) minChunkSize
        deleteUselessChunks now deletes).read f.stats.chunkFileName =
          s.files.read f.stats.chunkFileName := by
    intro f hf hpersists
    by_cases hid : fileId = ""
    · rw [saveInfo, if_pos hid]
    · rw [read_saveInfo codec s.files hid _ _ _ _ _ _
        (not_mem_chunksToDelete hnames (List.mem_map_of_mem hf) hpersists), if_neg (hkey f hf)]
  constructor
  · intro hvouches f hf hpersists
    have hmem : RecoveryRun.dtoOf f.stats ∈
        dtoChunks s.files minChunkSize (s.fetches.map Fetch.stats) := by
      rw [dtoChunks_eq]
      exact List.mem_map_of_mem (List.mem_filter.mpr
        ⟨List.mem_map_of_mem hf, decide_eq_true hpersists⟩)
    obtain ⟨g, hg, hname, hcontains, hbytes⟩ := hvouches _ hmem
    obtain rfl : g = f := List.inj_on_of_nodup_map hok.names hg hf hname
    exact ((hok.fetch g hg).vouched_iff hpersists).mp
      ⟨hcontains, (hread g hg hpersists).symm.trans hbytes⟩
  · intro hfaithful c hc
    rw [dtoChunks_eq] at hc
    obtain ⟨stats, hstats, rfl⟩ := List.mem_map.mp hc
    obtain ⟨hstats, hpersists⟩ := List.mem_filter.mp hstats
    obtain ⟨f, hf, rfl⟩ := List.mem_map.mp hstats
    have hpersists := of_decide_eq_true hpersists
    obtain ⟨hcontains, hbytes⟩ :=
      ((hok.fetch f hf).vouched_iff hpersists).mpr (hfaithful f hf hpersists)
    exact ⟨f, hf, rfl, hcontains, (hread f hf hpersists).trans hbytes⟩

/-! ### A server without ranges -/

/-- The second byte of a file of two, asked of a server that may not know ranges. -/
def secondByte (honoursRange : Bool) : Session where
  files := FileSystem.empty
  fetches := [
    { task := { range := ⟨1, some 1⟩, stats := 0, job := .download }
      stats := { chunkFileName := "b", range := ⟨1, some 1⟩, fileSize := some 1 }
      honoursRange }]

theorem secondByte_fresh (honoursRange : Bool) : (secondByte honoursRange).Fresh where
  names := List.nodup_singleton _
  created := by simp [secondByte]
  pending := by simp [secondByte]
  empty := by simp [secondByte]

/-- The events of a body that comes in one piece. -/
def inOnePiece (body : Bytes) : List SessionEvent :=
  [.turn 0 .begins, .turn 0 .opened, .turn 0 (.piece body), .turn 0 .written, .turn 0 .eof,
    .turn 0 .closed]

def secondByteServed (honoursRange : Bool) (body : Bytes) : Session :=
  runTo Session.step (Session.Allowed [1, 2]) (secondByte honoursRange) (inOnePiece body)

theorem secondByteServed_reached (honoursRange : Bool) (body : Bytes) :
    Reaches Session.step (Session.Allowed [1, 2]) (secondByte honoursRange)
      (secondByteServed honoursRange body) :=
  reaches_runTo _ _ _ _

/-- What is saved of the second byte, and its JSON. -/
def secondByteState : RecoveryStateDTO String where
  fileId := "x"
  fileSize := 2
  chunks := [⟨"b", 1, 1, 1⟩]
  updatedAt := "2025-01-01T00:00:00+00:00"

def secondByteText : String :=
  "\x7b\n    \"file_id\": \"x\",\n    \"file_size\": 2,\n    \"chunks\": [\n        \x7b\n" ++
  "            \"chunk_file_name\": \"b\",\n            \"start\": 1,\n            \"end\": 1,\n" ++
  "            \"bytes\": 1\n        \x7d\n    ],\n" ++
  "    \"updated_at\": \"2025-01-01T00:00:00+00:00\"\n\x7d"

@[irreducible] def secondByteJson : Bytes :=
  secondByteText.toList.map fun c => UInt8.ofNat c.toNat

def secondByteCodec : JsonCodec String where
  dumps state := if state = secondByteState then secondByteJson else []
  loads bytes := if bytes = secondByteJson then some secondByteState else none

/-- A server that honours ranges sends the second byte. -/
theorem recovery_vouches_iff_second :
    (secondByteServed true [2]).Vouches [1, 2] 1 (saveInfo secondByteCodec
      (secondByteServed true [2]).files "x" 2 ((secondByteServed true [2]).fetches.map Fetch.stats)
      1 true "2025-01-01T00:00:00+00:00" fun _ => true) :=
  (recovery_vouches_iff (secondByte_fresh true) (secondByteServed_reached true [2]) secondByteCodec
    "x" 2 1 true "2025-01-01T00:00:00+00:00" (fun _ => true) (by decide)).mpr (by
      intro f hf _
      have hfrom : ∀ f ∈ (secondByteServed true [2]).fetches, f.sentFrom = f.stats.range.start ∧
          ∀ e ∈ f.stats.range.endByte, f.stats.range.start + f.stats.bytesDownloaded ≤ e + 1 := by
        decide
      exact ⟨Or.inl (hfrom f hf).1, (hfrom f hf).2⟩)

/-- A server that does not know ranges sends both bytes. The chunk ends with an error, and its file
is persisted as the second byte and one more. -/
theorem rangeless_body_vouched :
    (secondByte false).Fresh ∧
      Reaches Session.step (Session.Allowed [1, 2]) (secondByte false)
        (secondByteServed false [1, 2]) ∧
      (∀ f ∈ (secondByteServed false [1, 2]).fetches, f.task.Done ∧ f.stats.status = .error) ∧
      ∀ (codec : JsonCodec String) (now : String),
        ¬ (secondByteServed false [1, 2]).Vouches [1, 2] 1
          (saveInfo codec (secondByteServed false [1, 2]).files "x" 2
            ((secondByteServed false [1, 2]).fetches.map Fetch.stats) 1 true now
            fun _ => true) := by
  refine ⟨secondByte_fresh false, secondByteServed_reached false [1, 2], by decide, ?_⟩
  intro codec now hvouches
  have hmem : (⟨"b", 1, 2, 2⟩ : RecoveryChunkDTO) ∈
      dtoChunks (secondByteServed false [1, 2]).files 1
        ((secondByteServed false [1, 2]).fetches.map Fetch.stats) := by
    decide
  obtain ⟨f, hf, -, hcontains, -⟩ := hvouches _ hmem
  have hplanned : ∀ f ∈ (secondByteServed false [1, 2]).fetches,
      ¬ f.stats.range.contains ⟨1, some 2⟩ = true := by
    decide
  exact hplanned f hf hcontains

end SDownload
