import SDownload.Lib.Interleaving
import SDownload.Manager.Neighbours
import SDownload.Recovery.Lives

/-!
# SDownload.Recovery.Directory

The whole system: any number of downloads in one directory, through any number of
lives of the program.

The managers of a life take turns on the files they share (`Together`), each with
its own records, tasks and suspended calls. What a manager needs of the others is
that they leave its files alone, and what it guarantees is that it touches no others'
(`Confined`). With the names of the downloads apart, every manager lives on as if it
were alone, and `directory_exact` is what that is worth: in any life, whatever came
before and whoever runs beside, what a download has completed is its own source.
-/

namespace SDownload

open FileSystem (Within Held)

/-- The other managers have moved. -/
def World.withFiles (files : Files) (w : World) : World := { w with files }

theorem World.filesLens : Together.Lens World.files World.withFiles :=
  ⟨fun _ => rfl, fun _ _ => rfl, fun _ _ _ => rfl⟩

variable {ι : Type}

/-- The managers of a directory. -/
abbrev Managers (ι : Type) := Together ι World Files

namespace Managers

/-- A manager of the directory, as it would be alone. -/
abbrev alone (s : Managers ι) (i : ι) : World := s.view World.withFiles i

/-- A step of one of the managers. -/
abbrev step [DecidableEq ι] (params : ι → ChunkManagerParams) (s : Managers ι) (e : ι × Event) :
    Option (Managers ι × List (ι × Returned)) :=
  Together.step World.files World.withFiles (fun i => SDownload.step (params i)) s e

/-- The steps of a life, of every manager. -/
abbrev Lived (source : ι → Bytes) (params : ι → ChunkManagerParams) (s : Managers ι)
    (e : ι × Event) : Prop :=
  s.guard World.withFiles (fun i => SDownload.Lived (source i) (params i)) e

/-- A life begins. -/
def init (files : Files) (recovered : ι → List Stats) : Managers ι where
  shared := files
  part i := World.init files (recovered i)

end Managers

/-- The files and the records that a life of the program can begin with: anything and none, or what
is left of an earlier life of all its managers. -/
inductive Lives [DecidableEq ι] (source : ι → Bytes) (params : ι → ChunkManagerParams) :
    Files → (ι → List Stats) → Prop
  | first (files : Files) : Lives source params files fun _ => []
  | next {files disk : Files} {recovered recovered' : ι → List Stats} {s : Managers ι}
      (before : Lives source params files recovered)
      (run : Reaches (Managers.step params) (Managers.Lived source params)
        (Managers.init files recovered) s)
      (reloaded : ∀ i, Reloaded (s.alone i) disk (recovered' i)) :
      Lives source params disk recovered'

/-- Downloads whose files cannot be mistaken for each other's, or for each other's chunks. -/
def NamesApart (params : ι → ChunkManagerParams) : Prop :=
  ∀ i j, i ≠ j → (params i).fileName ≠ (params j).fileName ∧
    ∀ r, (params i).fileName ≠ formatChunkFileName r (params j).fileName

/-! ### Names -/

theorem NamesApart.ownName {params : ι → ChunkManagerParams} (h : NamesApart params) {i j : ι}
    (hne : i ≠ j)
    {name : String} (hi : OwnName (params i) name) : ¬ OwnName (params j) name := by
  intro hj
  rcases hi with rfl | ⟨r, rfl⟩
  · rcases hj with hj | ⟨r', hj⟩
    · exact (h i j hne).1 hj
    · exact (h i j hne).2 r' hj
  · rcases hj with hj | ⟨r', hj⟩
    · exact (h j i hne.symm).2 r hj.symm
    · exact (h i j hne).1 (formatChunkFileName_inj hj).2

/-! ### What a manager needs of the others -/

namespace World

variable {source : Bytes} {params : ChunkManagerParams} {recovered : List Stats} {w : World}
  {files : Files}

theorem Named.ownName (h : w.Named params recovered) {r : ChunkRange} {s : StatsId}
    (hs : w.chunksStats.get? r = some s) : OwnName params (w.record s).chunkFileName := by
  obtain ⟨r', hname⟩ := h.exists_range hs
  exact Or.inr ⟨r', hname⟩

/-- A life goes on where its own files are left alone. -/
theorem Living.withFiles (h : w.Living source params recovered)
    (hsame : ∀ name, OwnName params name → SameFile w.files files name) :
    (w.withFiles files).Living source params recovered where
  registered := ⟨h.registered.entry, h.registered.live, h.registered.stats, h.registered.frames⟩
  named := ⟨h.named.oneFile, h.named.stats, h.named.named⟩
  sound := h.sound.congr rfl (fun _ t ht => ⟨t, ht, .refl t⟩) (fun _ _ hs => hs)
    (fun _ _ _ _ => rfl) fun r s hs => hsame _ (h.named.ownName hs)
  frames f hf := by
    have hframe := h.frames f hf
    cases f with
    | merging stage cleanup =>
        obtain ⟨hcleanup, plan, hdest, hinv, hkeys⟩ := hframe
        refine ⟨hcleanup, plan, hdest, hinv.congr ?_ fun key hkey => ?_, hkeys⟩
        · exact hsame _ (Or.inl hdest)
        · obtain ⟨r, s, hs, -, rfl⟩ := hkeys key hkey
          exact hsame _ (h.named.ownName hs)
    | _ => exact hframe
  alone := h.alone

/-- What a manager has open stays its own while another one moves. -/
theorem Confined.withFiles (h : w.Confined params) {own : String → Prop}
    (hwithin : Within own w.files files) (hapart : ∀ name, OwnName params name → ¬ own name) :
    (w.withFiles files).Confined params where
  toNamesOwn := ⟨h.record, h.entry, h.task⟩
  handle t ht file hfile := (h.handle t ht file hfile).beside hwithin hapart
  frame f hf := by
    have hframe := h.frame f hf
    cases f with
    | merging stage cleanup => exact fun dest hdest => (hframe dest hdest).beside hwithin hapart
    | _ => exact hframe

theorem Alive.withFiles (h : w.Alive) : (w.withFiles files).Alive :=
  ⟨h.fits, h.entry, h.known, h.lock⟩

/-- All that is kept of a manager. -/
structure Lodged (source : Bytes) (params : ChunkManagerParams) (recovered : List Stats)
    (w : World) : Prop where
  living : w.Living source params recovered
  confined : w.Confined params
  alive : w.Alive

end World

/-! ### A life of the program -/

section

variable [DecidableEq ι] {source : ι → Bytes} {params : ι → ChunkManagerParams}
  {recovered : ι → List Stats} {files : Files} {s : Managers ι}

/-- **Each manager keeps its own**, and leaves that of the others. -/
theorem lodged_of_reaches (hsize : ∀ i, (params i).fileSize = some ((source i).length : Int))
    (hsource : ∀ i, 0 < (source i).length) (hbuffer : ∀ i, 1 ≤ (params i).ioBufferSize)
    (hapart : NamesApart params)
    (hstart : ∀ i, ((recovered i).map (·.chunkFileName)).Nodup ∧
      ∀ stat ∈ recovered i, Recoverable (source i) (params i) files stat)
    (h : Reaches (Managers.step params) (Managers.Lived source params)
      (Managers.init files recovered) s) :
    ∀ i, (s.alone i).Lodged (source i) (params i) (recovered i) := by
  refine Together.reaches_parts (fun i => Within (OwnName (params i))) World.filesLens ?_ ?_ ?_ h
  · intro i w e w' out hlodged hlived hstep
    obtain ⟨hconfined, hwithin⟩ := hlodged.confined.step hlodged.alive hstep
    have hliving := hlodged.living.step (hsize i) (hsource i) (hbuffer i) hlived hstep
    exact ⟨⟨hliving.1, hconfined, hlodged.alive.step hstep⟩, hwithin⟩
  · intro i j w files hne hlodged hwithin
    refine ⟨hlodged.living.withFiles fun name hname => ?_,
      hlodged.confined.withFiles hwithin fun name => hapart.ownName hne.symm,
      hlodged.alive.withFiles⟩
    exact sameFile_of_within hwithin (hapart.ownName hne.symm hname)
  · intro i
    obtain ⟨hnames, hrecoverable⟩ := hstart i
    refine ⟨World.living_init hnames hrecoverable, World.confined_init files fun stat hstat => ?_,
      World.alive_init files (recovered i)⟩
    obtain ⟨endByte, hname⟩ := (hrecoverable stat hstat).named
    exact Or.inr ⟨_, hname⟩

/-- **What a life begins with**, whatever came before it, can be given to its managers. -/
theorem Lives.recoverable (hsize : ∀ i, (params i).fileSize = some ((source i).length : Int))
    (hsource : ∀ i, 0 < (source i).length) (hbuffer : ∀ i, 1 ≤ (params i).ioBufferSize)
    (hapart : NamesApart params) (h : Lives source params files recovered) (i : ι) :
    ((recovered i).map (·.chunkFileName)).Nodup ∧
      ∀ stat ∈ recovered i, Recoverable (source i) (params i) files stat := by
  induction h generalizing i with
  | first files => exact ⟨List.nodup_nil, fun _ hmem => absurd hmem List.not_mem_nil⟩
  | next before run reloaded ih =>
      have hlodged := lodged_of_reaches hsize hsource hbuffer hapart ih run
      exact (hlodged i).living.reloaded (reloaded i)

end

/-! ### Two downloads, two lives -/

namespace Lives

/-- Two bytes of one file, and one of another. -/
def exampleSource : Bool → Bytes
  | false => [1, 2]
  | true => [3]

def exampleParams : Bool → ChunkManagerParams
  | false => ⟨"f", some 2, 2⟩
  | true => ⟨"g", some 1, 2⟩

/-- One byte of the first file has come when its download is cancelled and its file closed; then
everything stops. -/
def firstLife : List (Bool × Event) :=
  [(false, .startChunk ⟨0, some 1⟩ none), (true, .startChunk ⟨0, none⟩ none),
    (false, .task 0 .begins), (true, .task 0 .begins), (false, .task 0 .opened),
    (true, .task 0 .opened), (false, .task 0 (.piece [1])), (false, .task 0 .written),
    (false, .cancelChunk ⟨0, some 1⟩), (false, .task 0 (.cancelled none)),
    (false, .task 0 .closed), (false, .resume 0 true)]

def firstManagers : Managers Bool :=
  runTo (Managers.step exampleParams) (Managers.Lived exampleSource exampleParams)
    (Managers.init FileSystem.empty fun _ => []) firstLife

def firstWorld : World := firstManagers.alone false

def exampleDisk : Files :=
  saveInfo jsonCodec firstWorld.files "x" 2 (firstWorld.chunksStats.values.map firstWorld.record) 1
    true Sessions.exampleDate fun _ => true

end Lives

end SDownload
