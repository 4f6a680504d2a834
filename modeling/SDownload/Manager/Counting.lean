import SDownload.Manager.Links

/-!
# SDownload.Manager.Counting

What a turn of a task does to the byte counters and the statuses, with any operation
failing: a download counts what it receives until it is stopped, and a succession
counts once, when it completes and deprecates its predecessor.

The files play no part here. `DownloadState.Advances` and `SuccessionState.Hands` say
what a turn can be; the rest is read off them.
-/

namespace SDownload

/-- A server that honours ranges. It may break off anywhere, and any operation may fail. -/
def rangedService (source : Bytes) (r : ChunkRange) : Service where
  sent bytes := bytes <+: r.bytesOf source
  whole bytes := bytes <+: r.bytesOf source
  fails := True
  sent_nil := r.nil_prefix_bytesOf source

instance (source : Bytes) (r : ChunkRange) (d : DownloadState) (e : TaskEvent) :
    Decidable (d.Allowed (rangedService source r) e) := by
  delta DownloadState.Allowed rangedService
  generalize d.task.phase = phase
  induction phase using Phase.casesOn <;> induction e using TaskEvent.casesOn <;> infer_instance

/-! ### Downloads -/

/-- What the response of a running download has delivered. -/
def Phase.delivered : Phase → Bytes
  | .receiving _ delivered | .writing _ delivered _ | .closing _ delivered _ => delivered
  | _ => []

namespace Task

/-- The download takes no more pieces. -/
def Finishing (t : Task) : Prop :=
  t.cancelRequested = true ∨
    match t.phase with
    | .closing _ _ _ | .done _ => True
    | _ => False

theorem Finishing.of_done {t : Task} (h : t.Done) : t.Finishing := by
  obtain ⟨r, hr⟩ := Task.done_iff.mp h
  exact Or.inr (by rw [hr]; trivial)

end Task

namespace DownloadState

variable {d d' : DownloadState} {e : TaskEvent} {called : Option StopCallback}

/-- What a turn of a download can be, for its counter: its first, a piece that is counted, one that
counts nothing, or its last. -/
inductive Advances (d d' : DownloadState) (e : TaskEvent) (called : Option StopCallback) : Prop
  | begins (created : d.task.phase = .created) (free : d.task.cancelRequested = false)
      (phase : d'.task.phase = .opening) (stats : d'.stats = d.stats.setStatus .downloading)
      (quiet : called = none)
  | receives {file : Handle} {delivered data : Bytes} (event : e = .piece data)
      (receiving : d.task.phase = .receiving file delivered)
      (free : d.task.cancelRequested = false)
      (phase : d'.task.phase = .writing file (delivered ++ data) data)
      (counted : (d'.stats, called) = d.stats.addQtBytesDownloaded data.length)
  | goesOn (live : ¬ d'.task.Done) (delivered : d'.task.phase.delivered = d.task.phase.delivered)
      (finishing : d.task.Finishing → d'.task.Finishing) (stats : d'.stats = d.stats)
      (quiet : called = none)
  | ends {result : TaskEnd} {status : EDownloadStatus} {lastError : Option TaskError}
      (phase : d'.task.phase = .done result)
      (stats : d'.stats = { d.stats with status, lastError }) (quiet : called = none)

theorem advances_finish {d₀ : DownloadState} (hstats : d₀.stats = d.stats) (end_ : TaskEnd) :
    d.Advances (d₀.finish end_) e none := by
  obtain ⟨r, hr⟩ := d₀.finish_task end_
  obtain ⟨status, lastError, hrecord⟩ := finish_record d₀ end_
  exact .ends (congrArg Task.phase hr) (hstats ▸ hrecord) rfl

/-- A turn that leaves the download at another `await` and counts nothing. -/
theorem advances_enter {phase₀ phase : Phase} (hphase₀ : d.task.phase = phase₀)
    (hphase : d'.task.phase = phase) (hlive : ∀ r, phase ≠ .done r)
    (hdelivered : phase.delivered = phase₀.delivered)
    (hfinishing : d.task.Finishing → d'.task.Finishing) (hstats : d'.stats = d.stats) :
    d.Advances d' e none := by
  refine .goesOn (fun hdone => ?_) (by rw [hphase, hphase₀, hdelivered]) hfinishing hstats rfl
  obtain ⟨r, hr⟩ := Task.done_iff.mp hdone
  exact hlive r (hphase.symm.trans hr)

/-- The turn in which a cancellation arrives leaves a download that takes no more pieces. -/
theorem advances_cancel {effect : Option Bytes} (h : d.cancel effect = some d') :
    d.Advances d' e none := by
  unfold cancel at h
  dsimp only at h
  split at h <;> first | cases h; done | rename_i hphase
  all_goals obtain rfl := Option.some.inj h
  · exact .ends rfl rfl rfl
  · refine advances_finish ?_ _
    exact (openFile_later { d with task := { d.task with cancelRequested := false } } _).2
  all_goals exact advances_enter hphase rfl nofun rfl (fun _ => Or.inr trivial) rfl

theorem advances_run (hfree : d.task.cancelRequested = false)
    (h : d.run e = some (d', called)) : d.Advances d' e called := by
  -- a download that nobody stops finishes only from `closing`
  have hnot : ∀ phase, d.task.phase = phase → (∀ f b l, phase ≠ .closing f b l) →
      (∀ r, phase ≠ .done r) → d.task.Finishing → d'.task.Finishing := by
    intro phase hphase hclosing hdone hfinishing
    rcases hfinishing with hasked | hleft
    · rw [hfree] at hasked
      cases hasked
    · rw [hphase] at hleft
      cases phase with
      | closing f b l => exact absurd rfl (hclosing f b l)
      | done r => exact absurd rfl (hdone r)
      | _ => exact hleft.elim
  unfold run at h
  split at h <;> first | cases h; done | rename_i hphase
  all_goals obtain ⟨rfl, rfl⟩ := Prod.mk.inj (Option.some.inj h)
  · exact .begins hphase hfree rfl rfl rfl
  · exact advances_enter hphase rfl nofun rfl (hnot _ hphase nofun nofun) rfl
  · exact advances_finish (openFile_later _ _).2 _
  · exact .receives rfl hphase hfree rfl rfl
  · exact advances_enter hphase rfl nofun rfl (hnot _ hphase nofun nofun) rfl
  · exact advances_enter hphase rfl nofun rfl (hnot _ hphase nofun nofun) rfl
  · exact advances_enter hphase rfl nofun rfl (hnot _ hphase nofun nofun) rfl
  · exact advances_enter hphase rfl nofun rfl (hnot _ hphase nofun nofun) (leave_stats _ _ _)
  · exact advances_finish rfl _
  · exact advances_finish (leave_stats _ _ _) _

/-- **Every turn** of a download is one of these. -/
theorem advances_of_step (h : d.step e = some (d', called)) : d.Advances d' e called := by
  unfold step at h
  split at h
  · obtain ⟨d'', hcancel, heq⟩ := Option.map_eq_some_iff.mp h
    obtain ⟨rfl, rfl⟩ := Prod.mk.inj heq
    exact advances_cancel hcancel
  · cases h
  · rename_i hfree
    exact advances_run hfree h

/-- A download that takes no more pieces counts nothing and calls nobody. -/
theorem Advances.of_finishing (h : d.Advances d' e called) (hfinishing : d.task.Finishing) :
    d'.task.Finishing ∧ d'.stats.bytesDownloaded = d.stats.bytesDownloaded ∧ called = none := by
  have hnot : ∀ phase, d.task.phase = phase → d.task.cancelRequested = false →
      (∀ f b l, phase ≠ .closing f b l) → ∃ r, phase = .done r := by
    intro phase hphase hfree hclosing
    rcases hfinishing with hasked | hleft
    · rw [hfree] at hasked
      cases hasked
    · rw [hphase] at hleft
      cases phase with
      | closing f b l => exact absurd rfl (hclosing f b l)
      | done r => exact ⟨r, rfl⟩
      | _ => exact hleft.elim
  cases h with
  | begins created free _ _ _ =>
      obtain ⟨r, hr⟩ := hnot _ created free nofun
      cases hr
  | receives _ receiving free _ _ =>
      obtain ⟨r, hr⟩ := hnot _ receiving free nofun
      cases hr
  | goesOn _ _ finishing stats quiet => exact ⟨finishing hfinishing, by rw [stats], quiet⟩
  | ends phase stats quiet =>
      exact ⟨Task.Finishing.of_done (Task.done_iff.mpr ⟨_, phase⟩), by rw [stats], quiet⟩

end DownloadState

/-- A download has counted what it received, a front of its range. -/
structure Task.Counted (source : Bytes) (t : Task) (s : Stats) : Prop where
  live : ¬ t.Done → s.bytesDownloaded = t.phase.delivered.length ∧
    t.phase.delivered <+: t.range.bytesOf source
  le : 0 ≤ s.bytesDownloaded ∧ s.bytesDownloaded ≤ (t.range.bytesOf source).length
  running : ¬ t.Done → s.status = .pending ∨ s.status = .downloading

/-- A download that is held to `cap` bytes: it takes no more pieces, or the observer of its record
stops it. -/
def Task.Held (t : Task) (i : TaskId) (s : Stats) (cap : Int) : Prop :=
  t.Finishing ∨ s.limited = true ∧ s.limitQtBytes = cap ∧ s.bytesDownloaded < cap ∧
    s.onLimit = some ⟨t.stats, some i⟩

namespace DownloadState

variable {source : Bytes} {d d' : DownloadState} {e : TaskEvent} {called : Option StopCallback}

/-- **A turn of a download** over a server that honours ranges counts what comes. -/
theorem Advances.counted (h : d.Advances d' e called) (hlater : d.Later d')
    (hlive : ¬ d.task.Done) (hcounted : d.task.Counted source d.stats)
    (hallowed : d.Allowed (rangedService source d.task.range) e) :
    d'.task.Counted source d'.stats := by
  obtain ⟨hbytes, hfront⟩ := hcounted.live hlive
  have hrange := hlater.task.range
  cases h with
  | begins created _ phase stats _ =>
      rw [created] at hbytes hfront
      refine ⟨fun _ => ?_, ?_, fun _ => Or.inr (by rw [stats]; rfl)⟩
      · rw [stats, phase, hrange]
        exact ⟨hbytes, hfront⟩
      · rw [stats, hrange]
        exact hcounted.le
  | @receives file delivered data event receiving _ phase counted =>
      subst event
      rw [receiving] at hbytes
      have hsent : delivered ++ data <+: d.task.range.bytesOf source := by
        unfold Allowed at hallowed
        rw [receiving] at hallowed
        exact hallowed
      have hstats : d'.stats = (d.stats.addQtBytesDownloaded data.length).1 :=
        congrArg Prod.fst counted
      have hadded : d'.stats.bytesDownloaded = ((delivered ++ data).length : Int) := by
        rw [hstats, (addQtBytesDownloaded_fields _ _).1, hbytes, List.length_append, Nat.cast_add]
        rfl
      refine ⟨fun _ => ?_, ⟨?_, ?_⟩, fun _ => ?_⟩
      · rw [phase, hrange]
        exact ⟨hadded, hsent⟩
      · omega
      · rw [hadded, hrange]
        exact Int.ofNat_le.mpr hsent.length_le
      · rw [hstats, (addQtBytesDownloaded_fields _ _).2.1]
        exact hcounted.running hlive
  | goesOn _ delivered _ stats _ =>
      refine ⟨fun _ => ?_, ?_, fun _ => ?_⟩
      · rw [stats, delivered, hrange]
        exact ⟨hbytes, hfront⟩
      · rw [stats, hrange]
        exact hcounted.le
      · rw [stats]
        exact hcounted.running hlive
  | ends phase stats _ =>
      have hdone := Task.done_iff.mpr ⟨_, phase⟩
      refine ⟨fun h => absurd hdone h, ?_, fun h => absurd hdone h⟩
      rw [stats, hrange]
      exact hcounted.le

/-- A download whose record has no observer calls nobody. -/
theorem Advances.unlimited (h : d.Advances d' e called) (hlimited : d.stats.limited = false) :
    called = none ∧ d'.stats.limited = false := by
  cases h with
  | begins _ _ _ stats quiet => exact ⟨quiet, by rw [stats]; exact hlimited⟩
  | receives _ _ _ _ counted =>
      unfold ChunkDownloadStats.addQtBytesDownloaded at counted
      dsimp only at counted
      rw [if_neg (by rw [hlimited]; exact Bool.false_ne_true)] at counted
      obtain ⟨hstats, hquiet⟩ := Prod.mk.inj counted
      exact ⟨hquiet, by rw [hstats]; exact hlimited⟩
  | goesOn _ _ _ stats quiet => exact ⟨quiet, by rw [stats]; exact hlimited⟩
  | ends _ stats quiet => exact ⟨quiet, by rw [stats]; exact hlimited⟩

/-- **A turn of a download that is held to `cap` bytes**, if no piece takes it past them: it stays
held, or it has `cap` bytes and calls whom its observer stops. -/
theorem Advances.held {i : TaskId} {cap : Int} (h : d.Advances d' e called) (hlater : d.Later d')
    (hheld : d.task.Held i d.stats cap) (hle : d.stats.bytesDownloaded ≤ cap)
    (hwithin : ∀ data : Bytes, e = .piece data → d.stats.limited = true →
      d.stats.bytesDownloaded + data.length ≤ d.stats.limitQtBytes) :
    d'.stats.bytesDownloaded ≤ cap ∧
      (called = none ∧ d'.task.Held i d'.stats cap ∨
        called = some ⟨d.task.stats, some i⟩ ∧ d'.stats.limited = false ∧ ¬ d'.task.Done) := by
  rcases hheld with hfinishing | ⟨hlimited, hlimit, hlt, hobserver⟩
  · obtain ⟨hfinishing', hbytes, hquiet⟩ := h.of_finishing hfinishing
    exact ⟨hbytes ▸ hle, Or.inl ⟨hquiet, Or.inl hfinishing'⟩⟩
  have hstats := hlater.task.stats
  cases h with
  | begins _ _ _ stats quiet =>
      rw [Task.Held, stats, hstats]
      exact ⟨hle, Or.inl ⟨quiet, Or.inr ⟨hlimited, hlimit, hlt, hobserver⟩⟩⟩
  | @receives file delivered data event _ _ phase counted =>
      have hpiece := hwithin data event hlimited
      unfold ChunkDownloadStats.addQtBytesDownloaded at counted
      dsimp only at counted
      rw [if_pos hlimited] at counted
      split at counted <;> obtain ⟨hstats', rfl⟩ := Prod.mk.inj counted <;>
        rw [Task.Held, hstats', hstats]
      · refine ⟨hlimit ▸ hpiece, Or.inr ⟨hobserver, rfl, ?_⟩⟩
        rw [Task.done_iff, phase]
        exact nofun
      · rename_i hbelow
        exact ⟨hlimit ▸ hpiece,
          Or.inl ⟨rfl, Or.inr ⟨hlimited, hlimit, hlimit ▸ not_le.mp hbelow, hobserver⟩⟩⟩
  | goesOn _ _ _ stats quiet =>
      rw [Task.Held, stats, hstats]
      exact ⟨hle, Or.inl ⟨quiet, Or.inr ⟨hlimited, hlimit, hlt, hobserver⟩⟩⟩
  | ends phase stats quiet =>
      rw [stats]
      exact ⟨hle, Or.inl ⟨quiet, Or.inl (.of_done (Task.done_iff.mpr ⟨_, phase⟩))⟩⟩

end DownloadState

/-! ### Successions -/

namespace SuccessionState

variable {u u' : SuccessionState}

/-- What a turn of a succession that nobody cancels can be, for the counters: it fails, it goes on,
or it completes. -/
inductive Hands (u : SuccessionState) (predecessorEnded : Bool) (u' : SuccessionState) : Prop
  | fails (phase : ∃ e, u'.task.phase = .done (.failed e)) (status : u'.successor.status = .error)
      (bytes : u'.successor.bytesDownloaded = u.successor.bytesDownloaded)
      (predecessor : u'.predecessor = u.predecessor)
      (requested : u'.task.cancelRequested = u.task.cancelRequested)
  | goesOn (phase : u'.task.phase = .awaitingPredecessor ∨
        predecessorEnded = true ∧ u'.task.phase = .cropping u.startCrop u.endCrop ∨
          ∃ startCrop endCrop, u.task.phase = .cropping startCrop endCrop ∧
            u'.task.phase = .moving startCrop endCrop)
      (successor : u'.successor = u.successor) (predecessor : u'.predecessor = u.predecessor)
      (requested : u'.task.cancelRequested = u.task.cancelRequested)
  | completes {startCrop endCrop : Int} (moving : u.task.phase = .moving startCrop endCrop)
      (phase : u'.task.phase = .done .returned)
      (status : u'.successor.status = .completed)
      (bytes : u'.successor.bytesDownloaded = endCrop - startCrop + 1)
      (predecessor : u'.predecessor = u.predecessor.setStatus .deprecated)
      (requested : u'.task.cancelRequested = u.task.cancelRequested)

theorem Turns.hands {ended : Bool} (h : u.Turns ended u') : u.Hands ended u' := by
  cases h with
  | failed h _ =>
      exact .fails h.phase h.status h.bytesDownloaded h.predecessor h.cancelRequested
  | waits _ h => exact .goesOn (Or.inl h.phase) h.successor h.predecessor h.cancelRequested
  | crops ended _ h =>
      exact .goesOn (Or.inr (Or.inl ⟨ended, h.phase⟩)) h.successor h.predecessor h.cancelRequested
  | cropped phase _ => exact .goesOn (Or.inr (Or.inr ⟨_, _, phase, rfl⟩)) rfl rfl rfl
  | moved phase _ => exact .completes phase rfl rfl rfl rfl rfl

theorem hands_fail {files : Files} (e : TaskError) {ended : Bool} :
    u.Hands ended ({ u with files }.fail e) := by
  have h := failed_fail { u with files } e
  exact .fails h.phase h.status h.bytesDownloaded h.predecessor h.cancelRequested

/-- **Every turn** of a succession that nobody cancels is one of these. -/
theorem hands_of_run {hasPredecessorTask : Bool} {predecessorEnd : Option TaskEnd} {e : TaskEvent}
    (hphase : u.task.phase ≠ .cancellingPredecessor)
    (h : u.run hasPredecessorTask predecessorEnd e = some u') :
    u.Hands (!hasPredecessorTask || predecessorEnd.isSome) u' := by
  by_cases he : ∃ effect, e = .fails effect
  · obtain ⟨effect, rfl⟩ := he
    cases hp : u.task.phase with
    | cropping startCrop endCrop =>
        simp only [run, hp, Option.some.injEq] at h
        subst h
        exact hands_fail _
    | moving startCrop endCrop =>
        simp only [run, hp, Option.some.injEq] at h
        subst h
        exact hands_fail _
    | _ => simp [run, hp] at h
  · exact (turns_of_run hphase (fun effect heq => he ⟨effect, heq⟩) h).hands

end SuccessionState

end SDownload
