import Mathlib.Data.List.Pairwise
import SDownload.Http.Discovery
import SDownload.Lib.Run
import SDownload.Lib.Worklist

/-!
# SDownload.Http.Crawl

The crawler: `HttpxDownloader.list_resources`.

A turn of its loop takes the first task of the queue, explores it, yields the files
that were found and queues the links. What an exploration finds is chosen by an
event, so that a run is about any site, also one that does not reply to the same
request twice in the same way.

Tasks of levels up to the requested one read their pages, those of the level after
it are **probes**: they only say whether their URL is a file.

`crawl_terminates` says that the loop ends and visits no URL twice: what a task
queues is of the next level, and is not queued if it was seen. What is yielded does
not go through the set of seen URLs, and `listed_nodup_iff` says when it has no
duplicates.
-/

namespace SDownload

/-- What `list_resources` is called with, but for the URL. -/
structure CrawlParams where
  level : Nat
  /-- `regex.search`, where there is a pattern that is not empty. -/
  regex : Option (String → Bool)
  urlparse : String → Option ParseResult

/-- What the loop keeps. -/
structure CrawlState where
  queue : List DiscoveryTask
  seenUrls : List String
  deriving Repr, DecidableEq

/-- One turn: the task, what it yielded and what it queued. -/
structure Visit where
  task : DiscoveryTask
  listed : List String
  queued : List DiscoveryTask
  deriving Repr, DecidableEq

/-- The task a link of this task's page is queued as. -/
def DiscoveryTask.next (task : DiscoveryTask) (isLastLevel : Bool) (link : ExtractedLink) :
    DiscoveryTask where
  url := link.url
  level := task.level + 1
  methodHint := link.methodHint
  processOnlyFiles := isLastLevel

namespace CrawlParams

variable (p : CrawlParams)

/-- `not regex or regex.search(text)`. -/
def accepts (text : String) : Bool :=
  match p.regex with
  | none => true
  | some search => search text

/-- The files that are yielded, and whether their names could all be made. -/
def listFiles : List String → List String × Bool
  | [] => ([], true)
  | fileUrl :: rest =>
      match p.urlparse fileUrl with
      | none => ([], false)
      | some parsed =>
          let (listed, completed) := listFiles rest
          (if p.accepts (urlToFileName parsed) then fileUrl :: listed else listed, completed)

/-- `_enqueue_links`: the tasks that are appended, and the URLs seen after that. -/
def enqueueLinks (task : DiscoveryTask) (isLastLevel : Bool) :
    List ExtractedLink → List String → List DiscoveryTask × List String
  | [], seenUrls => ([], seenUrls)
  | link :: rest, seenUrls =>
      if link.url ∈ seenUrls then enqueueLinks task isLastLevel rest seenUrls
      else if isLastLevel && !p.accepts link.url then enqueueLinks task isLastLevel rest seenUrls
      else
        let (tasks, seenUrls') := enqueueLinks task isLastLevel rest (link.url :: seenUrls)
        (task.next isLastLevel link :: tasks, seenUrls')

/-- What is yielded of an exploration's result. -/
def matching (result : DiscoveryResult) : List String :=
  (p.listFiles result.files).1

/-- The body of the loop, once the task is explored: the visit, and the URLs seen after it. -/
def turn (task : DiscoveryTask) (result : DiscoveryResult) (seenUrls : List String) :
    Visit × List String :=
  let listed := p.matching result
  -- a file whose name cannot be made ends the turn
  if !(p.listFiles result.files).2 then (⟨task, listed, []⟩, seenUrls)
  else if task.level < p.level then
    let (directories, seenUrls₁) := p.enqueueLinks task false result.directories seenUrls
    let (unresolved, seenUrls₂) := p.enqueueLinks task false result.unresolvedLinks seenUrls₁
    (⟨task, listed, directories ++ unresolved⟩, seenUrls₂)
  else if task.level = p.level then
    let (unresolved, seenUrls₁) := p.enqueueLinks task true result.unresolvedLinks seenUrls
    (⟨task, listed, unresolved⟩, seenUrls₁)
  else (⟨task, listed, []⟩, seenUrls)

/-- `list_resources` up to its loop. -/
def start (url : String) : Except String CrawlState :=
  if p.level < 1 then .error "level must be greater than 0"
  else .ok { queue := [{ url := url, level := 1 }], seenUrls := [url] }

variable {ε : Type*} (explore : ε → DiscoveryTask → DiscoveryResult)

/-- The next turn, where an exploration finds what `explore` says for the event. -/
def step (s : CrawlState) (event : ε) : Option (CrawlState × List (ε × Visit)) :=
  match s.queue with
  | [] => none
  | task :: rest =>
      let (visit, seenUrls) := p.turn task (explore event task) s.seenUrls
      some ({ queue := rest ++ visit.queued, seenUrls := seenUrls }, [(event, visit)])

end CrawlParams

variable {p : CrawlParams} {ε : Type*} {explore : ε → DiscoveryTask → DiscoveryResult}

/-! ### One turn -/

theorem CrawlParams.start_eq_ok {url : String} {s : CrawlState} (h : p.start url = .ok s) :
    1 ≤ p.level ∧ s = { queue := [{ url := url, level := 1 }], seenUrls := [url] } := by
  unfold start at h
  split at h
  · cases h
  · exact ⟨by omega, (Except.ok.inj h).symm⟩

/-- What a step does: the first task leaves, and what it queued joins. -/
theorem CrawlParams.step_cases {s s' : CrawlState} {event : ε} {out : List (ε × Visit)}
    (h : p.step explore s event = some (s', out)) :
    ∃ task rest visit seenUrls, s.queue = task :: rest ∧
      p.turn task (explore event task) s.seenUrls = (visit, seenUrls) ∧
      s' = { queue := rest ++ visit.queued, seenUrls := seenUrls } ∧ out = [(event, visit)] := by
  unfold step at h
  split at h
  · cases h
  · rename_i task rest hqueue
    obtain ⟨rfl, rfl⟩ := Prod.mk.inj (Option.some.inj h)
    exact ⟨task, rest, _, _, hqueue, rfl, rfl, rfl⟩

/-- As long as a task waits, there is a step. -/
theorem CrawlParams.step_of_queue {s : CrawlState} {event : ε} {task : DiscoveryTask}
    {rest : List DiscoveryTask} {visit : Visit} {seenUrls : List String}
    (hqueue : s.queue = task :: rest)
    (hturn : p.turn task (explore event task) s.seenUrls = (visit, seenUrls)) :
    p.step explore s event =
      some ({ queue := rest ++ visit.queued, seenUrls := seenUrls }, [(event, visit)]) := by
  unfold step
  rw [hqueue]
  dsimp only
  rw [hturn]

/-- The tasks that links join with: their URLs were not seen, and are now. -/
structure Enqueued (task : DiscoveryTask) (isLastLevel : Bool) (seenUrls : List String)
    (tasks : List DiscoveryTask) (seenUrls' : List String) : Prop where
  nodup : (tasks.map DiscoveryTask.url).Nodup
  fresh : ∀ url ∈ tasks.map DiscoveryTask.url, url ∉ seenUrls
  mem_seen : ∀ url, url ∈ seenUrls' ↔ url ∈ seenUrls ∨ url ∈ tasks.map DiscoveryTask.url
  level : ∀ t ∈ tasks, t.level = task.level + 1
  processOnlyFiles : ∀ t ∈ tasks, t.processOnlyFiles = isLastLevel

namespace Enqueued

variable {task : DiscoveryTask} {isLastLevel : Bool} {seenUrls seenUrls₁ seenUrls₂ : List String}
  {tasks tasks' : List DiscoveryTask}

theorem nil (task : DiscoveryTask) (isLastLevel : Bool) (seenUrls : List String) :
    Enqueued task isLastLevel seenUrls [] seenUrls where
  nodup := List.nodup_nil
  fresh := nofun
  mem_seen url := by simp
  level := nofun
  processOnlyFiles := nofun

/-- What is queued first, and what is queued after it. -/
theorem append (h : Enqueued task isLastLevel seenUrls tasks seenUrls₁)
    (h' : Enqueued task isLastLevel seenUrls₁ tasks' seenUrls₂) :
    Enqueued task isLastLevel seenUrls (tasks ++ tasks') seenUrls₂ where
  nodup := by
    rw [List.map_append]
    refine h.nodup.append h'.nodup fun url hfirst hsecond => ?_
    exact h'.fresh url hsecond ((h.mem_seen url).mpr (Or.inr hfirst))
  fresh url hurl hseen := by
    rw [List.map_append] at hurl
    rcases List.mem_append.mp hurl with hurl | hurl
    · exact h.fresh url hurl hseen
    · exact h'.fresh url hurl ((h.mem_seen url).mpr (Or.inl hseen))
  mem_seen url := by
    rw [h'.mem_seen, h.mem_seen, List.map_append, List.mem_append, or_assoc]
  level t ht := (List.mem_append.mp ht).elim (h.level t) (h'.level t)
  processOnlyFiles t ht :=
    (List.mem_append.mp ht).elim (h.processOnlyFiles t) (h'.processOnlyFiles t)

end Enqueued

/-- `_enqueue_links` queues URLs that were not seen. -/
theorem CrawlParams.enqueued (p : CrawlParams) (task : DiscoveryTask) (isLastLevel : Bool)
    (links : List ExtractedLink) (seenUrls : List String) :
    Enqueued task isLastLevel seenUrls (p.enqueueLinks task isLastLevel links seenUrls).1
      (p.enqueueLinks task isLastLevel links seenUrls).2 := by
  induction links generalizing seenUrls with
  | nil => exact .nil task isLastLevel seenUrls
  | cons link rest ih =>
      unfold enqueueLinks
      split
      · exact ih seenUrls
      · rename_i hnew
        split
        · exact ih seenUrls
        · -- one task, then those of the other links
          have hone : Enqueued task isLastLevel seenUrls [task.next isLastLevel link]
              (link.url :: seenUrls) := by
            constructor
            · exact List.nodup_singleton _
            · intro url hurl
              exact List.mem_singleton.mp hurl ▸ hnew
            · intro url
              rw [List.mem_cons, List.map_singleton, List.mem_singleton, or_comm]
              rfl
            · intro t ht
              rw [List.mem_singleton.mp ht]
              rfl
            · intro t ht
              rw [List.mem_singleton.mp ht]
              rfl
          exact hone.append (ih (link.url :: seenUrls))

/-- **What a turn queues**: nothing, or links of a task that is not a probe, as tasks of the next
level with URLs that were not seen. -/
theorem CrawlParams.turn_queued {task : DiscoveryTask} {result : DiscoveryResult}
    {seenUrls seenUrls' : List String} {visit : Visit}
    (h : p.turn task result seenUrls = (visit, seenUrls')) :
    visit.task = task ∧
      Enqueued task (decide (task.level = p.level)) seenUrls visit.queued seenUrls' ∧
        (p.level < task.level → visit.queued = []) := by
  unfold turn at h
  dsimp only at h
  split at h
  · obtain ⟨rfl, rfl⟩ := Prod.mk.inj h
    exact ⟨rfl, .nil .., fun _ => rfl⟩
  · split at h
    · rename_i hlt
      obtain ⟨rfl, rfl⟩ := Prod.mk.inj h
      rw [decide_eq_false (by omega)]
      exact ⟨rfl, (p.enqueued ..).append (p.enqueued ..), fun hgt => absurd hlt (by omega)⟩
    · split at h
      · rename_i heq
        obtain ⟨rfl, rfl⟩ := Prod.mk.inj h
        rw [decide_eq_true heq]
        exact ⟨rfl, p.enqueued .., fun hgt => absurd heq (by omega)⟩
      · obtain ⟨rfl, rfl⟩ := Prod.mk.inj h
        exact ⟨rfl, .nil .., fun _ => rfl⟩

/-! ### The invariant -/

/-- A task has a level up to the one after the requested, and is a probe if it has that one. -/
structure CrawlParams.Leveled (p : CrawlParams) (task : DiscoveryTask) : Prop where
  pos : 1 ≤ task.level
  le : task.level ≤ p.level + 1
  processOnlyFiles : task.processOnlyFiles = decide (task.level = p.level + 1)

/-- What holds of a crawl so far. -/
structure CrawlInv (p : CrawlParams) (s : CrawlState) (outs : List (ε × Visit)) : Prop where
  tracked : Tracked (outs.map (·.2.task.url)) (s.queue.map DiscoveryTask.url) s.seenUrls
  queued : ∀ task ∈ s.queue, p.Leveled task
  visited : ∀ out ∈ outs, p.Leveled out.2.task
  probes : ∀ out ∈ outs, out.2.task.level = p.level + 1 → out.2.queued = []

theorem CrawlInv.start {url : String} {s : CrawlState} (h : p.start url = .ok s) :
    CrawlInv p s ([] : List (ε × Visit)) := by
  obtain ⟨hlevel, rfl⟩ := CrawlParams.start_eq_ok h
  constructor
  · exact Tracked.start url
  · intro task htask
    rw [List.mem_singleton.mp htask]
    refine ⟨le_refl 1, Nat.le_add_left 1 _, (decide_eq_false ?_).symm⟩
    show ¬ 1 = p.level + 1
    omega
  · nofun
  · nofun

theorem CrawlInv.step {s s' : CrawlState} {event : ε} {outs out : List (ε × Visit)}
    (h : CrawlInv p s outs) (hstep : p.step explore s event = some (s', out)) :
    CrawlInv p s' (outs ++ out) := by
  obtain ⟨task, rest, visit, seenUrls, hqueue, hturn, rfl, rfl⟩ := CrawlParams.step_cases hstep
  obtain ⟨htask, henq, hnone⟩ := CrawlParams.turn_queued hturn
  have hleveled : p.Leveled task := h.queued task (hqueue ▸ List.mem_cons_self)
  have htracked := h.tracked
  rw [hqueue, List.map_cons] at htracked
  constructor
  · have hjoin := htracked.take.join henq.nodup henq.fresh
      (fun url hurl => (henq.mem_seen url).mpr (Or.inr hurl))
      (fun url hurl => (henq.mem_seen url).mpr (Or.inl hurl))
    rw [List.map_append, List.map_singleton, htask, List.map_append]
    exact hjoin
  · intro t ht
    rcases List.mem_append.mp ht with ht | ht
    · exact h.queued t (hqueue ▸ List.mem_cons_of_mem _ ht)
    · have hle : task.level ≤ p.level := by
        by_contra hgt
        rw [hnone (by omega)] at ht
        cases ht
      have hlevel := henq.level t ht
      have hpos := hleveled.pos
      refine ⟨by omega, by omega, ?_⟩
      rw [henq.processOnlyFiles t ht, hlevel]
      exact decide_eq_decide.mpr (by omega)
  · intro o ho
    rcases List.mem_append.mp ho with ho | ho
    · exact h.visited o ho
    · rw [List.mem_singleton.mp ho]
      exact htask ▸ hleveled
  · intro o ho hlast
    rcases List.mem_append.mp ho with ho | ho
    · exact h.probes o ho hlast
    · rw [List.mem_singleton.mp ho] at hlast ⊢
      exact hnone (by rw [← htask]; dsimp only at hlast; omega)

theorem CrawlInv.of_produces {allowed : CrawlState → ε → Prop} {url : String}
    {start s : CrawlState} {outs : List (ε × Visit)} (hstart : p.start url = .ok start)
    (h : Produces (p.step explore) allowed start s outs) : CrawlInv p s outs :=
  h.invariant (.start hstart) fun hinv _ hstep => hinv.step hstep

/-! ### Termination -/

/-- How many levels are still below a task. -/
def CrawlParams.below (p : CrawlParams) (task : DiscoveryTask) : Nat :=
  p.level + 1 - task.level

/-- A step is a turn of the worklist. -/
theorem CrawlParams.workTurn {s s' : CrawlState} {event : ε} {out : List (ε × Visit)}
    (h : p.step explore s event = some (s', out)) : WorkTurn p.below s'.queue s.queue := by
  obtain ⟨task, rest, visit, seenUrls, hqueue, hturn, rfl, -⟩ := step_cases h
  obtain ⟨-, henq, hnone⟩ := turn_queued hturn
  rw [hqueue]
  refine .turn fun t ht => ?_
  have hlevel := henq.level t ht
  have hle : task.level ≤ p.level := by
    by_contra hgt
    rw [hnone (by omega)] at ht
    cases ht
  unfold below
  omega

/-- Whatever the explorations find, the queue is empty after some turns. -/
theorem CrawlParams.empties (p : CrawlParams) (explore : ε → DiscoveryTask → DiscoveryResult)
    (s : CrawlState) (events : ℕ → ε) :
    ∃ n last outs, replay (p.step explore) (fun _ _ => True) s ((List.range n).map events) =
      some (last, outs) ∧ last.queue = [] := by
  -- by induction on the queue; what is left is the same with the events after the first
  induction hq : s.queue using (WorkTurn.wellFounded p.below).induction generalizing s events with
  | _ queue ih =>
      subst hq
      cases hqueue : s.queue with
      | nil => exact ⟨0, s, [], rfl, hqueue⟩
      | cons task rest =>
          obtain ⟨s', out, hstep⟩ : ∃ s' out, p.step explore s (events 0) = some (s', out) :=
            ⟨_, _, step_of_queue hqueue (Prod.eta _).symm⟩
          obtain ⟨n, last, outs, hrun, hlast⟩ :=
            ih s'.queue (workTurn hstep) s' (fun k => events (k + 1)) rfl
          refine ⟨n + 1, last, out ++ outs, ?_, hlast⟩
          rw [List.range_succ_eq_map, List.map_cons, List.map_map]
          unfold replay
          rw [if_pos trivial, hstep]
          dsimp only
          rw [show (events ∘ Nat.succ) = fun k => events (k + 1) from rfl, hrun]

/-- **The crawl ends, and visits no URL twice.** Every sequence of replies is used up to some turn,
after which the queue is empty. In every run the visited URLs are different, the levels are between
one and the one after the requested, and the tasks of the last are probes that queue nothing. -/
theorem crawl_terminates (p : CrawlParams) (explore : ε → DiscoveryTask → DiscoveryResult)
    (url : String) (start : CrawlState) (hstart : p.start url = .ok start) :
    (∀ events : ℕ → ε, ∃ n last outs,
      replay (p.step explore) (fun _ _ => True) start ((List.range n).map events) =
        some (last, outs) ∧ last.queue = []) ∧
    ∀ s outs, Produces (p.step explore) (fun _ _ => True) start s outs →
      (outs.map (·.2.task.url)).Nodup ∧
      ∀ out ∈ outs, 1 ≤ out.2.task.level ∧ out.2.task.level ≤ p.level + 1 ∧
        (out.2.task.level = p.level + 1 →
          out.2.task.processOnlyFiles = true ∧ out.2.queued = []) := by
  refine ⟨p.empties explore start, fun s outs hrun => ?_⟩
  have hinv := CrawlInv.of_produces hstart hrun
  refine ⟨hinv.tracked.nodup_taken, fun out hout => ?_⟩
  have hleveled := hinv.visited out hout
  refine ⟨hleveled.pos, hleveled.le, fun hlast => ⟨?_, hinv.probes out hout hlast⟩⟩
  rw [hleveled.processOnlyFiles, decide_eq_true hlast]

/-- A site of two pages for each page, which link to each other. -/
def endlessSite (_ : Unit) (task : DiscoveryTask) : DiscoveryResult where
  directories := [⟨task.url ++ "a/", some true, .get⟩, ⟨task.url, some true, .get⟩]
  unresolvedLinks := [{ url := task.url ++ "b" }, { url := "http://h/" }]

theorem crawl_terminates_endless :
    (∃ n last outs, replay (CrawlParams.step ⟨3, none, fun _ => none⟩ endlessSite) (fun _ _ => True)
      ⟨[{ url := "http://h/", level := 1 }], ["http://h/"]⟩ ((List.range n).map fun _ => ()) =
        some (last, outs) ∧ last.queue = []) ∧
    ∀ s outs, Produces (CrawlParams.step ⟨3, none, fun _ => none⟩ endlessSite) (fun _ _ => True)
      ⟨[{ url := "http://h/", level := 1 }], ["http://h/"]⟩ s outs →
        (outs.map (·.2.task.url)).Nodup :=
  ⟨(crawl_terminates ⟨3, none, fun _ => none⟩ endlessSite "http://h/" _ rfl).1 fun _ => (),
    fun s outs h => ((crawl_terminates _ endlessSite "http://h/" _ rfl).2 s outs h).1⟩

/-! ### What is yielded -/

theorem CrawlParams.turn_listed {task : DiscoveryTask} {result : DiscoveryResult}
    {seenUrls seenUrls' : List String} {visit : Visit}
    (h : p.turn task result seenUrls = (visit, seenUrls')) : visit.listed = p.matching result := by
  unfold turn at h
  dsimp only at h
  split at h
  · rw [← (Prod.mk.inj h).1]
  · split at h
    · rw [← (Prod.mk.inj h).1]
    · split at h
      · rw [← (Prod.mk.inj h).1]
      · rw [← (Prod.mk.inj h).1]

/-- Every turn yields what its exploration found and the pattern accepts. -/
theorem listed_of_produces {allowed : CrawlState → ε → Prop} {start s : CrawlState}
    {outs : List (ε × Visit)} (h : Produces (p.step explore) allowed start s outs) :
    ∀ out ∈ outs, out.2.listed = p.matching (explore out.1 out.2.task) := by
  induction h with
  | start => nofun
  | step _ _ hstep ih =>
      obtain ⟨task, rest, visit, seenUrls, -, hturn, -, rfl⟩ := CrawlParams.step_cases hstep
      intro o ho
      rcases List.mem_append.mp ho with ho | ho
      · exact ih o ho
      · rw [List.mem_singleton.mp ho]
        dsimp only
        rw [(CrawlParams.turn_queued hturn).1]
        exact CrawlParams.turn_listed hturn

/-- **When no URL is yielded twice.** The sequence of yielded URLs of a run has no duplicates if and
only if no exploration finds a matching file twice, and no matching file is found by the
explorations of two URLs. -/
theorem listed_nodup_iff (p : CrawlParams) (explore : ε → DiscoveryTask → DiscoveryResult)
    (url : String) (start s : CrawlState) (outs : List (ε × Visit))
    (hstart : p.start url = .ok start)
    (hrun : Produces (p.step explore) (fun _ _ => True) start s outs) :
    (outs.flatMap (·.2.listed)).Nodup ↔
      (∀ out ∈ outs, (p.matching (explore out.1 out.2.task)).Nodup) ∧
      ∀ out ∈ outs, ∀ out' ∈ outs, out.2.task.url ≠ out'.2.task.url →
        ∀ file ∈ p.matching (explore out.1 out.2.task),
          file ∉ p.matching (explore out'.1 out'.2.task) := by
  have hlisted := listed_of_produces hrun
  have hurls := (CrawlInv.of_produces hstart hrun).tracked.nodup_taken
  rw [List.nodup_flatMap]
  refine and_congr ?_ ?_
  · refine forall₂_congr fun out hout => ?_
    rw [hlisted out hout]
  · constructor
    · intro hpairwise out hout out' hout' hne file hfile hfile'
      -- turns of different URLs are different turns
      have hsymm : Std.Symm (Function.onFun List.Disjoint fun o : ε × Visit => o.2.listed) :=
        ⟨fun _ _ h => h.symm⟩
      rw [← hlisted out hout] at hfile
      rw [← hlisted out' hout'] at hfile'
      exact hpairwise.forall hout hout' (fun he => hne (he ▸ rfl)) hfile hfile'
    · intro hdisjoint
      have hpairwise : outs.Pairwise fun a b => a.2.task.url ≠ b.2.task.url :=
        List.pairwise_map.mp hurls
      refine hpairwise.imp_of_mem fun {a b} ha hb hne => ?_
      show a.2.listed.Disjoint b.2.listed
      rw [hlisted a ha, hlisted b hb]
      exact fun file => hdisjoint _ ha _ hb hne file

/-- A site with two pages that link to a file each. -/
def twoFiles : Client :=
  pagesClient [
    ⟨"http://h/", "text/html", "<a href=\"http://h/b.html\"><a href=\"http://h/f.zip\">"⟩,
    ⟨"http://h/b.html", "text/html", "<a href=\"http://h/g.zip\">"⟩]

/-- The parameters of a crawl of these sites without a pattern. -/
def plainCrawl (level : Nat) : CrawlParams := ⟨level, none, httpUrlparse⟩

set_option maxRecDepth 4000 in
theorem listed_nodup_twoFiles :
    ((runOuts ((plainCrawl 2).step (exploreTask hrefParsers 1048576)) (fun _ _ => True)
      ⟨[{ url := "http://h/", level := 1 }], ["http://h/"]⟩ [twoFiles, twoFiles]).flatMap
        (·.2.listed)).Nodup :=
  (listed_nodup_iff (plainCrawl 2) (exploreTask hrefParsers 1048576) "http://h/" _ _ _ rfl
    (produces_runTo _ _ _ [twoFiles, twoFiles])).mpr ⟨by decide, by decide⟩

/-- A site with two pages that link to one file. -/
def twoPages : Client :=
  pagesClient [
    ⟨"http://h/", "text/html", "<a href=\"http://h/b.html\"><a href=\"http://h/f.zip\">"⟩,
    ⟨"http://h/b.html", "text/html", "<a href=\"http://h/f.zip\">"⟩]

set_option maxRecDepth 4000 in
/-- The file that both pages link to is yielded twice. -/
theorem listed_twice :
    ∃ start s outs, (plainCrawl 2).start "http://h/" = .ok start ∧
      Produces ((plainCrawl 2).step (exploreTask hrefParsers 1048576)) (fun _ _ => True)
        start s outs ∧
      s.queue = [] ∧ outs.flatMap (·.2.listed) = ["http://h/f.zip", "http://h/f.zip"] ∧
      ¬ (outs.flatMap (·.2.listed)).Nodup := by
  have htwice : ∀ listed : List String, listed = ["http://h/f.zip", "http://h/f.zip"] →
      listed = ["http://h/f.zip", "http://h/f.zip"] ∧ ¬ listed.Nodup := by
    intro listed hlisted
    rw [hlisted]
    exact ⟨rfl, by decide⟩
  exact ⟨_, _, _, rfl, produces_runTo _ _ _ [twoPages, twoPages], by decide, htwice _ (by decide)⟩

end SDownload
