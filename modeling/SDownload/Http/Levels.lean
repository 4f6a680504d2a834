import SDownload.Http.Crawl
import SDownload.Lib.Layers

/-!
# SDownload.Http.Levels

The crawl is a breadth-first search, of a graph that it finds on the way: there is
an edge for each link that the turn of a visited page follows.

A link is not followed again once its URL was seen, and the level of a task is that
of the first page that linked to it. `crawl_breadth_first` says that no level is
lost by that: pages are visited in the order of their levels, and when the queue is
empty, what was visited at a level is what is that many links away from the start,
and no fewer.
-/

namespace SDownload

variable {ε : Type*}

namespace CrawlParams

variable (p : CrawlParams)

/-- The links that the turn of a task follows, unless their URLs were seen. -/
def followed (task : DiscoveryTask) (result : DiscoveryResult) : List ExtractedLink :=
  if !(p.listFiles result.files).2 then []
  else if task.level < p.level then result.directories ++ result.unresolvedLinks
  else if task.level = p.level then
    result.unresolvedLinks.filter fun link => p.accepts link.url
  else []

/-- A visited page has a link that its turn followed. -/
def Follows (explore : ε → DiscoveryTask → DiscoveryResult) (outs : List (ε × Visit))
    (url url' : String) : Prop :=
  ∃ out ∈ outs, out.2.task.url = url ∧
    ∃ link ∈ p.followed out.2.task (explore out.1 out.2.task), link.url = url'

variable {p}

/-! ### What a turn does with the links it follows -/

/-- What `_enqueue_links` queues are links it was given and does not filter out, and all of these
are seen afterwards. -/
theorem enqueueLinks_follows (task : DiscoveryTask) (isLastLevel : Bool)
    (links : List ExtractedLink) (seenUrls : List String) :
    (∀ t ∈ (p.enqueueLinks task isLastLevel links seenUrls).1, ∃ link ∈ links,
        t.url = link.url ∧ (isLastLevel = true → p.accepts link.url = true)) ∧
      ∀ link ∈ links, (isLastLevel = true → p.accepts link.url = true) →
        link.url ∈ (p.enqueueLinks task isLastLevel links seenUrls).2 := by
  induction links generalizing seenUrls with
  | nil => exact ⟨nofun, nofun⟩
  | cons link rest ih =>
      -- what is seen stays seen, and a link of the rest is a link
      have hkeep : ∀ seenUrls', link.url ∈ seenUrls' →
          link.url ∈ (p.enqueueLinks task isLastLevel rest seenUrls').2 := fun seenUrls' hseen =>
        ((p.enqueued task isLastLevel rest seenUrls').mem_seen _).mpr (Or.inl hseen)
      have hwiden : ∀ {kept : ExtractedLink → Prop}, (∃ l ∈ rest, kept l) →
          ∃ l ∈ link :: rest, kept l := fun ⟨l, hl, h⟩ => ⟨l, List.mem_cons_of_mem _ hl, h⟩
      unfold enqueueLinks
      split
      · rename_i hseen
        obtain ⟨hqueued, hlinks⟩ := ih seenUrls
        refine ⟨fun t ht => hwiden (hqueued t ht), fun l hl hacc => ?_⟩
        rcases List.mem_cons.mp hl with rfl | hl
        · exact hkeep _ hseen
        · exact hlinks l hl hacc
      · split
        · rename_i hfiltered
          obtain ⟨hqueued, hlinks⟩ := ih seenUrls
          refine ⟨fun t ht => hwiden (hqueued t ht), fun l hl hacc => ?_⟩
          rcases List.mem_cons.mp hl with rfl | hl
          · rw [Bool.and_eq_true, Bool.not_eq_true'] at hfiltered
            rw [hacc hfiltered.1] at hfiltered
            exact absurd hfiltered.2 (by decide)
          · exact hlinks l hl hacc
        · rename_i hfiltered
          obtain ⟨hqueued, hlinks⟩ := ih (link.url :: seenUrls)
          refine ⟨fun t ht => ?_, fun l hl hacc => ?_⟩
          · rcases List.mem_cons.mp ht with rfl | ht
            · refine ⟨link, List.mem_cons_self, rfl, fun hlast => ?_⟩
              rw [hlast, Bool.true_and, Bool.not_eq_true', Bool.not_eq_false] at hfiltered
              exact hfiltered
            · exact hwiden (hqueued t ht)
          · rcases List.mem_cons.mp hl with rfl | hl
            · exact hkeep _ List.mem_cons_self
            · exact hlinks l hl hacc

/-- **What a turn queues** are links it follows, and these have all been seen after it. -/
theorem turn_follows {task : DiscoveryTask} {result : DiscoveryResult}
    {seenUrls seenUrls' : List String} {visit : Visit}
    (h : p.turn task result seenUrls = (visit, seenUrls')) :
    (∀ t ∈ visit.queued, ∃ link ∈ p.followed task result, t.url = link.url) ∧
      ∀ link ∈ p.followed task result, link.url ∈ seenUrls' := by
  unfold turn at h
  unfold followed
  dsimp only at h
  split at h
  · rename_i hraised
    obtain ⟨rfl, rfl⟩ := Prod.mk.inj h
    rw [if_pos hraised]
    exact ⟨nofun, nofun⟩
  · rename_i hlisted
    rw [if_neg hlisted]
    split at h
    · rename_i hlt
      obtain ⟨rfl, rfl⟩ := Prod.mk.inj h
      rw [if_pos hlt]
      obtain ⟨hdir, hdir'⟩ := p.enqueueLinks_follows task false result.directories seenUrls
      obtain ⟨hunres, hunres'⟩ := p.enqueueLinks_follows task false result.unresolvedLinks
        (p.enqueueLinks task false result.directories seenUrls).2
      refine ⟨fun t ht => ?_, fun link hlink => ?_⟩
      · rcases List.mem_append.mp ht with ht | ht
        · obtain ⟨link, hlink, hurl, -⟩ := hdir t ht
          exact ⟨link, List.mem_append_left _ hlink, hurl⟩
        · obtain ⟨link, hlink, hurl, -⟩ := hunres t ht
          exact ⟨link, List.mem_append_right _ hlink, hurl⟩
      · rcases List.mem_append.mp hlink with hlink | hlink
        · exact ((p.enqueued task false result.unresolvedLinks _).mem_seen _).mpr
            (Or.inl (hdir' link hlink nofun))
        · exact hunres' link hlink nofun
    · rename_i hge
      rw [if_neg hge]
      split at h
      · rename_i heq
        obtain ⟨rfl, rfl⟩ := Prod.mk.inj h
        rw [if_pos heq]
        obtain ⟨hqueued, hlinks⟩ := p.enqueueLinks_follows task true result.unresolvedLinks seenUrls
        refine ⟨fun t ht => ?_, fun link hlink => ?_⟩
        · obtain ⟨link, hlink, hurl, hacc⟩ := hqueued t ht
          exact ⟨link, List.mem_filter.mpr ⟨hlink, hacc rfl⟩, hurl⟩
        · obtain ⟨hlink, hacc⟩ := List.mem_filter.mp hlink
          exact hlinks link hlink fun _ => hacc
      · rename_i hne
        obtain ⟨rfl, rfl⟩ := Prod.mk.inj h
        rw [if_neg hne]
        exact ⟨nofun, nofun⟩

end CrawlParams

/-! ### The search -/

/-- A task, as a node with its distance from the start. -/
def DiscoveryTask.node (task : DiscoveryTask) : String × Nat := (task.url, task.level - 1)

/-- What has been visited and what is queued are a search; and all that was seen is among it. -/
structure LevelInv (p : CrawlParams) (explore : ε → DiscoveryTask → DiscoveryResult) (url : String)
    (s : CrawlState) (outs : List (ε × Visit)) : Prop where
  inv : CrawlInv p s outs
  explored : Layers.Explored (p.Follows explore outs) url
    (outs.map (·.2.task.node)) (s.queue.map DiscoveryTask.node)
  seen : ∀ url ∈ s.seenUrls,
    url ∈ outs.map (·.2.task.url) ++ s.queue.map DiscoveryTask.url

namespace LevelInv

variable {p : CrawlParams} {explore : ε → DiscoveryTask → DiscoveryResult} {url : String}
  {s s' : CrawlState} {event : ε} {outs out : List (ε × Visit)}

theorem start (h : p.start url = .ok s) : LevelInv p explore url s ([] : List (ε × Visit)) := by
  refine ⟨.start h, ?_, ?_⟩
  · obtain ⟨-, rfl⟩ := CrawlParams.start_eq_ok h
    exact Layers.explored_start
  · obtain ⟨-, rfl⟩ := CrawlParams.start_eq_ok h
    exact fun _ hurl => hurl

/-- The URLs of tasks are the keys of their nodes. -/
theorem exists_node {tasks : List DiscoveryTask} (h : url ∈ tasks.map DiscoveryTask.url) :
    ∃ e ∈ tasks.map DiscoveryTask.node, e.1 = url := by
  obtain ⟨t, ht, rfl⟩ := List.mem_map.mp h
  exact ⟨t.node, List.mem_map_of_mem ht, rfl⟩

theorem step (h : LevelInv p explore url s outs)
    (hstep : p.step explore s event = some (s', out)) :
    LevelInv p explore url s' (outs ++ out) := by
  have hinv' := h.inv.step hstep
  obtain ⟨task, rest, visit, seenUrls, hqueue, hturn, rfl, rfl⟩ := CrawlParams.step_cases hstep
  obtain ⟨htask, henq, -⟩ := CrawlParams.turn_queued hturn
  obtain ⟨hqueued, hlinks⟩ := CrawlParams.turn_follows hturn
  have hpos := (h.inv.queued task (hqueue ▸ List.mem_cons_self)).pos
  have hexplored := h.explored
  have hseen := h.seen
  have hnodup := h.inv.tracked.nodup
  rw [hqueue, List.map_cons] at hexplored hseen hnodup
  -- all URLs that were seen are those of tasks
  have hknown : ∀ u ∈ seenUrls, u ∈ outs.map (·.2.task.url) ++
      (task :: (rest ++ visit.queued)).map DiscoveryTask.url := by
    intro u hu
    rcases (henq.mem_seen u).mp hu with hu | hu
    · rcases List.mem_append.mp (hseen u hu) with hu | hu
      · exact List.mem_append_left _ hu
      · refine List.mem_append_right _ ?_
        rw [List.map_cons, List.map_append]
        exact List.mem_append_left _ hu
    · refine List.mem_append_right _ ?_
      rw [List.map_cons, List.map_append]
      exact List.mem_cons_of_mem _ (List.mem_append_right _ hu)
  -- and no page was visited under the URL of the task
  have hfirst : ∀ o ∈ outs, o.2.task.url ≠ task.url := fun o ho heq =>
    List.disjoint_of_nodup_append hnodup (List.mem_map_of_mem ho)
      (heq ▸ List.mem_cons_self)
  refine ⟨hinv', ?_, ?_⟩
  · rw [List.map_append, List.map_singleton, htask, List.map_append]
    refine hexplored.turn ?_ ?_ ?_ ?_
    · rintro x y ⟨o, ho, h⟩
      exact ⟨o, List.mem_append_left _ ho, h⟩
    · rintro e he q ⟨o, ho, hurl, hlink⟩
      obtain ⟨o', ho', rfl⟩ := List.mem_map.mp he
      rcases List.mem_append.mp ho with ho | ho
      · exact ⟨o, ho, hurl, hlink⟩
      · rw [List.mem_singleton.mp ho] at hurl
        exact absurd (hurl.symm.trans (congrArg DiscoveryTask.url htask)) (hfirst o' ho')
    · intro e he
      obtain ⟨t, ht, rfl⟩ := List.mem_map.mp he
      obtain ⟨link, hlink, hurl⟩ := hqueued t ht
      have hlevel := henq.level t ht
      refine ⟨⟨(event, visit), by simp, congrArg DiscoveryTask.url htask, link, ?_, hurl.symm⟩, ?_⟩
      · rw [htask]
        exact hlink
      · show t.level - 1 = task.level - 1 + 1
        omega
    · rintro q ⟨o, ho, hurl, link, hlink, rfl⟩
      rcases List.mem_append.mp ho with ho | ho
      · exact absurd hurl (hfirst o ho)
      · rw [List.mem_singleton.mp ho] at hlink
        dsimp only at hlink
        rw [htask] at hlink
        have hmem := hknown link.url (hlinks link hlink)
        have hnodes : (outs.map (·.2.task.node) ++ (task.url, task.level - 1) ::
            rest.map DiscoveryTask.node) ++ visit.queued.map DiscoveryTask.node =
            (outs.map (·.2.task) ++ task :: (rest ++ visit.queued)).map DiscoveryTask.node := by
          simp [DiscoveryTask.node]
        rw [hnodes]
        refine exists_node ?_
        rw [List.map_append, List.map_map]
        exact hmem
  · intro u hu
    have hmem := hknown u hu
    rw [List.map_append, List.map_singleton, htask, List.append_assoc]
    exact hmem

theorem of_produces {allowed : CrawlState → ε → Prop} {start : CrawlState}
    (hstart : p.start url = .ok start) (h : Produces (p.step explore) allowed start s outs) :
    LevelInv p explore url s outs :=
  h.invariant (.start hstart) fun hinv _ hstep => hinv.step hstep

end LevelInv

/-- **The crawl is breadth-first.** Pages are visited in the order of their levels; and once the
queue is empty, the pages visited at a level are those that the links followed reach in so many
steps, and in no fewer. -/
theorem crawl_breadth_first (p : CrawlParams) (explore : ε → DiscoveryTask → DiscoveryResult)
    (url : String) (start : CrawlState) (hstart : p.start url = .ok start) (s : CrawlState)
    (outs : List (ε × Visit))
    (h : Produces (p.step explore) (fun _ _ => True) start s outs) :
    (outs.map (·.2.task.level)).Pairwise (· ≤ ·) ∧
      (s.queue = [] → ∀ url' d,
        (∃ out ∈ outs, out.2.task.url = url' ∧ out.2.task.level = d + 1) ↔
          Layers.Within (p.Follows explore outs) url d url' ∧
            ∀ k, Layers.Within (p.Follows explore outs) url k url' → d ≤ k) := by
  have hinv := LevelInv.of_produces hstart h
  have hpos : ∀ out ∈ outs, 1 ≤ out.2.task.level := fun out hout =>
    (hinv.inv.visited out hout).pos
  constructor
  · have hsorted := (List.pairwise_append.mp hinv.explored.sorted).1
    rw [List.pairwise_map] at hsorted ⊢
    refine hsorted.imp_of_mem fun {a b} ha hb hle => ?_
    have ha := hpos a ha
    have hb := hpos b hb
    simp only [DiscoveryTask.node] at hle
    omega
  · intro hdone url' d
    have hover := hinv.explored
    rw [hdone, List.map_nil] at hover
    have hkeys : ((outs.map (·.2.task.node)).map Prod.fst).Nodup := by
      rw [List.map_map]
      exact hinv.inv.tracked.nodup_taken
    rw [← hover.taken_iff hkeys, List.mem_map]
    constructor
    · rintro ⟨out, hout, rfl, hlevel⟩
      refine ⟨out, hout, ?_⟩
      rw [DiscoveryTask.node, hlevel, Nat.add_sub_cancel]
    · rintro ⟨out, hout, hnode⟩
      obtain ⟨rfl, rfl⟩ := Prod.mk.inj hnode
      have hlevel := hpos out hout
      exact ⟨out, hout, rfl, by omega⟩

/-- A folder with two folders that both have a third one, which links back to the first. -/
def diamondSite (_ : Unit) (task : DiscoveryTask) : DiscoveryResult where
  directories :=
    if task.url = "/" then [⟨"/a/", some true, .get⟩, ⟨"/b/", some true, .get⟩]
    else if task.url = "/c/" then [⟨"/", some true, .get⟩]
    else [⟨"/c/", some true, .get⟩, ⟨"/b/", some true, .get⟩]

/-- The third folder is visited at the third level, though `/a/` also links to `/b/`. -/
theorem crawl_breadth_first_diamond :
    let step := (plainCrawl 3).step diamondSite
    let start : CrawlState := ⟨[{ url := "/", level := 1 }], ["/"]⟩
    let outs := runOuts step (fun _ _ => True) start [(), (), (), ()]
    Layers.Within ((plainCrawl 3).Follows diamondSite outs) "/" 2 "/c/" ∧
      ∀ k, Layers.Within ((plainCrawl 3).Follows diamondSite outs) "/" k "/c/" → 2 ≤ k :=
  ((crawl_breadth_first (plainCrawl 3) diamondSite "/" _ rfl _ _
    (produces_runTo _ _ _ [(), (), (), ()])).2 (by decide) "/c/" 2).mp (by decide)

end SDownload
