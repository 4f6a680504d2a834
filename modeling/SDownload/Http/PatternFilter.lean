import SDownload.Http.Crawl

/-!
# SDownload.Http.PatternFilter

Whether a pattern only filters what a crawl yields.

Two crawls of a site are compared, one with the pattern and one without. Up to the
requested level they take the same tasks: links are queued without a look at the
pattern. At that level the pattern is searched for in the URL of a link, and a link
it does not match is not probed, although its file would be yielded if the pattern
matches the **name** that is made of the URL.

So the crawl with the pattern yields the matching files of all tasks but those
probes (`crawl_pruned`), and it only filters the output if no file is lost with them
(`pattern_filters_iff`).
-/

namespace SDownload

/-! ### Crawls of a site that always replies the same -/

/-- The queues of crawls with these parameters, ordered by what turns can make of them. -/
structure CrawlQueue (p : CrawlParams) where
  tasks : List DiscoveryTask

instance (p : CrawlParams) : WellFoundedRelation (CrawlQueue p) where
  rel after before := WorkTurn p.below after.tasks before.tasks
  wf := InvImage.wf CrawlQueue.tasks (WorkTurn.wellFounded p.below)

namespace CrawlParams

variable (p : CrawlParams) (site : DiscoveryTask → DiscoveryResult)

/-- The loop of `list_resources` to its end. -/
def crawl (s : CrawlState) : List Visit :=
  match _h : p.step (fun _ : Unit => site) s () with
  | none => []
  | some (s', out) => out.map Prod.snd ++ crawl s'
termination_by (⟨s.queue⟩ : CrawlQueue p)
decreasing_by exact workTurn ‹_›

/-- The turns of a call. -/
def visits (url : String) : Except String (List Visit) :=
  (p.start url).map (p.crawl site)

/-- `list_resources`: what a call yields. -/
def listResources (url : String) : Except String (List String) :=
  (p.visits site url).map fun visits => visits.flatMap Visit.listed

/-- The same call without a pattern. -/
def unfiltered : CrawlParams :=
  { p with regex := none }

/-- The pattern matches the name of the file. -/
def nameMatches (url : String) : Bool :=
  match p.urlparse url with
  | none => false
  | some parsed => p.accepts (urlToFileName parsed)

variable {p site}

theorem crawl_nil {s : CrawlState} (h : s.queue = []) : p.crawl site s = [] := by
  have hstep : p.step (fun _ : Unit => site) s () = none := by
    unfold step
    rw [h]
  rw [crawl]
  split
  · rfl
  · rename_i hsome
    cases hstep.symm.trans hsome

/-- The first task, and the crawl from there on. -/
theorem crawl_cons {s : CrawlState} {task : DiscoveryTask} {rest : List DiscoveryTask}
    {visit : Visit} {seenUrls : List String} (hqueue : s.queue = task :: rest)
    (hturn : p.turn task (site task) s.seenUrls = (visit, seenUrls)) :
    p.crawl site s =
      visit :: p.crawl site { queue := rest ++ visit.queued, seenUrls := seenUrls } := by
  have hstep := @step_of_queue p Unit (fun _ => site) s () _ _ _ _ hqueue hturn
  rw [crawl]
  split
  · rename_i hnone
    cases hstep.symm.trans hnone
  · rename_i hsome
    obtain ⟨rfl, rfl⟩ := Prod.mk.inj (Option.some.inj (hsome.symm.trans hstep))
    rfl

/-- A run that empties the queue makes the turns of the crawl. -/
theorem crawl_of_replay {s last : CrawlState} {events : List Unit} {outs : List (Unit × Visit)}
    (h : replay (p.step fun _ => site) (fun _ _ => True) s events = some (last, outs))
    (hlast : last.queue = []) : p.crawl site s = outs.map Prod.snd := by
  induction events generalizing s outs with
  | nil =>
      obtain ⟨rfl, rfl⟩ := Prod.mk.inj (Option.some.inj h)
      exact crawl_nil hlast
  | cons event rest ih =>
      unfold replay at h
      rw [if_pos trivial] at h
      split at h
      · cases h
      · rename_i s' out hstep
        split at h
        · cases h
        · rename_i last' outs' hrest
          obtain ⟨rfl, rfl⟩ := Prod.mk.inj (Option.some.inj h)
          obtain ⟨task, tasks, visit, seenUrls, hqueue, hturn, rfl, rfl⟩ := step_cases hstep
          rw [crawl_cons hqueue hturn, ih hrest]
          rfl

/-! ### One turn with the pattern and without -/

theorem listFiles_filter (p : CrawlParams) (files : List String) :
    p.listFiles files =
      ((p.unfiltered.listFiles files).1.filter p.nameMatches,
        (p.unfiltered.listFiles files).2) := by
  induction files with
  | nil => rfl
  | cons fileUrl rest ih =>
      unfold listFiles
      cases hparse : p.urlparse fileUrl with
      | none =>
          rw [show p.unfiltered.urlparse fileUrl = none from hparse]
          rfl
      | some parsed =>
          rw [show p.unfiltered.urlparse fileUrl = some parsed from hparse, ih]
          have hname : p.nameMatches fileUrl = p.accepts (urlToFileName parsed) := by
            unfold nameMatches
            rw [hparse]
          dsimp only
          rw [show p.unfiltered.accepts (urlToFileName parsed) = true from rfl, if_pos rfl,
            List.filter_cons, hname]

theorem matching_filter (p : CrawlParams) (result : DiscoveryResult) :
    p.matching result = (p.unfiltered.matching result).filter p.nameMatches :=
  congrArg Prod.fst (p.listFiles_filter result.files)

/-- Links that are not of the last level are queued without a look at the pattern. -/
theorem enqueueLinks_unfiltered (p : CrawlParams) (task : DiscoveryTask)
    (links : List ExtractedLink)
    (seenUrls : List String) :
    p.enqueueLinks task false links seenUrls =
      p.unfiltered.enqueueLinks task false links seenUrls := by
  induction links generalizing seenUrls with
  | nil => rfl
  | cons link rest ih =>
      unfold enqueueLinks
      rw [ih, ih]
      rfl

/-- The pattern matches the URL of the task. -/
def accepted (p : CrawlParams) (task : DiscoveryTask) : Bool :=
  p.accepts task.url

/-- Two sets of seen URLs are the same, as far as the pattern matches. -/
def SameSeen (p : CrawlParams) (seenUrls seenUrls' : List String) : Prop :=
  ∀ url, p.accepts url = true → (url ∈ seenUrls ↔ url ∈ seenUrls')

/-- A link of the last level that the pattern does not match is passed over. -/
theorem enqueueLinks_pruned {task : DiscoveryTask} {link : ExtractedLink}
    {rest : List ExtractedLink} {seenUrls : List String} (h : p.accepts link.url = false) :
    p.enqueueLinks task true (link :: rest) seenUrls =
      p.enqueueLinks task true rest seenUrls := by
  rw [enqueueLinks, h, Bool.not_false, Bool.and_self, if_pos rfl, ite_self]

theorem enqueueLinks_seen {task : DiscoveryTask} {isLastLevel : Bool} {link : ExtractedLink}
    {rest : List ExtractedLink} {seenUrls : List String} (h : link.url ∈ seenUrls) :
    p.enqueueLinks task isLastLevel (link :: rest) seenUrls =
      p.enqueueLinks task isLastLevel rest seenUrls := by
  rw [enqueueLinks, if_pos h]

/-- A link of the last level that the pattern matches is queued, unless it was seen. -/
theorem enqueueLinks_new {task : DiscoveryTask} {link : ExtractedLink}
    {rest : List ExtractedLink} {seenUrls : List String} (hnew : link.url ∉ seenUrls)
    (h : p.accepts link.url = true) :
    p.enqueueLinks task true (link :: rest) seenUrls =
      (task.next true link :: (p.enqueueLinks task true rest (link.url :: seenUrls)).1,
        (p.enqueueLinks task true rest (link.url :: seenUrls)).2) := by
  rw [enqueueLinks, if_neg hnew, h, Bool.not_true, Bool.and_false, if_neg Bool.false_ne_true]

/-- Of the links of the last level, those are queued that the pattern matches. -/
theorem enqueueLinks_filter (task : DiscoveryTask) (links : List ExtractedLink)
    {seenUrls seenUrls' : List String} (hseen : p.SameSeen seenUrls seenUrls') :
    (p.enqueueLinks task true links seenUrls').1 =
        (p.unfiltered.enqueueLinks task true links seenUrls).1.filter p.accepted ∧
      p.SameSeen (p.unfiltered.enqueueLinks task true links seenUrls).2
        (p.enqueueLinks task true links seenUrls').2 := by
  induction links generalizing seenUrls seenUrls' with
  | nil => exact ⟨rfl, hseen⟩
  | cons link rest ih =>
      cases haccepts : p.accepts link.url with
      | true =>
          by_cases hmem : link.url ∈ seenUrls
          · rw [enqueueLinks_seen hmem, enqueueLinks_seen ((hseen _ haccepts).mp hmem)]
            exact ih hseen
          · have hseen' : p.SameSeen (link.url :: seenUrls) (link.url :: seenUrls') := by
              intro url hurl
              rw [List.mem_cons, List.mem_cons, hseen url hurl]
            obtain ⟨htasks, hafter⟩ := ih hseen'
            rw [enqueueLinks_new hmem rfl,
              enqueueLinks_new (fun hmem' => hmem ((hseen _ haccepts).mpr hmem')) haccepts]
            refine ⟨?_, hafter⟩
            have hin : p.accepted (task.next true link) = true := haccepts
            rw [List.filter_cons_of_pos hin, htasks]
      | false =>
          rw [enqueueLinks_pruned haccepts]
          by_cases hmem : link.url ∈ seenUrls
          · rw [enqueueLinks_seen hmem]
            exact ih hseen
          · -- only the crawl without a pattern queues it
            have hseen' : p.SameSeen (link.url :: seenUrls) seenUrls' := by
              intro url hurl
              have hne : url ≠ link.url := fun he => by
                rw [he, haccepts] at hurl
                cases hurl
              rw [List.mem_cons, or_iff_right hne, hseen url hurl]
            obtain ⟨htasks, hafter⟩ := ih hseen'
            rw [enqueueLinks_new hmem rfl]
            refine ⟨?_, hafter⟩
            have hout : ¬ p.accepted (task.next true link) = true :=
              Bool.eq_false_iff.mp haccepts
            rw [List.filter_cons_of_neg hout, htasks]

/-- Below the requested level the pattern has no say in what is queued. -/
theorem turn_below {task : DiscoveryTask} {result : DiscoveryResult} {seenUrls : List String}
    (hlevel : task.level < p.level) :
    (p.turn task result seenUrls).1.queued = (p.unfiltered.turn task result seenUrls).1.queued ∧
      (p.turn task result seenUrls).2 = (p.unfiltered.turn task result seenUrls).2 := by
  unfold turn
  rw [p.listFiles_filter]
  dsimp only
  rw [if_pos hlevel, if_pos (show task.level < p.unfiltered.level from hlevel),
    p.enqueueLinks_unfiltered, p.enqueueLinks_unfiltered]
  split
  · exact ⟨rfl, rfl⟩
  · exact ⟨rfl, rfl⟩

/-- At the requested level, those links are queued that the pattern matches. -/
theorem turn_at {task : DiscoveryTask} {result : DiscoveryResult} {seenUrls seenUrls' : List String}
    (hlevel : task.level = p.level) (hseen : p.SameSeen seenUrls seenUrls') :
    (p.turn task result seenUrls').1.queued =
        (p.unfiltered.turn task result seenUrls).1.queued.filter p.accepted ∧
      p.SameSeen (p.unfiltered.turn task result seenUrls).2 (p.turn task result seenUrls').2 := by
  unfold turn
  rw [p.listFiles_filter]
  dsimp only
  rw [if_neg hlevel.not_lt, if_neg (show ¬ task.level < p.unfiltered.level from hlevel.not_lt),
    if_pos hlevel, if_pos (show task.level = p.unfiltered.level from hlevel)]
  split
  · exact ⟨rfl, hseen⟩
  · exact enqueueLinks_filter task result.unresolvedLinks hseen

/-- A probe queues nothing. -/
theorem turn_probe {task : DiscoveryTask} {result : DiscoveryResult} {seenUrls : List String}
    (hlevel : p.level < task.level) :
    p.turn task result seenUrls = (⟨task, p.matching result, []⟩, seenUrls) := by
  unfold turn
  dsimp only
  rw [if_neg (Nat.not_lt_of_gt hlevel), if_neg (Nat.ne_of_gt hlevel), ite_self]

/-! ### The two crawls in lockstep -/

/-- The crawl without a pattern and the one with it: the same tasks up to the requested level, then
the probes, of which the second has those that the pattern matches. -/
structure Lockstep (p : CrawlParams) (full pruned : CrawlState)
    (front probes : List DiscoveryTask) : Prop where
  full_queue : full.queue = front ++ probes
  pruned_queue : pruned.queue = front ++ probes.filter p.accepted
  front_le : ∀ t ∈ front, t.level ≤ p.level
  probes_level : ∀ t ∈ probes, t.level = p.level + 1
  sorted : front.Pairwise fun t t' => t.level ≤ t'.level
  close : ∀ t ∈ front, ∀ t' ∈ front, t'.level ≤ t.level + 1
  /-- Until a task of the requested level is next, there is no difference. -/
  below : ∀ t ∈ front, t.level < p.level → probes = [] ∧ full.seenUrls = pruned.seenUrls
  sameSeen : p.SameSeen full.seenUrls pruned.seenUrls

namespace Lockstep

variable {full pruned : CrawlState} {task : DiscoveryTask} {rest front probes : List DiscoveryTask}
  {result : DiscoveryResult}

theorem start (p : CrawlParams) (url : String) (hlevel : 1 ≤ p.level) :
    p.Lockstep { queue := [{ url := url, level := 1 }], seenUrls := [url] }
      { queue := [{ url := url, level := 1 }], seenUrls := [url] }
      [{ url := url, level := 1 }] [] where
  full_queue := rfl
  pruned_queue := rfl
  front_le t ht := List.mem_singleton.mp ht ▸ hlevel
  probes_level := nofun
  sorted := List.pairwise_singleton _ _
  close t ht t' ht' := by
    rw [List.mem_singleton.mp ht, List.mem_singleton.mp ht']
    exact Nat.le_succ _
  below _ _ _ := ⟨rfl, rfl⟩
  sameSeen _ _ := Iff.rfl

/-- After a task below the requested level. -/
theorem next_below (h : p.Lockstep full pruned (task :: rest) probes)
    (hlevel : task.level < p.level) :
    probes = [] ∧ p.Lockstep
      { queue := rest ++ probes ++ (p.unfiltered.turn task result full.seenUrls).1.queued
        seenUrls := (p.unfiltered.turn task result full.seenUrls).2 }
      { queue := rest ++ probes.filter p.accepted ++ (p.turn task result pruned.seenUrls).1.queued
        seenUrls := (p.turn task result pruned.seenUrls).2 }
      (rest ++ (p.unfiltered.turn task result full.seenUrls).1.queued) [] := by
  obtain ⟨rfl, hseen⟩ := h.below task List.mem_cons_self hlevel
  refine ⟨rfl, ?_⟩
  have hqueued := (turn_queued (p := p.unfiltered) (Prod.eta
    (p.unfiltered.turn task result full.seenUrls)).symm).2.1.level
  obtain ⟨hsame, hseen'⟩ := @turn_below p task result full.seenUrls hlevel
  rw [← hseen, hsame, hseen']
  have hsorted := List.pairwise_cons.mp h.sorted
  constructor
  · simp
  · simp
  · intro t ht
    rcases List.mem_append.mp ht with ht | ht
    · exact h.front_le t (List.mem_cons_of_mem _ ht)
    · rw [hqueued t ht]
      omega
  · nofun
  · refine List.pairwise_append.mpr ⟨hsorted.2, ?_, ?_⟩
    · refine List.pairwise_of_forall_mem_list fun t ht t' ht' => ?_
      rw [hqueued t ht, hqueued t' ht']
    · intro t ht t' ht'
      rw [hqueued t' ht']
      exact h.close task List.mem_cons_self t (List.mem_cons_of_mem _ ht)
  · intro t ht t' ht'
    have hle : ∀ t ∈ rest ++ (p.unfiltered.turn task result full.seenUrls).1.queued,
        task.level ≤ t.level ∧ t.level ≤ task.level + 1 := by
      intro t ht
      rcases List.mem_append.mp ht with ht | ht
      · exact ⟨hsorted.1 t ht, h.close task List.mem_cons_self t (List.mem_cons_of_mem _ ht)⟩
      · rw [hqueued t ht]
        exact ⟨Nat.le_succ _, le_refl _⟩
    have := (hle t ht).1
    have := (hle t' ht').2
    omega
  · exact fun _ _ _ => ⟨rfl, rfl⟩
  · exact fun _ _ => Iff.rfl

/-- After a task of the requested level. -/
theorem next_at (h : p.Lockstep full pruned (task :: rest) probes) (hlevel : task.level = p.level) :
    p.Lockstep
      { queue := rest ++ probes ++ (p.unfiltered.turn task result full.seenUrls).1.queued
        seenUrls := (p.unfiltered.turn task result full.seenUrls).2 }
      { queue := rest ++ probes.filter p.accepted ++ (p.turn task result pruned.seenUrls).1.queued
        seenUrls := (p.turn task result pruned.seenUrls).2 }
      rest (probes ++ (p.unfiltered.turn task result full.seenUrls).1.queued) := by
  have hqueued := (turn_queued (p := p.unfiltered) (Prod.eta
    (p.unfiltered.turn task result full.seenUrls)).symm).2.1.level
  obtain ⟨hfilter, hsame⟩ := @turn_at p task result _ _ hlevel h.sameSeen
  have hsorted := List.pairwise_cons.mp h.sorted
  constructor
  · exact List.append_assoc ..
  · rw [List.filter_append, hfilter]
    exact List.append_assoc ..
  · exact fun t ht => h.front_le t (List.mem_cons_of_mem _ ht)
  · intro t ht
    rcases List.mem_append.mp ht with ht | ht
    · exact h.probes_level t ht
    · rw [hqueued t ht, hlevel]
  · exact hsorted.2
  · exact fun t ht t' ht' =>
      h.close t (List.mem_cons_of_mem _ ht) t' (List.mem_cons_of_mem _ ht')
  · intro t ht hlt
    have := hsorted.1 t ht
    omega
  · exact hsame

/-- After a probe that the pattern matches, which both crawls make. -/
theorem next_probe (h : p.Lockstep full pruned [] (task :: probes)) :
    p.Lockstep { queue := probes ++ [], seenUrls := full.seenUrls }
      { queue := probes.filter p.accepted ++ [], seenUrls := pruned.seenUrls } [] probes where
  full_queue := List.append_nil _
  pruned_queue := List.append_nil _
  front_le := nofun
  probes_level t ht := h.probes_level t (List.mem_cons_of_mem _ ht)
  sorted := .nil
  close := nofun
  below := nofun
  sameSeen := h.sameSeen

/-- After a probe that only the crawl without a pattern makes. -/
theorem next_pruned (h : p.Lockstep full pruned [] (task :: probes))
    (hpruned : ¬ p.accepted task = true) :
    p.Lockstep { queue := probes ++ [], seenUrls := full.seenUrls } pruned [] probes where
  full_queue := List.append_nil _
  pruned_queue := h.pruned_queue.trans (by rw [List.filter_cons_of_neg hpruned])
  front_le := nofun
  probes_level t ht := h.probes_level t (List.mem_cons_of_mem _ ht)
  sorted := .nil
  close := nofun
  below := nofun
  sameSeen := h.sameSeen

end Lockstep

/-- What the crawl with the pattern yields of a turn of the crawl without it. -/
def kept (p : CrawlParams) (visit : Visit) : List String :=
  if p.level < visit.task.level && !p.accepted visit.task then []
  else visit.listed.filter p.nameMatches

/-- A turn that both crawls make is kept, as far as the names match. -/
theorem turn_kept {task : DiscoveryTask} {result : DiscoveryResult}
    {seenUrls seenUrls' : List String}
    (h : task.level ≤ p.level ∨ p.accepted task = true) :
    (p.turn task result seenUrls').1.listed =
      p.kept (p.unfiltered.turn task result seenUrls).1 := by
  rw [turn_listed (Prod.eta _).symm, matching_filter]
  unfold kept
  rw [(turn_queued (p := p.unfiltered) (Prod.eta _).symm).1, turn_listed (Prod.eta _).symm]
  have hnot : ¬ (p.level < task.level && !p.accepted task) = true := by
    rw [Bool.and_eq_true, decide_eq_true_eq, Bool.not_eq_true']
    intro hboth
    rcases h with h | h
    · exact absurd hboth.1 (by omega)
    · exact absurd (h.symm.trans hboth.2) (by decide)
  rw [if_neg hnot]

/-- **What the crawl with the pattern yields**, in terms of the crawl without it. -/
theorem crawl_pruned {full pruned : CrawlState} {front probes : List DiscoveryTask}
    (h : p.Lockstep full pruned front probes) :
    (p.crawl site pruned).flatMap Visit.listed = (p.unfiltered.crawl site full).flatMap p.kept := by
  -- by induction on the queue of the crawl without a pattern
  induction hq : full.queue using (WorkTurn.wellFounded p.unfiltered.below).induction
    generalizing full pruned front probes with
  | _ queue ih =>
      subst hq
      have hnext : ∀ {task rest visit seenUrls front' probes' pruned'},
          full.queue = task :: rest →
          p.unfiltered.turn task (site task) full.seenUrls = (visit, seenUrls) →
          p.Lockstep { queue := rest ++ visit.queued, seenUrls := seenUrls } pruned' front'
            probes' →
          (p.crawl site pruned').flatMap Visit.listed =
            (p.unfiltered.crawl site
              { queue := rest ++ visit.queued, seenUrls := seenUrls }).flatMap p.kept := by
        intro task rest visit seenUrls front' probes' pruned' hqueue hturn hlock
        have hstep := @step_of_queue p.unfiltered Unit (fun _ => site) full () _ _ _ _ hqueue hturn
        exact ih _ (workTurn hstep) hlock rfl
      cases front with
      | cons task rest =>
          have hfull : full.queue = task :: (rest ++ probes) := h.full_queue
          have hpruned : pruned.queue = task :: (rest ++ probes.filter p.accepted) := h.pruned_queue
          have hle := h.front_le task List.mem_cons_self
          rw [crawl_cons hfull (Prod.eta _).symm, crawl_cons hpruned (Prod.eta _).symm,
            List.flatMap_cons, List.flatMap_cons, turn_kept (Or.inl hle)]
          congr 1
          rcases hle.lt_or_eq with hlt | heq
          · obtain ⟨-, hlock⟩ :=
              @Lockstep.next_below p full pruned task rest probes (site task) h hlt
            exact hnext hfull (Prod.eta _).symm hlock
          · exact hnext hfull (Prod.eta _).symm (h.next_at heq)
      | nil =>
          cases probes with
          | nil =>
              rw [crawl_nil h.full_queue, crawl_nil h.pruned_queue]
              rfl
          | cons task probes =>
              have hlevel : p.level < task.level := by
                rw [h.probes_level task List.mem_cons_self]
                exact Nat.lt_succ_self _
              have hfull : full.queue = task :: probes := h.full_queue
              have hturn := @turn_probe p.unfiltered task (site task) full.seenUrls hlevel
              by_cases haccepted : p.accepted task = true
              · have hpruned : pruned.queue = task :: probes.filter p.accepted :=
                  h.pruned_queue.trans (List.filter_cons_of_pos haccepted)
                have hkept := @turn_kept p task (site task) full.seenUrls pruned.seenUrls
                  (Or.inr haccepted)
                have hturn' := @turn_probe p task (site task) pruned.seenUrls hlevel
                rw [hturn, hturn'] at hkept
                rw [crawl_cons hfull hturn, crawl_cons hpruned hturn', List.flatMap_cons,
                  List.flatMap_cons, hkept]
                congr 1
                exact hnext hfull hturn h.next_probe
              · have hnone : p.kept ⟨task, p.unfiltered.matching (site task), []⟩ = [] := by
                  unfold kept
                  rw [if_pos]
                  rw [Bool.and_eq_true, decide_eq_true_eq, Bool.not_eq_true']
                  exact ⟨hlevel, Bool.not_eq_true _ ▸ haccepted⟩
                rw [crawl_cons hfull hturn, List.flatMap_cons, hnone, List.nil_append]
                exact hnext hfull hturn (h.next_pruned haccepted)

/-- The crawl is a run to the end. -/
theorem produces_crawl (p : CrawlParams) (site : DiscoveryTask → DiscoveryResult) (s : CrawlState) :
    ∃ last outs, Produces (p.step fun _ : Unit => site) (fun _ _ => True) s last outs ∧
      last.queue = [] ∧ p.crawl site s = outs.map Prod.snd := by
  obtain ⟨n, last, outs, hreplay, hlast⟩ := p.empties (fun _ : Unit => site) s fun _ => ()
  exact ⟨last, outs, produces_of_replay .start hreplay, hlast, crawl_of_replay hreplay hlast⟩

theorem listed_of_crawl {s : CrawlState} {visit : Visit} (h : visit ∈ p.crawl site s) :
    visit.listed = p.matching (site visit.task) := by
  obtain ⟨last, outs, hrun, -, hcrawl⟩ := p.produces_crawl site s
  rw [hcrawl] at h
  obtain ⟨out, hout, rfl⟩ := List.mem_map.mp h
  exact listed_of_produces hrun out hout

theorem visits_eq_ok {url : String} {visits : List Visit} (h : p.visits site url = .ok visits) :
    1 ≤ p.level ∧
      visits = p.crawl site { queue := [{ url := url, level := 1 }], seenUrls := [url] } := by
  unfold CrawlParams.visits at h
  cases hstart : p.start url with
  | error e =>
      rw [hstart] at h
      cases h
  | ok s =>
      rw [hstart] at h
      obtain ⟨hlevel, rfl⟩ := start_eq_ok hstart
      exact ⟨hlevel, (Except.ok.inj h).symm⟩

theorem visits_of_level (site : DiscoveryTask → DiscoveryResult) (url : String)
    (hlevel : 1 ≤ p.level) :
    p.visits site url =
      .ok (p.crawl site { queue := [{ url := url, level := 1 }], seenUrls := [url] }) := by
  unfold CrawlParams.visits start
  rw [if_neg (by omega)]
  rfl

/-- The turns of a call, from a run of them. -/
theorem visits_of_replay {url : String} {s : CrawlState} {visits : List Visit}
    (events : List Unit) (hstart : p.start url = .ok s)
    (h : (replay (p.step fun _ => site) (fun _ _ => True) s events).map
      (fun run => (run.1.queue, run.2.map Prod.snd)) = some ([], visits)) :
    p.visits site url = .ok visits := by
  obtain ⟨run, hreplay, hrun⟩ := Option.map_eq_some_iff.mp h
  obtain ⟨hlast, rfl⟩ := Prod.mk.inj hrun
  unfold CrawlParams.visits
  rw [hstart]
  exact congrArg Except.ok (crawl_of_replay hreplay hlast)

end CrawlParams

/-- Lists of lists of which some are left out are the same only if those are empty. -/
theorem flatMap_eq_iff_of_nil {α β : Type*} {f g : α → List β} {l : List α}
    (h : ∀ x ∈ l, g x = f x ∨ g x = []) :
    l.flatMap g = l.flatMap f ↔ ∀ x ∈ l, g x = f x := by
  have hsublist : ∀ l : List α, (∀ x ∈ l, g x = f x ∨ g x = []) →
      (l.flatMap g).Sublist (l.flatMap f) := by
    intro l hl
    induction l with
    | nil => exact List.Sublist.slnil
    | cons x rest ih =>
        rw [List.flatMap_cons, List.flatMap_cons]
        refine List.Sublist.append ?_ (ih fun y hy => hl y (List.mem_cons_of_mem _ hy))
        rcases hl x List.mem_cons_self with he | he
        · exact he ▸ List.Sublist.refl _
        · exact he ▸ List.nil_sublist _
  induction l with
  | nil => exact iff_of_true rfl nofun
  | cons x rest ih =>
      have hrest : ∀ y ∈ rest, g y = f y ∨ g y = [] := fun y hy => h y (List.mem_cons_of_mem _ hy)
      have hiff := ih hrest
      rw [List.flatMap_cons, List.flatMap_cons, List.forall_mem_cons]
      rcases h x List.mem_cons_self with he | he
      · rw [he, List.append_cancel_left_eq, and_iff_right rfl]
        exact hiff
      · constructor
        · intro heq
          have hle := (hsublist rest hrest).length_le
          have hlen := congrArg List.length heq
          rw [he, List.nil_append, List.length_append] at hlen
          have hnil : f x = [] := List.length_eq_zero_iff.mp (by omega)
          rw [he, hnil] at heq
          exact ⟨he.trans hnil.symm, hiff.mp heq⟩
        · intro hboth
          rw [hboth.1, hiff.mpr hboth.2]

/-- **When the pattern only filters the output.** A call with the pattern yields those URLs of the
call without it whose names match if and only if no probe of that call whose URL the pattern does
not match finds a file whose name it matches. -/
theorem pattern_filters_iff (p : CrawlParams) (site : DiscoveryTask → DiscoveryResult)
    (url : String)
    (visits : List Visit) (h : p.unfiltered.visits site url = .ok visits) :
    p.listResources site url =
        (p.unfiltered.listResources site url).map (fun urls => urls.filter p.nameMatches) ↔
      ∀ visit ∈ visits, p.level < visit.task.level → p.accepts visit.task.url = false →
        p.matching (site visit.task) = [] := by
  obtain ⟨hlevel, hvisits⟩ := CrawlParams.visits_eq_ok h
  have hpruned := @CrawlParams.crawl_pruned p site _ _ _ _ (.start p url hlevel)
  rw [← hvisits] at hpruned
  have hfull : (p.unfiltered.listResources site url).map (fun urls => urls.filter p.nameMatches) =
      .ok (visits.flatMap fun visit => visit.listed.filter p.nameMatches) := by
    unfold CrawlParams.listResources
    rw [h]
    exact congrArg Except.ok List.filter_flatMap
  rw [hfull, CrawlParams.listResources, @CrawlParams.visits_of_level p site url hlevel]
  show Except.ok (List.flatMap Visit.listed _) = Except.ok _ ↔ _
  rw [hpruned, Except.ok.injEq, flatMap_eq_iff_of_nil]
  · refine forall₂_congr fun visit hvisit => ?_
    rw [p.matching_filter, ← CrawlParams.listed_of_crawl (hvisits ▸ hvisit)]
    unfold CrawlParams.kept
    split
    · rename_i hcond
      rw [Bool.and_eq_true, decide_eq_true_eq, Bool.not_eq_true'] at hcond
      exact ⟨fun he _ _ => he.symm, fun he => (he hcond.1 hcond.2).symm⟩
    · rename_i hcond
      rw [Bool.and_eq_true, decide_eq_true_eq, Bool.not_eq_true'] at hcond
      exact iff_of_true rfl fun hlt hout => absurd ⟨hlt, hout⟩ hcond
  · intro visit _
    unfold CrawlParams.kept
    split
    · exact Or.inr rfl
    · exact Or.inl rfl

/-- The pattern for texts that end so, for one level. -/
def suffixCrawl (suffix : String) : CrawlParams :=
  ⟨1, some fun text => suffix.toList.isSuffixOf text.toList, httpUrlparse⟩

set_option maxRecDepth 4000 in
theorem pattern_filters_apiSite :
    (suffixCrawl ".bin").listResources
        (exploreTask hrefParsers 1048576 (apiSite "http://h/x.bin")) "http://h/" =
      ((suffixCrawl ".bin").unfiltered.listResources
        (exploreTask hrefParsers 1048576 (apiSite "http://h/x.bin")) "http://h/").map
          fun urls => urls.filter (suffixCrawl ".bin").nameMatches :=
  (pattern_filters_iff (suffixCrawl ".bin") _ "http://h/"
    [⟨{ url := "http://h/", level := 1 }, [],
        [{ url := "http://h/x.bin", level := 2, processOnlyFiles := true }]⟩,
      ⟨{ url := "http://h/x.bin", level := 2, processOnlyFiles := true }, ["http://h/x.bin"], []⟩]
    (CrawlParams.visits_of_replay [(), ()] rfl (by decide))).mpr (by decide)

set_option maxRecDepth 4000 in
/-- A file whose name ends in `.bin` only once it is made of the URL is lost with the pattern. -/
theorem pattern_loses_file :
    (suffixCrawl ".bin").listResources
        (exploreTask hrefParsers 1048576 (apiSite "http://h/download?id=1")) "http://h/" = .ok [] ∧
      (suffixCrawl ".bin").unfiltered.listResources
        (exploreTask hrefParsers 1048576 (apiSite "http://h/download?id=1")) "http://h/" =
          .ok ["http://h/download?id=1"] ∧
      (suffixCrawl ".bin").nameMatches "http://h/download?id=1" = true ∧
      (suffixCrawl ".bin").listResources
          (exploreTask hrefParsers 1048576 (apiSite "http://h/download?id=1")) "http://h/" ≠
        ((suffixCrawl ".bin").unfiltered.listResources
          (exploreTask hrefParsers 1048576 (apiSite "http://h/download?id=1")) "http://h/").map
            fun urls => urls.filter (suffixCrawl ".bin").nameMatches := by
  have hwith : (suffixCrawl ".bin").visits
      (exploreTask hrefParsers 1048576 (apiSite "http://h/download?id=1")) "http://h/" =
        .ok [⟨{ url := "http://h/", level := 1 }, [], []⟩] :=
    CrawlParams.visits_of_replay [()] rfl (by decide)
  have hwithout : (suffixCrawl ".bin").unfiltered.visits
      (exploreTask hrefParsers 1048576 (apiSite "http://h/download?id=1")) "http://h/" =
        .ok [⟨{ url := "http://h/", level := 1 }, [],
            [{ url := "http://h/download?id=1", level := 2, processOnlyFiles := true }]⟩,
          ⟨{ url := "http://h/download?id=1", level := 2, processOnlyFiles := true },
            ["http://h/download?id=1"], []⟩] :=
    CrawlParams.visits_of_replay [(), ()] rfl (by decide)
  have hname : (suffixCrawl ".bin").nameMatches "http://h/download?id=1" = true := by decide
  unfold CrawlParams.listResources
  rw [hwith, hwithout]
  refine ⟨rfl, rfl, hname, fun he => ?_⟩
  have hlost : [] = ["http://h/download?id=1"].filter (suffixCrawl ".bin").nameMatches :=
    Except.ok.inj he
  rw [List.filter_cons_of_pos hname] at hlost
  cases hlost

end SDownload
