import SDownload.Http.Crawl

/-!
# SDownload.Http.DepthLimit

Whether the crawl stops at the requested level.

The tasks of the level after it are probes, explored with `process_only_files`. A
probe is to say whether its URL is a file, and not to read a page. Of the ways out of
`explore_resource` one drops the restriction: a probe without a method hint whose
`OPTIONS` reply has a `DAV` header is explored as a listing.

`depth_limit_iff` says for which probes nothing goes wrong, and that in a run of such
probes every yielded URL is accounted for.
-/

namespace SDownload

variable (lib : Parsers) (client : Client) (maxScrapeSize : Int) (url : String)

/-! ### Where a request is answered, and what is linked there -/

/-- The URLs that requests of the exploration are answered from. -/
def Client.redirectTargets : List String :=
  [DiscoveryMethod.get, .propfind, .post].filterMap fun method =>
    (client.stream (requestOf method url)).map Response.url

/-- The links of the page that is read with this method. -/
def pageLinks (method : DiscoveryMethod) : List ExtractedLink :=
  match fetchPage client maxScrapeSize url 1 method with
  | none => []
  | some (body, resp) =>
      match extractLinks lib body resp with
      | some (some links) => links
      | _ => []

/-- The methods a page can be read with, for a hint. -/
def readMethods (methodHint : DiscoveryMethod) : List DiscoveryMethod :=
  if methodHint = .unknown then [.get, .propfind] else [methodHint]

/-- The URL itself, or one it is redirected to. -/
def Client.Answers (target : String) : Prop :=
  target = url ∨ target ∈ client.redirectTargets url

instance (target : String) : Decidable (client.Answers url target) := by
  unfold Client.Answers
  infer_instance

/-- The result is about the URL alone. -/
structure DiscoveryResult.OnlyProbed (result : DiscoveryResult) : Prop where
  directories : result.directories = []
  unresolvedLinks : result.unresolvedLinks = []
  files : ∀ file ∈ result.files, client.Answers url file

variable {lib client maxScrapeSize url}

theorem Client.mem_redirectTargets {method : DiscoveryMethod} {resp : Response}
    (h : client.stream (requestOf method url) = some resp) :
    resp.url ∈ client.redirectTargets url := by
  -- the other methods are requested with `GET`
  obtain ⟨method', hmem, heq⟩ : ∃ method' ∈ [DiscoveryMethod.get, .propfind, .post],
      requestOf method' url = requestOf method url := by
    cases method with
    | get => exact ⟨.get, by decide, rfl⟩
    | propfind => exact ⟨.propfind, by decide, rfl⟩
    | post => exact ⟨.post, by decide, rfl⟩
    | unknown => exact ⟨.get, by decide, rfl⟩
    | other => exact ⟨.get, by decide, rfl⟩
  refine List.mem_filterMap.mpr ⟨method', hmem, ?_⟩
  rw [heq, h]
  rfl

/-- The page that is read is one of those a request is answered with. -/
theorem fetchPage_answers {retries : Nat} {method : DiscoveryMethod} {body : String}
    {resp : Response} (h : fetchPage client maxScrapeSize url retries method = some (body, resp)) :
    resp.url ∈ client.redirectTargets url := by
  induction retries generalizing method with
  | zero =>
      unfold fetchPage at h
      split at h
      · cases h
      · rename_i resp' hstream
        split at h
        · cases h
        · obtain ⟨-, rfl⟩ := Prod.mk.inj (Option.some.inj h)
          exact Client.mem_redirectTargets hstream
  | succ retries ih =>
      unfold fetchPage at h
      split at h
      · cases h
      · rename_i resp' hstream
        split at h
        · cases h
        · dsimp only at h
          split at h
          · exact ih h
          · split at h
            · exact ih h
            · obtain ⟨-, rfl⟩ := Prod.mk.inj (Option.some.inj h)
              exact Client.mem_redirectTargets hstream

/-! ### What an exploration finds -/

/-- **What a page is explored to**: its links by kind, and before the files maybe the page
itself. -/
theorem exploreWithMethod_page (method : DiscoveryMethod) :
    let result := exploreWithMethod lib client maxScrapeSize url method false
    let links := pageLinks lib client maxScrapeSize url method
    result.directories = links.filter (·.isDir = some true) ∧
      result.unresolvedLinks = links.filter (·.isDir = none) ∧
      ∃ own : List String, (∀ file ∈ own, file ∈ client.redirectTargets url) ∧
        result.files = own ++ (links.filter (·.isDir = some false)).map ExtractedLink.url := by
  dsimp only
  unfold exploreWithMethod pageLinks
  rw [if_neg Bool.false_ne_true]
  cases hpage : fetchPage client maxScrapeSize url 1 method with
  | none => exact ⟨rfl, rfl, [], nofun, rfl⟩
  | some page =>
      obtain ⟨body, resp⟩ := page
      have hown : ∀ file ∈ [resp.url], file ∈ client.redirectTargets url :=
        fun file hfile => List.mem_singleton.mp hfile ▸ fetchPage_answers hpage
      dsimp only
      unfold classifyAndExtract
      cases extractLinks lib body resp with
      | none => exact ⟨rfl, rfl, [], nofun, rfl⟩
      | some read =>
          cases read with
          | none => exact ⟨rfl, rfl, [resp.url], hown, rfl⟩
          | some links =>
              refine ⟨rfl, rfl, _, ?_, rfl⟩
              intro file hfile
              split at hfile
              · cases hfile
              · exact hown file hfile

/-- A page is about the URL alone if all its links are, as files. -/
theorem onlyProbed_page_iff (method : DiscoveryMethod) :
    (exploreWithMethod lib client maxScrapeSize url method false).OnlyProbed client url ↔
      ∀ link ∈ pageLinks lib client maxScrapeSize url method,
        link.isDir = some false ∧ client.Answers url link.url := by
  obtain ⟨hdirs, hunresolved, own, hown, hfiles⟩ := @exploreWithMethod_page lib client
    maxScrapeSize url method
  constructor
  · intro h link hlink
    have hfile : link.isDir = some false := by
      cases hdir : link.isDir with
      | none =>
          have hmem : link ∈ (pageLinks lib client maxScrapeSize url method).filter
              (·.isDir = none) := List.mem_filter.mpr ⟨hlink, decide_eq_true hdir⟩
          rw [← hunresolved, h.unresolvedLinks] at hmem
          cases hmem
      | some isDir =>
          cases isDir with
          | false => rfl
          | true =>
              have hmem : link ∈ (pageLinks lib client maxScrapeSize url method).filter
                  (·.isDir = some true) := List.mem_filter.mpr ⟨hlink, decide_eq_true hdir⟩
              rw [← hdirs, h.directories] at hmem
              cases hmem
    refine ⟨hfile, h.files link.url ?_⟩
    rw [hfiles]
    exact List.mem_append_right _
      (List.mem_map_of_mem (List.mem_filter.mpr ⟨hlink, decide_eq_true hfile⟩))
  · intro h
    constructor
    · rw [hdirs]
      refine List.filter_eq_nil_iff.mpr fun link hlink hdir => ?_
      cases (h link hlink).1.symm.trans (of_decide_eq_true hdir)
    · rw [hunresolved]
      refine List.filter_eq_nil_iff.mpr fun link hlink hdir => ?_
      cases (h link hlink).1.symm.trans (of_decide_eq_true hdir)
    · intro file hfile
      rw [hfiles] at hfile
      rcases List.mem_append.mp hfile with hfile | hfile
      · exact Or.inr (hown file hfile)
      · obtain ⟨link, hlink, rfl⟩ := List.mem_map.mp hfile
        exact (h link (List.mem_filter.mp hlink).1).2

/-- With the restriction, no page is read. -/
theorem onlyProbed_processOnlyFiles (method : DiscoveryMethod) :
    (exploreWithMethod lib client maxScrapeSize url method true).OnlyProbed client url := by
  unfold exploreWithMethod
  rw [if_pos rfl]
  cases hstream : client.stream (requestOf method url) with
  | none => exact ⟨rfl, rfl, nofun⟩
  | some resp =>
      dsimp only
      unfold classifyProcessOnlyFilesResponse
      cases lib.getUrlExtension url with
      | none => exact ⟨rfl, rfl, nofun⟩
      | some ext =>
          rw [Option.map_some, Option.getD_some]
          split
          · refine ⟨rfl, rfl, fun file hfile => Or.inr ?_⟩
            exact List.mem_singleton.mp hfile ▸ Client.mem_redirectTargets hstream
          · exact ⟨rfl, rfl, nofun⟩

/-- The URL, where it is redirected to, or a link of a page that is read with one of the methods. -/
def FoundWith (lib : Parsers) (client : Client) (maxScrapeSize : Int) (url : String)
    (methods : List DiscoveryMethod) (file : String) : Prop :=
  client.Answers url file ∨
    ∃ method ∈ methods, ∃ link ∈ pageLinks lib client maxScrapeSize url method, link.url = file

theorem exploreWithMethod_files {methods : List DiscoveryMethod} {method : DiscoveryMethod}
    {processOnlyFiles : Bool} {file : String} (hmethod : method ∈ methods)
    (h : file ∈ (exploreWithMethod lib client maxScrapeSize url method processOnlyFiles).files) :
    FoundWith lib client maxScrapeSize url methods file := by
  cases processOnlyFiles with
  | true => exact Or.inl ((onlyProbed_processOnlyFiles method).files file h)
  | false =>
      obtain ⟨-, -, own, hown, hfiles⟩ :=
        @exploreWithMethod_page lib client maxScrapeSize url method
      rw [hfiles] at h
      rcases List.mem_append.mp h with h | h
      · exact Or.inl (Or.inr (hown file h))
      · obtain ⟨link, hlink, rfl⟩ := List.mem_map.mp h
        exact Or.inr ⟨method, hmethod, link, (List.mem_filter.mp hlink).1, rfl⟩

/-- Whatever is explored, its files are the URL, where it is redirected to, and links of its
page. -/
theorem exploreResource_files {methodHint : DiscoveryMethod} {processOnlyFiles : Bool}
    {file : String}
    (h : file ∈ (exploreResource lib client maxScrapeSize url methodHint processOnlyFiles).files) :
    FoundWith lib client maxScrapeSize url (readMethods methodHint) file := by
  have hunprobed : methodHint = .unknown →
      file ∈ (exploreUnprobed lib client maxScrapeSize url processOnlyFiles).files →
        FoundWith lib client maxScrapeSize url (readMethods methodHint) file := by
    intro hhint hfile
    unfold exploreUnprobed at hfile
    split at hfile
    · cases hfile
    · exact exploreWithMethod_files (by rw [hhint]; decide) hfile
  unfold exploreResource at h
  split at h
  · rename_i hhint
    refine exploreWithMethod_files ?_ h
    unfold readMethods
    rw [if_neg hhint]
    exact List.mem_singleton_self methodHint
  · rename_i hhint
    obtain rfl := not_not.mp hhint
    split at h
    · exact hunprobed rfl h
    · split at h
      · exact exploreWithMethod_files (by decide) h
      · split at h
        · exact Or.inl (Or.inl (List.mem_singleton.mp h))
        · exact hunprobed rfl h

/-! ### The probes -/

variable (lib client maxScrapeSize url) in
/-- When a probe stays with its URL: its method is known, or the `OPTIONS` reply does not have a
`DAV` header, or the listing links to no more than the URL, as a file. -/
def ProbeStays (methodHint : DiscoveryMethod) : Prop :=
  methodHint ≠ .unknown ∨ ∀ optResp ∈ client.options url, optResp.dav.getD "" = "" ∨
    ∀ link ∈ pageLinks lib client maxScrapeSize url .propfind,
      link.isDir = some false ∧ client.Answers url link.url

/-- A probe is about its URL alone exactly when it stays with it. -/
theorem onlyProbed_probe_iff (methodHint : DiscoveryMethod) :
    (exploreResource lib client maxScrapeSize url methodHint true).OnlyProbed client url ↔
      ProbeStays lib client maxScrapeSize url methodHint := by
  unfold exploreResource ProbeStays
  by_cases hhint : methodHint = .unknown
  · rw [if_neg (not_not.mpr hhint), or_iff_right (not_not.mpr hhint)]
    unfold exploreUnprobed
    cases client.options url with
    | none => exact iff_of_true ⟨rfl, rfl, nofun⟩ nofun
    | some optResp =>
        have hmem : ∀ P : Response → Prop, (∀ resp ∈ some optResp, P resp) ↔ P optResp :=
          fun P => ⟨fun h => h optResp rfl, fun h resp hresp => Option.some.inj hresp ▸ h⟩
        rw [hmem]
        dsimp only
        by_cases hdav : optResp.dav.getD "" = ""
        · -- without the header a probe is never a listing
          rw [if_neg (by simp [hdav]), if_pos rfl]
          refine iff_of_true ?_ (Or.inl hdav)
          split
          · exact ⟨rfl, rfl, fun file hfile => Or.inl (List.mem_singleton.mp hfile)⟩
          · exact ⟨rfl, rfl, nofun⟩
        · rw [if_pos (by simp [hdav]), or_iff_right hdav]
          exact onlyProbed_page_iff .propfind
  · rw [if_pos hhint]
    exact iff_of_true (onlyProbed_processOnlyFiles methodHint) (Or.inl hhint)

instance (methodHint : DiscoveryMethod) :
    Decidable (ProbeStays lib client maxScrapeSize url methodHint) := by
  unfold ProbeStays
  infer_instance

/-! ### Whole runs -/

variable (lib maxScrapeSize) in
/-- If the next task is a probe, it stays with its URL. -/
def ProbesStay (s : CrawlState) (client : Client) : Prop :=
  ∀ task ∈ s.queue.head?, task.processOnlyFiles = true →
    ProbeStays lib client maxScrapeSize task.url task.methodHint

instance (s : CrawlState) (client : Client) :
    Decidable (ProbesStay lib maxScrapeSize s client) := by
  unfold ProbesStay
  infer_instance

/-- A yielded URL belongs to the task: it is the task's URL or where that is redirected to, or, up
to the requested level, a link of the task's page. -/
def Accounted (lib : Parsers) (maxScrapeSize : Int) (level : Nat) (client : Client)
    (task : DiscoveryTask) (file : String) : Prop :=
  client.Answers task.url file ∨ task.level ≤ level ∧
    ∃ method ∈ readMethods task.methodHint,
      ∃ link ∈ pageLinks lib client maxScrapeSize task.url method, link.url = file

instance (level : Nat) (task : DiscoveryTask) (file : String) :
    Decidable (Accounted lib maxScrapeSize level client task file) := by
  unfold Accounted
  infer_instance

/-- What is yielded of a result are files of it. -/
theorem CrawlParams.mem_files_of_mem_listFiles {p : CrawlParams} {files : List String}
    {file : String}
    (h : file ∈ (p.listFiles files).1) : file ∈ files := by
  induction files with
  | nil => cases h
  | cons first rest ih =>
      unfold CrawlParams.listFiles at h
      split at h
      · cases h
      · dsimp only at h
        split at h
        · rcases List.mem_cons.mp h with rfl | h
          · exact List.mem_cons_self
          · exact List.mem_cons_of_mem _ (ih h)
        · exact List.mem_cons_of_mem _ (ih h)

/-- What a turn yields is accounted for, if its task is no probe or one that stays. -/
theorem accounted_of_explored {p : CrawlParams} {task : DiscoveryTask} {file : String}
    (htask : p.Leveled task)
    (hprobe : task.processOnlyFiles = true →
      ProbeStays lib client maxScrapeSize task.url task.methodHint)
    (hfile : file ∈ (exploreTask lib maxScrapeSize client task).files) :
    Accounted lib maxScrapeSize p.level client task file := by
  unfold exploreTask at hfile
  by_cases hpof : task.processOnlyFiles = true
  · rw [hpof] at hfile
    exact Or.inl (((onlyProbed_probe_iff task.methodHint).mpr (hprobe hpof)).files file hfile)
  · have hne : task.level ≠ p.level + 1 := by
      intro he
      rw [htask.processOnlyFiles, decide_eq_true he] at hpof
      exact hpof rfl
    have hle := htask.le
    refine (exploreResource_files hfile).imp_right fun hlink => ⟨by omega, hlink⟩

/-- In a run of probes that stay, everything is accounted for. -/
theorem accounted_of_produces {p : CrawlParams} {start s : CrawlState}
    {outs : List (Client × Visit)} (hstart : p.start url = .ok start)
    (hrun : Produces (p.step (exploreTask lib maxScrapeSize)) (ProbesStay lib maxScrapeSize)
      start s outs) :
    ∀ out ∈ outs, ∀ file ∈ out.2.listed,
      Accounted lib maxScrapeSize p.level out.1 out.2.task file := by
  induction hrun with
  | start => nofun
  | step hbefore hallowed hstep ih =>
      have hinv := CrawlInv.of_produces hstart hbefore
      obtain ⟨task, rest, visit, seenUrls, hqueue, hturn, -, rfl⟩ := CrawlParams.step_cases hstep
      intro out hout file hfile
      rcases List.mem_append.mp hout with hout | hout
      · exact ih out hout file hfile
      · rw [List.mem_singleton.mp hout] at hfile ⊢
        dsimp only at hfile ⊢
        rw [(CrawlParams.turn_queued hturn).1]
        rw [CrawlParams.turn_listed hturn] at hfile
        refine accounted_of_explored (hinv.queued task (hqueue ▸ List.mem_cons_self)) ?_
          (CrawlParams.mem_files_of_mem_listFiles hfile)
        exact hallowed task (by rw [hqueue]; rfl)

/-- **When the depth limit is exact.** A probe is about its URL alone if and only if it stays with
it, which it fails to do only behind a `DAV` header; and in every run of probes that stay, every
yielded URL is the URL of a task, where that is redirected to, or a link of the page of a task whose
level is at most the requested one. -/
theorem depth_limit_iff (lib : Parsers) (maxSizeBytes : Int) :
    (∀ client url methodHint,
      (exploreResource lib client maxSizeBytes url methodHint true).OnlyProbed client url ↔
        ProbeStays lib client maxSizeBytes url methodHint) ∧
    ∀ (p : CrawlParams) (url : String) (start s : CrawlState) (outs : List (Client × Visit)),
      p.start url = .ok start →
      Produces (p.step (exploreTask lib maxSizeBytes)) (ProbesStay lib maxSizeBytes) start s outs →
      ∀ out ∈ outs, ∀ file ∈ out.2.listed,
        Accounted lib maxSizeBytes p.level out.1 out.2.task file :=
  ⟨fun _ _ methodHint => onlyProbed_probe_iff methodHint,
    fun _ _ _ _ _ hstart hrun => accounted_of_produces hstart hrun⟩

set_option maxRecDepth 4000 in
theorem depth_limit_apiSite :
    ∃ outs : List (Client × Visit), outs.flatMap (·.2.listed) = ["http://h/x.bin"] ∧
      ∀ out ∈ outs, ∀ file ∈ out.2.listed,
        Accounted hrefParsers 1048576 1 out.1 out.2.task file :=
  ⟨_, by decide, (depth_limit_iff hrefParsers 1048576).2 (plainCrawl 1) "http://h/" _ _ _ rfl
    (produces_runTo _ _ _ [apiSite "http://h/x.bin", apiSite "http://h/x.bin"])⟩

/-- The text of a listing, of one file in the folder. -/
def davText : String :=
  "<d:multistatus xmlns:d=\"DAV:\"><d:response><d:href>http://h/dav/inner.bin</d:href>" ++
    "</d:response></d:multistatus>"

/-- The parsers, with what `ElementTree` makes of the listing. -/
def davParsers : Parsers :=
  { hrefParsers with
    fromstring := fun content =>
      if content = davText then
        some (.node "{DAV:}multistatus" none [.node "{DAV:}response" none
          [.node "{DAV:}href" (some "http://h/dav/inner.bin") []]])
      else none }

/-- An API whose reply names a folder, on a server that speaks WebDAV. -/
def davSite : Client :=
  let page : Response :=
    { url := "http://h/", statusCode := 200, requestMethod := "GET",
      contentType := "application/json" }
  let folder : Response :=
    { url := "http://h/dav/", statusCode := 207, requestMethod := "PROPFIND",
      contentType := "application/xml", dav := "1" }
  { options := fun url =>
      if url = "http://h/" then some { page with requestMethod := "OPTIONS" }
      else if url = "http://h/dav/" then some { folder with requestMethod := "OPTIONS" }
      else none
    stream := fun request =>
      if request = requestOf .get "http://h/" then some page
      else if request = requestOf .propfind "http://h/dav/" then some folder
      else none
    aiterText := fun request =>
      if request = requestOf .get "http://h/" then some (["[\"http://h/dav/\"]"], false)
      else if request = requestOf .propfind "http://h/dav/" then some ([davText], false)
      else none }

set_option maxRecDepth 8000 in
/-- A crawl of one level yields a file out of a folder that one page of that level names. -/
theorem depth_limit_davSite :
    ¬ (exploreResource davParsers davSite 1048576 "http://h/dav/" .unknown true).OnlyProbed
      davSite "http://h/dav/" ∧
    ∃ start s outs, (plainCrawl 1).start "http://h/" = .ok start ∧
      Produces ((plainCrawl 1).step (exploreTask davParsers 1048576)) (fun _ _ => True)
        start s outs ∧
      ∃ out ∈ outs, ∃ file ∈ out.2.listed,
        ∀ out' ∈ outs, ¬ Accounted davParsers 1048576 1 out'.1 out'.2.task file :=
  ⟨fun h => absurd (h.files "http://h/dav/inner.bin" (by decide)) (by decide),
    _, _, _, rfl, produces_runTo _ _ _ [davSite, davSite], by decide⟩

end SDownload
