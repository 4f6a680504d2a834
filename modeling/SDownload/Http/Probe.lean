import SDownload.Http.Discovery

/-!
# SDownload.Http.Probe

What a probe changes that says nothing: `explore_resource`, when the reply to `OPTIONS`
fails or has none of the headers that are read.

`is_navigable` is unknown then, and the URL should be explored as if it had not been
probed. A probe that fails is passed over. A reply without a content type is not: the
unknown is taken for a no, and the URL for a file that needs no request. Both ways
agree where reading the URL would have found the same, which is that it is a file and
links to nothing (`uninformative_probe_iff`).
-/

namespace SDownload

/-! ### Replies that say nothing -/

/-- The probe fails, or its reply has neither a `DAV` header, nor `PROPFIND` in `Allow`, nor a
content type. -/
def Client.Uninformative (client : Client) (url : String) : Prop :=
  ∀ optResp, client.options url = some optResp →
    optResp.dav.getD "" = "" ∧ contains "PROPFIND" (optResp.allow.getD "") = false ∧
      optResp.contentType.getD "" = ""

/-- `is_directory`, in `_classify_and_extract`. -/
def Response.isDirectory (resp : Response) : Bool :=
  isNavigable "" (lower (resp.contentType.getD "")) = some true || resp.statusCode = 207

variable (lib : Parsers)

/-- All there is to learn from a page is that this URL is a file. It is not read and stands at the
URL, or it is read as a file at the URL without links, or it is a directory whose one link is the
URL. -/
def IsFileItself (url body : String) (resp : Response) : Prop :=
  match extractLinks lib body resp with
  | none => False
  | some none => resp.url = url
  | some (some links) =>
      if resp.isDirectory then ∃ methodHint, links = [⟨url, some false, methodHint⟩]
      else resp.url = url ∧ links = []

/-! ### The two ways -/

section Ways

variable {lib} {client : Client} {maxScrapeSize : Int} {url : String}

/-- With the hint, the URL is read. -/
theorem exploreResource_get :
    exploreResource lib client maxScrapeSize url .get false =
      exploreWithMethod lib client maxScrapeSize url .get false :=
  if_pos (by decide)

theorem exploreResource_of_failed_probe (h : client.options url = none) :
    exploreResource lib client maxScrapeSize url .unknown false =
      exploreWithMethod lib client maxScrapeSize url .get false := by
  unfold exploreResource
  rw [if_neg (by decide), h]
  rfl

/-- A reply that says nothing makes the URL a file. -/
theorem exploreResource_of_silent_probe (hsilent : client.Uninformative url) {optResp : Response}
    (h : client.options url = some optResp) :
    exploreResource lib client maxScrapeSize url .unknown false = { files := [url] } := by
  obtain ⟨hdav, hallow, hct⟩ := hsilent optResp h
  unfold exploreResource
  rw [if_neg (by decide), h]
  -- `is_navigable` is `None`, and `not None` holds
  simp only [hdav, hallow, hct]
  rfl

end Ways

/-! ### Pages that are read -/

/-- The three kinds of links are all links. -/
theorem links_kinds_iff {links : List ExtractedLink} {files : List String} :
    ((links.filter (·.isDir = some false)).map ExtractedLink.url = files ∧
        links.filter (·.isDir = some true) = [] ∧ links.filter (·.isDir = none) = []) ↔
      (∀ link ∈ links, link.isDir = some false) ∧ links.map ExtractedLink.url = files := by
  have hkinds : (∀ link ∈ links, link.isDir = some false) ↔
      links.filter (·.isDir = some true) = [] ∧ links.filter (·.isDir = none) = [] := by
    simp only [List.filter_eq_nil_iff, decide_eq_true_eq]
    constructor
    · intro h
      refine ⟨fun link hlink => ?_, fun link hlink => ?_⟩ <;> rw [h link hlink] <;> nofun
    · rintro ⟨hdir, hunresolved⟩ link hlink
      match hkind : link.isDir with
      | some false => rfl
      | some true => exact absurd hkind (hdir link hlink)
      | none => exact absurd hkind (hunresolved link hlink)
  rw [← hkinds, and_comm]
  refine and_congr_right fun h => ?_
  rw [List.filter_eq_self.mpr fun link hlink => decide_eq_true (h link hlink)]

theorem singleFile_iff {links : List ExtractedLink} {url : String} :
    ((∀ link ∈ links, link.isDir = some false) ∧ links.map ExtractedLink.url = [url]) ↔
      ∃ methodHint, links = [⟨url, some false, methodHint⟩] := by
  rw [List.map_eq_singleton_iff]
  constructor
  · rintro ⟨hfile, ⟨linkUrl, isDir, methodHint⟩, rfl, rfl⟩
    have hdir : isDir = some false := hfile _ (List.mem_singleton_self _)
    exact ⟨methodHint, by rw [hdir]⟩
  · rintro ⟨methodHint, rfl⟩
    exact ⟨fun link hlink => by rw [List.mem_singleton.mp hlink], _, rfl, rfl⟩

/-- What `_classify_and_extract` makes of a page. -/
theorem classifyAndExtract_eq_file_iff {url body : String} {resp : Response} :
    classifyAndExtract lib body resp = some { files := [url] } ↔
      IsFileItself lib url body resp := by
  unfold classifyAndExtract IsFileItself
  cases extractLinks lib body resp with
  | none => exact iff_of_false (by nofun) id
  | some read =>
      cases read with
      | none =>
          show some _ = some _ ↔ _
          simp
      | some links =>
          show some (DiscoveryResult.mk ((if resp.isDirectory then [] else [resp.url]) ++ _) _ _) =
            some _ ↔ _
          rw [Option.some_inj, DiscoveryResult.mk.injEq]
          cases resp.isDirectory with
          | true =>
              simp only [if_true, List.nil_append]
              rw [links_kinds_iff]
              exact singleFile_iff
          | false =>
              simp only [Bool.false_eq_true, if_false, List.singleton_append, List.cons.injEq,
                and_assoc]
              rw [links_kinds_iff]
              refine and_congr_right fun _ => ?_
              rw [List.map_eq_nil_iff]
              refine and_iff_right_of_imp ?_
              rintro rfl
              nofun

/-- The page that is read is nothing but a file, where the exploration finds that file and no
more. -/
theorem exploreWithMethod_eq_file_iff {client : Client} {maxScrapeSize : Int} {url : String}
    {method : DiscoveryMethod} :
    exploreWithMethod lib client maxScrapeSize url method false = { files := [url] } ↔
      ∃ body resp, fetchPage client maxScrapeSize url 1 method = some (body, resp) ∧
        IsFileItself lib url body resp := by
  unfold exploreWithMethod
  simp only [Bool.false_eq_true, if_false]
  cases fetchPage client maxScrapeSize url 1 method with
  | none => exact iff_of_false (by nofun) (by nofun)
  | some page =>
      obtain ⟨body, resp⟩ := page
      simp only [Option.some.injEq, Prod.mk.injEq, ← classifyAndExtract_eq_file_iff]
      constructor
      · intro h
        refine ⟨body, resp, ⟨rfl, rfl⟩, ?_⟩
        cases hclassify : classifyAndExtract lib body resp with
        | none =>
            rw [hclassify] at h
            cases h
        | some result =>
            rw [hclassify] at h
            exact congrArg some h
      · rintro ⟨_, _, ⟨rfl, rfl⟩, h⟩
        rw [h]
        rfl

/-! ### Both agree -/

/-- **A probe that says nothing changes nothing** where it fails, or where reading the URL finds
that it is a file and links to nothing else. -/
theorem uninformative_probe_iff (client : Client) (maxScrapeSize : Int) (url : String)
    (hsilent : client.Uninformative url) :
    exploreResource lib client maxScrapeSize url .unknown false =
        exploreResource lib client maxScrapeSize url .get false ↔
      client.options url = none ∨
        ∃ body resp, fetchPage client maxScrapeSize url 1 .get = some (body, resp) ∧
          IsFileItself lib url body resp := by
  rw [exploreResource_get]
  cases hprobe : client.options url with
  | none =>
      rw [exploreResource_of_failed_probe hprobe]
      exact iff_of_true rfl (.inl rfl)
  | some optResp =>
      rw [exploreResource_of_silent_probe hsilent hprobe, eq_comm, exploreWithMethod_eq_file_iff]
      exact (or_iff_right (by nofun)).symm

/-- A server of one page that replies to `OPTIONS` with none of the headers. -/
def silentSite (page : Page) : Client where
  options url := some { url := url, statusCode := 204, requestMethod := "OPTIONS" }
  stream := (pagesClient [page]).stream
  aiterText := (pagesClient [page]).aiterText

theorem silentSite_uninformative (page : Page) (url : String) :
    (silentSite page).Uninformative url := by
  intro optResp h
  obtain rfl := Option.some_inj.mp h
  refine ⟨rfl, ?_, rfl⟩
  show contains "PROPFIND" "" = false
  decide

/-- A file is found in both ways. -/
theorem uninformative_probe_file :
    exploreResource hrefParsers (silentSite ⟨"http://h/a.zip", "application/zip", "PK"⟩) 1048576
        "http://h/a.zip" .unknown false =
      exploreResource hrefParsers (silentSite ⟨"http://h/a.zip", "application/zip", "PK"⟩) 1048576
        "http://h/a.zip" .get false := by
  have hfile : IsFileItself hrefParsers "http://h/a.zip" "PK"
      { url := "http://h/a.zip", statusCode := 200, requestMethod := "GET"
        contentType := "application/zip" } := by
    unfold IsFileItself
    rw [show extractLinks hrefParsers "PK" _ = some none by decide]
  exact (uninformative_probe_iff hrefParsers _ _ _ (silentSite_uninformative _ _)).mpr
    (.inr ⟨"PK", _, by decide, hfile⟩)

/-- A page is a file after the probe, and a page without it. -/
theorem silent_probe_hides_page :
    (silentSite ⟨"http://h/", "text/html", "<a href=\"http://h/a.zip\"></a>"⟩).Uninformative
        "http://h/" ∧
      exploreResource hrefParsers
          (silentSite ⟨"http://h/", "text/html", "<a href=\"http://h/a.zip\"></a>"⟩) 1048576
          "http://h/" .unknown false = { files := ["http://h/"] } ∧
      exploreResource hrefParsers
          (silentSite ⟨"http://h/", "text/html", "<a href=\"http://h/a.zip\"></a>"⟩) 1048576
          "http://h/" .get false = { files := ["http://h/a.zip"] } :=
  ⟨silentSite_uninformative _ _, by decide, by decide⟩

end SDownload
