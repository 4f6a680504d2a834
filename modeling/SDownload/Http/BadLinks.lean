import SDownload.Http.Discovery
import SDownload.Lib.FirstOccurrences

/-!
# SDownload.Http.BadLinks

What one bad link does to a page: `TextPatternExtractor.extract`.

A page should give one link for each URL its matches name, whatever else is between
them: an attribute that is empty, or one that `urljoin` or `urlparse` refuses, names
no URL. `extract` gives these links where every match names a URL, and only there
(`extract_spares_bad_links_iff`): it calls `rstrip` on the URL before it asks whether
there is one, and lets a `ValueError` through. Whoever explores the page catches
either exception, and finds nothing on it (`explore_of_bad_link`).
-/

namespace SDownload

/-! ### The links of a page -/

/-- A match of one of the two patterns. -/
structure TextMatch where
  rawLink : String
  fromNativeHtml : Bool
  deriving Repr, DecidableEq

/-- The URL of a match. -/
structure FoundUrl where
  url : String
  fromNativeHtml : Bool
  deriving Repr, DecidableEq

/-- What two URLs have in common that differ in trailing slashes. -/
def FoundUrl.key (found : FoundUrl) : String :=
  rstripSlash found.url

namespace Parsers

variable (lib : Parsers)

/-- The matches of both patterns, in their order. -/
def textMatches (content : String) : List TextMatch :=
  (lib.attrRegex content).map (⟨·, true⟩) ++ (lib.absUrlRegex content).map (⟨·, false⟩)

/-- A link that is neither empty nor refused: `urljoin` takes it, and `urlparse` what comes of
it. -/
def WellFormed (baseUrl rawLink : String) : Prop :=
  rawLink ≠ "" ∧ lib.unescape (strip rawLink) ≠ "" ∧
    ∃ absolute ∈ lib.urljoin baseUrl (lib.unescape (strip rawLink)), (lib.urlparse absolute).isSome

/-- The URL a match names, where it has one and it is one of the web. -/
def foundUrl (baseUrl : String) (m : TextMatch) : Option FoundUrl :=
  match lib.normalizeUrl m.rawLink baseUrl with
  | some (some url) => if contains "http" url then some ⟨url, m.fromNativeHtml⟩ else none
  | _ => none

/-- The URLs of a page in the order of its matches, each one once up to trailing slashes. -/
def distinctUrls (baseUrl : String) (found : List TextMatch) : List FoundUrl :=
  firstOccurrences FoundUrl.key (found.filterMap (lib.foundUrl baseUrl))

/-- The link to a URL. -/
def linkTo (found : FoundUrl) : ExtractedLink :=
  let isDir := isNavigable ((lib.getUrlExtension found.url).getD "") ""
  ⟨found.url, isDir, if found.fromNativeHtml || isDir = some false then .get else .unknown⟩

/-- A page gives one link for each of its URLs, and the same ones without a bad link. -/
structure SparesBadLinks (content baseUrl : String) : Prop where
  oneEach : lib.textExtract content baseUrl =
    some ((lib.distinctUrls baseUrl (lib.textMatches content)).map lib.linkTo)
  removal : ∀ (content' : String) (before after : List TextMatch) (bad : TextMatch),
    lib.textMatches content = before ++ bad :: after → lib.textMatches content' = before ++ after →
      ¬ lib.WellFormed baseUrl bad.rawLink →
        lib.textExtract content' baseUrl = lib.textExtract content baseUrl

end Parsers

/-! ### One match -/

namespace Parsers

variable {lib : Parsers} {baseUrl : String}

theorem normalizeUrl_eq_some_some_iff {rawLink url : String} :
    lib.normalizeUrl rawLink baseUrl = some (some url) ↔
      rawLink ≠ "" ∧ lib.unescape (strip rawLink) ≠ "" ∧
        ∃ absolute ∈ lib.urljoin baseUrl (lib.unescape (strip rawLink)),
          (lib.urlparse absolute).isSome ∧ lib.withoutFragment absolute = url := by
  unfold normalizeUrl
  by_cases hraw : rawLink = ""
  · simp [hraw]
  by_cases hlink : lib.unescape (strip rawLink) = ""
  · simp [hraw, hlink]
  simp only [hraw, hlink, if_false, ne_eq, not_false_eq_true, true_and]
  cases hjoin : lib.urljoin baseUrl (lib.unescape (strip rawLink)) with
  | none => simp
  | some absolute =>
      cases hparse : lib.urlparse absolute with
      | none => simp [hparse]
      | some parsed => simp [hparse]

/-- A well-formed link is one `normalize_url` makes a URL of. -/
theorem wellFormed_iff {rawLink : String} :
    lib.WellFormed baseUrl rawLink ↔ ∃ url, lib.normalizeUrl rawLink baseUrl = some (some url) := by
  unfold WellFormed
  simp only [normalizeUrl_eq_some_some_iff]
  constructor
  · rintro ⟨hraw, hlink, absolute, hjoin, hparse⟩
    exact ⟨_, hraw, hlink, absolute, hjoin, hparse, rfl⟩
  · rintro ⟨_, hraw, hlink, absolute, hjoin, hparse, -⟩
    exact ⟨hraw, hlink, absolute, hjoin, hparse⟩

/-- A bad link names no URL. -/
theorem foundUrl_of_not_wellFormed {m : TextMatch} (h : ¬ lib.WellFormed baseUrl m.rawLink) :
    lib.foundUrl baseUrl m = none := by
  rw [wellFormed_iff] at h
  unfold foundUrl
  split
  next url hurl => exact absurd ⟨url, hurl⟩ h
  next => rfl

/-- The URLs of a page are the same without a bad link. -/
theorem distinctUrls_of_bad {before after : List TextMatch} {bad : TextMatch}
    (h : ¬ lib.WellFormed baseUrl bad.rawLink) :
    lib.distinctUrls baseUrl (before ++ bad :: after) =
      lib.distinctUrls baseUrl (before ++ after) := by
  unfold distinctUrls
  rw [List.filterMap_append, List.filterMap_append,
    List.filterMap_cons_none (foundUrl_of_not_wellFormed h)]

theorem foundUrl_of_normalizeUrl {m : TextMatch} {url : String}
    (h : lib.normalizeUrl m.rawLink baseUrl = some (some url)) :
    lib.foundUrl baseUrl m =
      if contains "http" url then some ⟨url, m.fromNativeHtml⟩ else none := by
  unfold foundUrl
  rw [h]

theorem getUrlExtension_isSome (url : String) :
    (lib.getUrlExtension url).isSome = (lib.urlparse url).isSome := by
  unfold getUrlExtension
  rw [Option.isSome_map]

/-! ### The loop -/

/-- The URLs of one pattern's matches that were not seen before. -/
def freshUrls (lib : Parsers) (baseUrl : String) (fromNativeHtml : Bool)
    (rawLinks seenLinks : List String) : List FoundUrl :=
  unseen FoundUrl.key seenLinks
    ((rawLinks.map (TextMatch.mk · fromNativeHtml)).filterMap (lib.foundUrl baseUrl))

section Loop

variable {fromNativeHtml : Bool} {rawLink url : String} {rest seenLinks : List String}
  {finalLinks : List ExtractedLink}

theorem textLinks_of_not_wellFormed (h : ¬ lib.WellFormed baseUrl rawLink) :
    lib.textLinks fromNativeHtml baseUrl (rawLink :: rest) (seenLinks, finalLinks) = none := by
  rw [wellFormed_iff] at h
  unfold textLinks
  split
  next => rfl
  next => rfl
  next url hurl => exact absurd ⟨url, hurl⟩ h

/-- A URL that is not of the web, or was seen, is passed over. -/
theorem textLinks_of_skip (hurl : lib.normalizeUrl rawLink baseUrl = some (some url))
    (hskip : contains "http" url = false ∨ rstripSlash url ∈ seenLinks) :
    lib.textLinks fromNativeHtml baseUrl (rawLink :: rest) (seenLinks, finalLinks) =
      lib.textLinks fromNativeHtml baseUrl rest (seenLinks, finalLinks) := by
  rw [textLinks, hurl]
  refine if_pos ?_
  rcases hskip with h | h <;> simp [h]

theorem freshUrls_of_skip (hurl : lib.normalizeUrl rawLink baseUrl = some (some url))
    (hskip : contains "http" url = false ∨ rstripSlash url ∈ seenLinks) :
    freshUrls lib baseUrl fromNativeHtml (rawLink :: rest) seenLinks =
      freshUrls lib baseUrl fromNativeHtml rest seenLinks := by
  have hfound := @foundUrl_of_normalizeUrl lib baseUrl ⟨rawLink, fromNativeHtml⟩ url hurl
  unfold freshUrls
  rw [List.map_cons]
  rcases hskip with hhttp | hseen
  · rw [hhttp] at hfound
    rw [List.filterMap_cons_none hfound]
  · cases hhttp : contains "http" url with
    | false =>
        rw [hhttp] at hfound
        rw [List.filterMap_cons_none hfound]
    | true =>
        rw [hhttp] at hfound
        have hkey : FoundUrl.key ⟨url, fromNativeHtml⟩ ∈ seenLinks := hseen
        rw [List.filterMap_cons_some hfound, unseen_cons_of_mem hkey]

/-- Any other URL is kept, if its extension can be read. -/
theorem textLinks_of_keep (hurl : lib.normalizeUrl rawLink baseUrl = some (some url))
    (hhttp : contains "http" url = true) (hseen : rstripSlash url ∉ seenLinks) :
    lib.textLinks fromNativeHtml baseUrl (rawLink :: rest) (seenLinks, finalLinks) =
      if (lib.urlparse url).isSome then
        lib.textLinks fromNativeHtml baseUrl rest
          (seenLinks ++ [rstripSlash url], finalLinks ++ [lib.linkTo ⟨url, fromNativeHtml⟩])
      else none := by
  have hne : url ≠ "" := by
    rintro rfl
    exact absurd hhttp (by decide)
  rw [textLinks, hurl, ← getUrlExtension_isSome]
  refine (if_neg (by simp [hne, hhttp, hseen])).trans ?_
  unfold linkTo
  cases lib.getUrlExtension url with
  | none => rfl
  | some ext => rfl

theorem freshUrls_of_keep (hurl : lib.normalizeUrl rawLink baseUrl = some (some url))
    (hhttp : contains "http" url = true) (hseen : rstripSlash url ∉ seenLinks) :
    freshUrls lib baseUrl fromNativeHtml (rawLink :: rest) seenLinks =
      ⟨url, fromNativeHtml⟩ ::
        freshUrls lib baseUrl fromNativeHtml rest (seenLinks ++ [rstripSlash url]) := by
  have hfound := @foundUrl_of_normalizeUrl lib baseUrl ⟨rawLink, fromNativeHtml⟩ url hurl
  have hkey : FoundUrl.key ⟨url, fromNativeHtml⟩ ∉ seenLinks := hseen
  rw [if_pos hhttp] at hfound
  unfold freshUrls
  rw [List.map_cons, List.filterMap_cons_some hfound, unseen_cons_of_notMem hkey]
  rfl

end Loop

/-- What one pass makes of its matches, from the URLs seen so far: it goes through where every match
is well formed, and the extension of every URL it has not seen can be read. -/
theorem textLinks_eq_some_iff (fromNativeHtml : Bool) (rawLinks seenLinks : List String)
    (finalLinks : List ExtractedLink) (out : List String × List ExtractedLink) :
    lib.textLinks fromNativeHtml baseUrl rawLinks (seenLinks, finalLinks) = some out ↔
      (∀ rawLink ∈ rawLinks, lib.WellFormed baseUrl rawLink) ∧
        (∀ found ∈ freshUrls lib baseUrl fromNativeHtml rawLinks seenLinks,
          (lib.urlparse found.url).isSome) ∧
        out =
          (seenLinks ++ (freshUrls lib baseUrl fromNativeHtml rawLinks seenLinks).map FoundUrl.key,
          finalLinks ++ (freshUrls lib baseUrl fromNativeHtml rawLinks seenLinks).map
            lib.linkTo) := by
  induction rawLinks generalizing seenLinks finalLinks with
  | nil =>
      show some (seenLinks, finalLinks) = some out ↔ _
      rw [Option.some_inj]
      simp only [freshUrls, List.map_nil, List.filterMap_nil, unseen_nil, List.append_nil]
      exact ⟨fun h => ⟨nofun, nofun, h.symm⟩, fun h => h.2.2.symm⟩
  | cons rawLink rest ih =>
      by_cases hraw : lib.WellFormed baseUrl rawLink
      case neg =>
        rw [textLinks_of_not_wellFormed hraw]
        exact iff_of_false (by nofun) fun h => hraw (h.1 _ List.mem_cons_self)
      obtain ⟨url, hurl⟩ := wellFormed_iff.mp hraw
      rw [List.forall_mem_cons, and_iff_right hraw]
      -- the loop keeps the URL in the case in which it is fresh
      by_cases hskip : contains "http" url = false ∨ rstripSlash url ∈ seenLinks
      · rw [textLinks_of_skip hurl hskip, freshUrls_of_skip hurl hskip]
        exact ih _ _
      · obtain ⟨hhttp, hseen⟩ := not_or.mp hskip
        rw [Bool.not_eq_false] at hhttp
        rw [textLinks_of_keep hurl hhttp hseen, freshUrls_of_keep hurl hhttp hseen,
          List.forall_mem_cons, List.map_cons, List.map_cons]
        by_cases hparse : (lib.urlparse url).isSome
        · rw [if_pos hparse, ih, and_iff_right hparse, List.append_assoc, List.append_assoc]
          rfl
        · rw [if_neg hparse]
          exact iff_of_false (by nofun) fun h => hparse h.2.1.1

/-! ### Both passes -/

/-- The URLs of a page are those of the first pattern, and what is new of the second. -/
theorem distinctUrls_textMatches (content : String) :
    lib.distinctUrls baseUrl (lib.textMatches content) =
      freshUrls lib baseUrl true (lib.attrRegex content) [] ++
        freshUrls lib baseUrl false (lib.absUrlRegex content)
          ((freshUrls lib baseUrl true (lib.attrRegex content) []).map FoundUrl.key) := by
  unfold distinctUrls textMatches
  rw [List.filterMap_append, ← unseen_nil_seen, unseen_append, List.nil_append]
  rfl

/-- `extract` goes through where both passes do. -/
theorem textExtract_eq_bind (content : String) :
    lib.textExtract content baseUrl =
      ((lib.textLinks true baseUrl (lib.attrRegex content) ([], [])).bind fun found =>
        lib.textLinks false baseUrl (lib.absUrlRegex content) found).map Prod.snd := by
  unfold textExtract
  cases lib.textLinks true baseUrl (lib.attrRegex content) ([], []) with
  | none => rfl
  | some found =>
      rw [Option.bind_some]
      dsimp only
      cases lib.textLinks false baseUrl (lib.absUrlRegex content) found with
      | none => rfl
      | some out => rfl

theorem forall_mem_textMatches {content : String} :
    (∀ m ∈ lib.textMatches content, lib.WellFormed baseUrl m.rawLink) ↔
      (∀ rawLink ∈ lib.attrRegex content, lib.WellFormed baseUrl rawLink) ∧
        ∀ rawLink ∈ lib.absUrlRegex content, lib.WellFormed baseUrl rawLink := by
  unfold textMatches
  rw [List.forall_mem_append, List.forall_mem_map, List.forall_mem_map]

/-- What `extract` returns: the links of all URLs of the page, where no match is bad. -/
theorem textExtract_eq_some_iff (content : String) (links : List ExtractedLink) :
    lib.textExtract content baseUrl = some links ↔
      (∀ m ∈ lib.textMatches content, lib.WellFormed baseUrl m.rawLink) ∧
        (∀ found ∈ lib.distinctUrls baseUrl (lib.textMatches content),
          (lib.urlparse found.url).isSome) ∧
        links = (lib.distinctUrls baseUrl (lib.textMatches content)).map lib.linkTo := by
  rw [textExtract_eq_bind, forall_mem_textMatches, distinctUrls_textMatches,
    List.forall_mem_append, List.map_append]
  simp only [Option.map_eq_some_iff, Option.bind_eq_some_iff]
  constructor
  · rintro ⟨_, ⟨_, hattr, habs⟩, rfl⟩
    obtain ⟨hwfAttr, hparsesAttr, rfl⟩ := (textLinks_eq_some_iff _ _ _ _ _).mp hattr
    obtain ⟨hwfAbs, hparsesAbs, rfl⟩ := (textLinks_eq_some_iff _ _ _ _ _).mp habs
    exact ⟨⟨hwfAttr, hwfAbs⟩, ⟨hparsesAttr, hparsesAbs⟩, rfl⟩
  · rintro ⟨⟨hwfAttr, hwfAbs⟩, ⟨hparsesAttr, hparsesAbs⟩, rfl⟩
    have hattr := (textLinks_eq_some_iff true _ [] [] _).mpr ⟨hwfAttr, hparsesAttr, rfl⟩
    exact ⟨_, ⟨_, hattr, (textLinks_eq_some_iff _ _ _ _ _).mpr ⟨hwfAbs, hparsesAbs, rfl⟩⟩, rfl⟩

/-! ### Pages that are spared -/

/-- **A page keeps all its links** where `normalize_url` makes a URL of every match, and the
extension of each of these URLs can be read. -/
theorem extract_spares_bad_links_iff (lib : Parsers) (content baseUrl : String) :
    lib.SparesBadLinks content baseUrl ↔
      (∀ m ∈ lib.textMatches content, lib.WellFormed baseUrl m.rawLink) ∧
        ∀ found ∈ lib.distinctUrls baseUrl (lib.textMatches content),
          (lib.urlparse found.url).isSome := by
  constructor
  · intro h
    obtain ⟨hwf, hparses, -⟩ := (textExtract_eq_some_iff _ _).mp h.oneEach
    exact ⟨hwf, hparses⟩
  · rintro ⟨hwf, hparses⟩
    refine ⟨(textExtract_eq_some_iff _ _).mpr ⟨hwf, hparses, rfl⟩, ?_⟩
    intro content' before after bad hmatches _ hbad
    -- the page has no bad link to take out
    refine absurd (hwf bad ?_) hbad
    rw [hmatches]
    exact List.mem_append_right _ List.mem_cons_self

/-- One bad link, and `extract` raises. -/
theorem textExtract_of_bad {content : String} {bad : TextMatch}
    (hmem : bad ∈ lib.textMatches content) (hbad : ¬ lib.WellFormed baseUrl bad.rawLink) :
    lib.textExtract content baseUrl = none := by
  rw [Option.eq_none_iff_forall_ne_some]
  intro links h
  exact hbad (((textExtract_eq_some_iff _ _).mp h).1 bad hmem)

/-- Without it, the page would give the links it should have given. -/
theorem textExtract_without_bad {content content' : String} {before after : List TextMatch}
    {bad : TextMatch} (h : lib.textMatches content = before ++ bad :: after)
    (h' : lib.textMatches content' = before ++ after) (hbad : ¬ lib.WellFormed baseUrl bad.rawLink)
    (hspared : lib.SparesBadLinks content' baseUrl) :
    lib.textExtract content' baseUrl =
      some ((lib.distinctUrls baseUrl (lib.textMatches content)).map lib.linkTo) := by
  rw [hspared.oneEach, h, h', distinctUrls_of_bad hbad]

/-- The exception reaches `_explore_with_method`, and nothing is found on the page. -/
theorem explore_of_bad_link {client : Client} {maxScrapeSize : Int} {url body : String}
    {resp : Response} {method asked : DiscoveryMethod} {bad : TextMatch}
    (hpage : fetchPage client maxScrapeSize url 1 method = some (body, resp))
    (hasked : DiscoveryMethod.ofValue resp.requestMethod = some asked)
    (htext : getExtractor (lower (resp.contentType.getD "")) asked = some .text)
    (hinline : contains "attachment" (lower (resp.contentDisposition.getD "")) = false)
    (hmem : bad ∈ lib.textMatches body) (hbad : ¬ lib.WellFormed resp.url bad.rawLink) :
    exploreWithMethod lib client maxScrapeSize url method false = {} := by
  have hlinks : extractLinks lib body resp = none := by
    unfold extractLinks
    simp only [hasked, htext, hinline, Bool.false_eq_true, if_false]
    show (lib.textExtract body resp.url).map some = none
    rw [textExtract_of_bad hmem hbad, Option.map_none]
  unfold exploreWithMethod
  simp only [Bool.false_eq_true, if_false, hpage]
  unfold classifyAndExtract
  rw [hlinks]
  rfl

end Parsers

/-! ### Pages that are lost -/

/-- The parsers of pages of quoted links; an address whose bracket stays open is refused. -/
def quotedParsers : Parsers where
  urlparse := httpUrlparse
  urljoin _ url := if '[' ∈ url.toList then none else some url
  withoutFragment := hrefParsers.withoutFragment
  unescape := hrefParsers.unescape
  attrRegex := hrefParsers.attrRegex
  absUrlRegex content := (hrefParsers.absUrlRegex content).filter (contains "http")
  fromstring := hrefParsers.fromstring

/-- A page of these links. -/
def linkPage (links : List String) : String :=
  String.join (links.map fun link => "<a href=\"" ++ link ++ "\"></a>")

/-- A page with one link is lost through an empty link, and through one `urljoin` refuses. -/
theorem bad_links_lose_pages :
    ¬ quotedParsers.SparesBadLinks (linkPage ["", "http://h/a.zip"]) "http://h/" ∧
      ¬ quotedParsers.SparesBadLinks (linkPage ["http://[h", "http://h/a.zip"]) "http://h/" ∧
      quotedParsers.textExtract (linkPage ["http://h/a.zip"]) "http://h/" =
        some [⟨"http://h/a.zip", some false, .get⟩] ∧
      exploreResource quotedParsers
        (pagesClient [⟨"http://h/", "text/html", linkPage ["", "http://h/a.zip"]⟩]) 1048576
        "http://h/" .get false = {} := by
  refine ⟨fun h => ?_, fun h => ?_, by decide, by decide⟩
  · have hnone : quotedParsers.textExtract (linkPage ["", "http://h/a.zip"]) "http://h/" =
        none := by
      decide
    rw [h.oneEach] at hnone
    cases hnone
  · have hnone : quotedParsers.textExtract (linkPage ["http://[h", "http://h/a.zip"])
        "http://h/" = none := by decide
    rw [h.oneEach] at hnone
    cases hnone

end SDownload
