import SDownload.Http.Extractors

/-!
# SDownload.Http.Discovery

What the crawler learns of one URL: `explore_resource` (`resource_explorer.py`).

A URL nobody said how to ask for is probed with `OPTIONS`. The reply decides
whether it is a folder to list with `PROPFIND`, a file that needs no request, or a
page to be read with `GET`. A page can turn out to be a listing while it is read,
and a server can refuse to list, so that either request may be repeated once with
the other method.

The server is a parameter: what it replies to each request of one exploration, the
head and the text apart, since they are requested apart. Every exception ends in an
empty result.
-/

namespace SDownload

/-! ### Requests and replies -/

/-- A reply, as far as it is read. -/
structure Response where
  /-- `resp.url`, behind all redirects. -/
  url : String
  statusCode : Nat
  /-- `resp.request.method`, which a redirect can change. -/
  requestMethod : String
  contentType : Option String := none
  contentDisposition : Option String := none
  allow : Option String := none
  dav : Option String := none
  deriving Repr, DecidableEq

/-- A request with its method and headers. -/
structure Request where
  method : String
  url : String
  headers : List (String × String)
  deriving Repr, DecidableEq

/-- What the server does during one exploration; `none` is a request that raises. -/
structure Client where
  options : String → Option Response
  stream : Request → Option Response
  /-- The chunks of the text, and whether the connection breaks after them. -/
  aiterText : Request → Option (List String × Bool)

/-- `_method_to_string`. -/
def methodToString : DiscoveryMethod → String
  | .propfind => "PROPFIND"
  | .post => "POST"
  | _ => "GET"

/-- `_build_headers`. -/
def buildHeaders (method : DiscoveryMethod) : List (String × String) :=
  if method = .propfind then [("Depth", "1")] else []

/-- The request of an exploration with this method. -/
def requestOf (method : DiscoveryMethod) (url : String) : Request where
  method := methodToString method
  url := url
  headers := buildHeaders method

/-! ### What is discovered -/

/-- `DiscoveryResult`. -/
structure DiscoveryResult where
  files : List String := []
  directories : List ExtractedLink := []
  unresolvedLinks : List ExtractedLink := []
  deriving Repr, DecidableEq

/-- `DiscoveryTask`. -/
structure DiscoveryTask where
  url : String
  level : Nat
  methodHint : DiscoveryMethod := .unknown
  processOnlyFiles : Bool := false
  deriving Repr, DecidableEq

/-- The chunks read until `max_scrape_size` is reached; `none` where the connection breaks
before. -/
def scrape (maxScrapeSize : Int) (breaks : Bool) : Nat → List String → Option (List String)
  | _, [] => if breaks then none else some []
  | currentTotal, chunk :: rest =>
      if maxScrapeSize ≤ ((currentTotal + chunk.length : Nat) : Int) then some [chunk]
      else (scrape maxScrapeSize breaks (currentTotal + chunk.length) rest).map (chunk :: ·)

/-- `_stream_body`. -/
def Client.streamBody (client : Client) (maxScrapeSize : Int) (request : Request) : Option String :=
  match client.aiterText request with
  | none => none
  | some (chunks, breaks) => (scrape maxScrapeSize breaks 0 chunks).map String.join

variable (lib : Parsers)

/-- `_classify_process_only_files_response`. -/
def classifyProcessOnlyFilesResponse (url : String) (resp : Response) : Option DiscoveryResult :=
  (lib.getUrlExtension url).map fun ext =>
    if isNavigable ext (resp.contentType.getD "") = some false then { files := [resp.url] } else {}

/-- The links of a page, in `_classify_and_extract`; the inner `none` is a page that is not read: no
extractor takes it, or it is an attachment. -/
def extractLinks (body : String) (resp : Response) : Option (Option (List ExtractedLink)) :=
  match DiscoveryMethod.ofValue resp.requestMethod with
  | none => none
  | some method =>
      match getExtractor (lower (resp.contentType.getD "")) method with
      | none => some none
      | some parser =>
          if contains "attachment" (lower (resp.contentDisposition.getD "")) then some none
          else (parser.extract lib body resp.url).map some

/-- `_classify_and_extract`. -/
def classifyAndExtract (body : String) (resp : Response) : Option DiscoveryResult :=
  match extractLinks lib body resp with
  | none => none
  | some none => some { files := [resp.url] }
  | some (some extractedLinks) =>
      let isDirectory := isNavigable "" (lower (resp.contentType.getD "")) = some true ||
        resp.statusCode = 207
      some {
        files := (if isDirectory then [] else [resp.url]) ++
          (extractedLinks.filter (·.isDir = some false)).map ExtractedLink.url
        directories := extractedLinks.filter (·.isDir = some true)
        unresolvedLinks := extractedLinks.filter (·.isDir = none) }

/-! ### `explore_resource` -/

/-- The text carries the marks of a WebDAV listing. -/
def looksLikeDav (body : String) (resp : Response) : Bool :=
  contains "xmlns:d=\"DAV:\"" body || contains "<d:multistatus" body || resp.statusCode = 207

/-- The page that `_explore_with_method` settles on, when so many retries are left. -/
def fetchPage (client : Client) (maxScrapeSize : Int) (url : String) :
    Nat → DiscoveryMethod → Option (String × Response)
  | retries, method =>
      match client.stream (requestOf method url) with
      | none => none
      | some resp =>
          match client.streamBody maxScrapeSize (requestOf method url) with
          | none => none
          | some body =>
              match retries with
              | 0 => some (body, resp)
              | retries + 1 =>
                  if method = .get && looksLikeDav body resp then
                    fetchPage client maxScrapeSize url retries .propfind
                  else if method = .propfind && resp.statusCode ∈ [405, 501] then
                    fetchPage client maxScrapeSize url retries .get
                  else some (body, resp)

/-- `_explore_with_method`; the one retry is the call with `is_retry=True`. -/
def exploreWithMethod (client : Client) (maxScrapeSize : Int) (url : String)
    (method : DiscoveryMethod) (processOnlyFiles : Bool) : DiscoveryResult :=
  if processOnlyFiles then
    match client.stream (requestOf method url) with
    | none => {}
    | some resp => (classifyProcessOnlyFilesResponse lib url resp).getD {}
  else
    match fetchPage client maxScrapeSize url 1 method with
    | none => {}
    | some (body, resp) => (classifyAndExtract lib body resp).getD {}

/-- `explore_resource`, after a probe that settles nothing. -/
def exploreUnprobed (client : Client) (maxScrapeSize : Int) (url : String)
    (processOnlyFiles : Bool) : DiscoveryResult :=
  if processOnlyFiles then {} else exploreWithMethod lib client maxScrapeSize url .get false

/-- `explore_resource`. -/
def exploreResource (client : Client) (maxScrapeSize : Int) (url : String)
    (methodHint : DiscoveryMethod) (processOnlyFiles : Bool) : DiscoveryResult :=
  if methodHint ≠ .unknown then
    exploreWithMethod lib client maxScrapeSize url methodHint processOnlyFiles
  else
    match client.options url with
    | none => exploreUnprobed lib client maxScrapeSize url processOnlyFiles
    | some optResp =>
        -- `and` binds tighter than `or`, and the restriction is not passed on
        if optResp.dav.getD "" ≠ "" ||
            (contains "PROPFIND" (optResp.allow.getD "") && !processOnlyFiles) then
          exploreWithMethod lib client maxScrapeSize url .propfind false
        else if isNavigable "" (optResp.contentType.getD "") ≠ some true then { files := [url] }
        else exploreUnprobed lib client maxScrapeSize url processOnlyFiles

/-- The exploration of a task. -/
def exploreTask (maxSizeBytes : Int) (client : Client) (task : DiscoveryTask) : DiscoveryResult :=
  exploreResource lib client maxSizeBytes task.url task.methodHint task.processOnlyFiles

/-! ### Small sites

Enough of the parsers and of a server for pages that hold nothing but quoted absolute URLs. -/

/-- `urlparse`, of `http://netloc/path?query`. -/
def httpUrlparse (url : String) : Option ParseResult :=
  let rest := url.toList.drop "http://".length
  let target := rest.dropWhile (· ≠ '/')
  some {
    netloc := String.ofList (rest.takeWhile (· ≠ '/'))
    path := String.ofList (target.takeWhile (· ≠ '?'))
    query := String.ofList ((target.dropWhile (· ≠ '?')).drop 1) }

/-- Every second of the texts: those between quotes. -/
def everySecond : List (List Char) → List String
  | _ :: quoted :: rest => String.ofList quoted :: everySecond rest
  | _ => []

/-- The parsers, of texts without markup but `<a href="...">`. -/
def hrefParsers : Parsers where
  urlparse := httpUrlparse
  urljoin _ url := some url
  withoutFragment url := url
  unescape text := text
  attrRegex content := everySecond (content.toList.splitOn '"')
  absUrlRegex content := everySecond (content.toList.splitOn '"')
  fromstring _ := none

/-- A page: its URL, its content type and its text. -/
structure Page where
  url : String
  contentType : String
  text : String

/-- A server of some pages. -/
def pagesClient (pages : List Page) : Client where
  options url := (pages.find? (·.url = url)).map fun page =>
    { url := url, statusCode := 200, requestMethod := "OPTIONS", contentType := page.contentType }
  stream request := (pages.find? (·.url = request.url)).map fun page =>
    { url := request.url, statusCode := 200, requestMethod := request.method,
      contentType := page.contentType }
  aiterText request := (pages.find? (·.url = request.url)).map fun page => ([page.text], false)

/-- An API whose reply names one file. -/
def apiSite (file : String) : Client :=
  pagesClient [⟨"http://h/", "application/json", "[\"" ++ file ++ "\"]"⟩,
    ⟨file, "application/octet-stream", ""⟩]

end SDownload
