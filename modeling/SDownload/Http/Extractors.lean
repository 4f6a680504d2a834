import Mathlib.Data.List.Infix
import SDownload.Http.FileInfo

/-!
# SDownload.Http.Extractors

What a page links to: `is_navigable`, `get_url_extension` and `normalize_url` from
`utils/`, and the three extractors of `http_client/extractors/` with the factory
that chooses between them.

The functions of the standard library they call are a parameter, `Parsers`: where
such a function raises, its field is `none`. An extractor that raises is `none` as
well. An XML document is the tree that `ElementTree` makes of it, and the paths the
extractor looks for in it are spelled out.
-/

namespace SDownload

/-! ### Text -/

/-- `s.lower()`, of the ASCII letters. -/
def lower (s : String) : String :=
  String.ofList (s.toList.map Char.toLower)

/-- `part in s`. -/
def contains (part s : String) : Bool :=
  decide (part.toList <:+: s.toList)

/-- The characters `str.strip` takes for blank. -/
def isPySpace (c : Char) : Bool :=
  let n := c.toNat
  (9 ≤ n && n ≤ 13) || (28 ≤ n && n ≤ 32) || n = 0x85 || n = 0xA0 || n = 0x1680 ||
    (0x2000 ≤ n && n ≤ 0x200A) || n = 0x2028 || n = 0x2029 || n = 0x202F || n = 0x205F || n = 0x3000

/-- `s.strip()`. -/
def strip (s : String) : String :=
  String.ofList (stripChars isPySpace s.toList)

/-- `s.rstrip("/")`. -/
def rstripSlash (s : String) : String :=
  String.ofList (s.toList.rdropWhile (· = '/'))

/-! ### `is_navigable` -/

/-- `NavigableExtensions._DEFAULT`. -/
def navigableExtensions : List String :=
  ["html", "htm", "php", "json", "xml", "asp", "jsp", "aspx", "cgi", "js", "css"]

/-- `NavigableContentTypes._DEFAULT`. -/
def navigableContentTypes : List String :=
  ["html", "json", "xml"]

/-- `content_type in navigable_content_types`. -/
def navigableContentType (contentType : String) : Bool :=
  navigableContentTypes.any fun pattern => contains pattern (lower contentType)

/-- `is_navigable`; `none` is unknown. -/
def isNavigable (extension contentType : String) : Option Bool :=
  let ext := String.ofList (stripChars (· = '.') (lower extension).toList)
  if ext = "" && contentType = "" then none
  else if ext = "" then some (navigableContentType contentType)
  else if ext ∈ navigableExtensions then some true
  else some (navigableContentType contentType)

/-! ### The standard library -/

/-- An element of an XML document, its tag with the namespace written out. -/
inductive Element
  | node (tag : String) (text : Option String) (children : List Element)

/-- What is called of `urllib.parse`, `html`, `re` and `ElementTree`. -/
structure Parsers where
  urlparse : String → Option ParseResult
  urljoin : String → String → Option String
  /-- `urlunparse(urlparse(url)._replace(fragment=""))`, where `urlparse` does not raise. -/
  withoutFragment : String → String
  unescape : String → String
  /-- What the group of `_ATTR_REGEX` holds in each match. -/
  attrRegex : String → List String
  /-- What the group of `_ABS_URL_REGEX` holds in each match. -/
  absUrlRegex : String → List String
  fromstring : String → Option Element

namespace Parsers

variable (lib : Parsers)

/-- `get_url_extension`. -/
def getUrlExtension (url : String) : Option String :=
  (lib.urlparse url).map fun parsed =>
    let path := parsed.path.toList
    if path = [] || path.getLast? = some '/' then ""
    else
      let lastPart := path.rtakeWhile (· ≠ '/')
      if '.' ∈ lastPart then lower (String.ofList (lastPart.rtakeWhile (· ≠ '.'))) else ""

/-- `normalize_url`; the outer `none` is an exception, the inner one its result. -/
def normalizeUrl (rawLink baseUrl : String) : Option (Option String) :=
  if rawLink = "" then some none
  else
    let link := lib.unescape (strip rawLink)
    if link = "" then some none
    else
      match lib.urljoin baseUrl link with
      | none => none
      | some absolute =>
          match lib.urlparse absolute with
          | none => none
          | some _ => some (some (lib.withoutFragment absolute))

end Parsers

/-! ### Links -/

/-- `DiscoveryMethod`. -/
inductive DiscoveryMethod
  | get
  | propfind
  | post
  | unknown
  | other
  deriving Repr, DecidableEq

/-- `DiscoveryMethod(value)`; `none` is the `ValueError`. -/
def DiscoveryMethod.ofValue (value : String) : Option DiscoveryMethod :=
  if value = "GET" then some .get
  else if value = "PROPFIND" then some .propfind
  else if value = "POST" then some .post
  else if value = "UNKNOWN" then some .unknown
  else if value = "OTHER" then some .other
  else none

/-- `ExtractedLink`; of `isDir`, `none` is a link that needs probing. -/
structure ExtractedLink where
  url : String
  isDir : Option Bool := none
  methodHint : DiscoveryMethod := .unknown
  deriving Repr, DecidableEq

/-! ### `TextPatternExtractor` -/

namespace Parsers

variable (lib : Parsers)

/-- The matches of one of the two patterns, from those seen and kept so far. -/
def textLinks (fromNativeHtml : Bool) (baseUrl : String) :
    List String → List String × List ExtractedLink → Option (List String × List ExtractedLink)
  | [], found => some found
  | rawLink :: rest, (seenLinks, finalLinks) =>
      match lib.normalizeUrl rawLink baseUrl with
      | none => none
      -- `None` has no `rstrip`
      | some none => none
      | some (some url) =>
          let urlNormalized := rstripSlash url
          if url = "" || urlNormalized ∈ seenLinks || !contains "http" url then
            textLinks fromNativeHtml baseUrl rest (seenLinks, finalLinks)
          else
            match lib.getUrlExtension url with
            | none => none
            | some ext =>
                let isDir := isNavigable ext ""
                let methodHint := if fromNativeHtml || isDir = some false then
                  DiscoveryMethod.get else DiscoveryMethod.unknown
                textLinks fromNativeHtml baseUrl rest
                  (seenLinks ++ [urlNormalized], finalLinks ++ [⟨url, isDir, methodHint⟩])

/-- `TextPatternExtractor.extract`. -/
def textExtract (content baseUrl : String) : Option (List ExtractedLink) :=
  match lib.textLinks true baseUrl (lib.attrRegex content) ([], []) with
  | none => none
  | some found =>
      match lib.textLinks false baseUrl (lib.absUrlRegex content) found with
      | none => none
      | some (_, finalLinks) => some finalLinks

/-! ### `JsonExtractor` -/

/-- The matches, without those seen before. -/
def jsonLinks : List String → List String → List ExtractedLink
  | [], _ => []
  | group :: rest, seenLinks =>
      let rawLink := strip group
      if rawLink ∈ seenLinks then jsonLinks rest seenLinks
      else { url := rawLink } :: jsonLinks rest (seenLinks ++ [rawLink])

/-- `JsonExtractor.extract`. -/
def jsonExtract (content : String) : List ExtractedLink :=
  jsonLinks (lib.absUrlRegex content) []

end Parsers

/-! ### `WebDavExtractor` -/

namespace Element

def tag : Element → String
  | node tag _ _ => tag

def text : Element → Option String
  | node _ text _ => text

def children : Element → List Element
  | node _ _ children => children

mutual

/-- `element.iter()`, in document order. -/
def iter : Element → List Element
  | node tag text children => node tag text children :: iterAll children

/-- The elements of several documents, one after the other. -/
def iterAll : List Element → List Element
  | [] => []
  | e :: rest => e.iter ++ iterAll rest

end

/-- `element.findall(".//d:tag", ns)`. -/
def descendants (tag : String) (e : Element) : List Element :=
  (iterAll e.children).filter fun d => d.tag = "{DAV:}" ++ tag

/-- `element.find("d:tag", ns)`. -/
def child (tag : String) (e : Element) : Option Element :=
  e.children.find? fun c => c.tag = "{DAV:}" ++ tag

/-- `is_dir`: the first `prop` of a `propstat` holds a `collection` as its type. -/
def isCollection (resp : Element) : Bool :=
  match (resp.descendants "propstat").findSome? (child "prop") with
  | none => false
  | some prop =>
      match prop.child "resourcetype" with
      | none => false
      | some resourcetype => (resourcetype.child "collection").isSome

end Element

namespace Parsers

variable (lib : Parsers)

/-- The responses of a listing, but for the one of the requested path. -/
def davLinks (baseUrl : String) (requestedPath : String) :
    List Element → Option (List ExtractedLink)
  | [] => some []
  | resp :: rest =>
      match (resp.child "href").bind Element.text with
      | none => davLinks baseUrl requestedPath rest
      | some href =>
          match lib.urljoin baseUrl href with
          | none => none
          | some absoluteUrl =>
              match lib.urlparse absoluteUrl with
              | none => none
              | some parsed =>
                  if rstripSlash parsed.path = requestedPath then
                    davLinks baseUrl requestedPath rest
                  else
                    (davLinks baseUrl requestedPath rest).map fun links =>
                      ⟨absoluteUrl, some resp.isCollection, .propfind⟩ :: links

/-- `WebDavExtractor.extract`. -/
def webDavExtract (content baseUrl : String) : Option (List ExtractedLink) :=
  if strip content = "" then some []
  else
    match lib.fromstring content with
    | none => some []
    | some root =>
        match lib.urlparse baseUrl with
        | none => none
        | some parsed =>
            lib.davLinks baseUrl (rstripSlash parsed.path) (root.descendants "response")

end Parsers

/-! ### `ExtractorFactory` -/

/-- The three extractors. -/
inductive Extractor
  | webDav
  | json
  | text
  deriving Repr, DecidableEq

/-- `ExtractorFactory.get_extractor`. -/
def getExtractor (contentType : String) (method : DiscoveryMethod) : Option Extractor :=
  let ct := lower contentType
  if method = .propfind then some .webDav
  else if contains "application/json" ct then some .json
  else if ["text/", "xml", "javascript", "html"].any fun t => contains t ct then some .text
  else if ct = "" then some .text
  else none

/-- `parser.extract(content, base_url)`. -/
def Extractor.extract (lib : Parsers) (content baseUrl : String) :
    Extractor → Option (List ExtractedLink)
  | webDav => lib.webDavExtract content baseUrl
  | json => some (lib.jsonExtract content)
  | text => lib.textExtract content baseUrl

end SDownload
