import Mathlib.Data.List.DropRight

/-!
# SDownload.Http.FileInfo

What the program learns of a resource before it downloads it: `get_file_info`
(`httpx_downloader.py`) with the name `url_to_file_name` (`url_operations.py`)
falls back to.

The reply is its status and the headers that are read. Parsing a date is left to
a parameter; of the parsed date nothing here depends but whether there is one. A
reply without a `Content-Length` and a usable `Content-Range` is reported with
size zero, like an empty file (`getFileInfo_of_undeclared`).
-/

namespace SDownload

/-! ### `url_to_file_name` -/

/-- `urlparse(url)`, as far as a name is made of it. -/
structure ParseResult where
  netloc : String
  path : String
  query : String
  deriving Repr, DecidableEq

/-- `s.strip(...)` of the characters that are `p`. -/
def stripChars (p : Char → Bool) (s : List Char) : List Char :=
  (s.dropWhile p).rdropWhile p

/-- `re.sub(r"[^a-zA-Z0-9]+", "_", s)`; the flag says that the character before was replaced. -/
def slugRuns : Bool → List Char → List Char
  | _, [] => []
  | replaced, c :: rest =>
      if c.isAlphanum then c :: slugRuns false rest
      else if replaced then slugRuns true rest
      else '_' :: slugRuns true rest

/-- `safe_slugify`. -/
def safeSlugify (s : List Char) : List Char :=
  stripChars (· = '_') (slugRuns false s)

/-- `re.search(r"\.[a-zA-Z0-9]+$", name)`. -/
def hasExtension (name : List Char) : Bool :=
  name.rtakeWhile Char.isAlphanum ≠ [] && (name.rdropWhile Char.isAlphanum).getLast? = some '.'

/-- `path.rstrip("/").split("/")[-1]`. -/
def lastSegment (path : List Char) : List Char :=
  (path.rdropWhile (· = '/')).rtakeWhile (· ≠ '/')

/-- `max_length`. -/
def maxNameLength : Nat := 100

/-- `url_to_file_name`. -/
def urlToFileName (parsed : ParseResult) : String :=
  let commonName := lastSegment parsed.path.toList
  if hasExtension commonName then String.ofList commonName
  else
    let relevant := if parsed.query ≠ "" then parsed.path ++ "_" ++ parsed.query else parsed.path
    let slug := safeSlugify relevant.toList
    let fileName := if slug ≠ [] then slug else safeSlugify parsed.netloc.toList
    String.ofList (fileName.drop (fileName.length - maxNameLength)) ++ ".bin"

/-! ### Headers -/

/-- The zeros of the decimal digits of Unicode 15; the nine other digits follow each. -/
def decimalZeros : List Nat :=
  [0x30, 0x660, 0x6F0, 0x7C0, 0x966, 0x9E6, 0xA66, 0xAE6, 0xB66, 0xBE6, 0xC66, 0xCE6, 0xD66,
    0xDE6, 0xE50, 0xED0, 0xF20, 0x1040, 0x1090, 0x17E0, 0x1810, 0x1946, 0x19D0, 0x1A80, 0x1A90,
    0x1B50, 0x1BB0, 0x1C40, 0x1C50, 0xA620, 0xA8D0, 0xA900, 0xA9D0, 0xA9F0, 0xAA50, 0xABF0,
    0xFF10, 0x104A0, 0x10D30, 0x11066, 0x110F0, 0x11136, 0x111D0, 0x112F0, 0x11450, 0x114D0,
    0x11650, 0x116C0, 0x11730, 0x118E0, 0x11950, 0x11C50, 0x11D50, 0x11DA0, 0x11F50, 0x16A60,
    0x16AC0, 0x16B50, 0x1D7CE, 0x1D7D8, 0x1D7E2, 0x1D7EC, 0x1D7F6, 0x1E140, 0x1E2F0, 0x1E4F0,
    0x1E950, 0x1FBF0]

/-- `unicodedata.decimal(c)`: what a digit of any script stands for. -/
def decimalDigit (c : Char) : Option Nat :=
  (decimalZeros.find? fun first => first ≤ c.toNat && c.toNat < first + 10).map (c.toNat - ·)

/-- The white space `int` leaves out at both ends: that of Unicode, without the four separators of
ASCII. -/
def isIntSpace (c : Char) : Bool :=
  (9 ≤ c.toNat && c.toNat ≤ 13) || (0x2000 ≤ c.toNat && c.toNat ≤ 0x200A) ||
    [0x20, 0x85, 0xA0, 0x1680, 0x2028, 0x2029, 0x202F, 0x205F, 0x3000].contains c.toNat

/-- The digits of a numeral after its first, which may be set apart by single underscores. -/
def moreDigits : Nat → List Char → Option Nat
  | n, [] => some n
  | n, '_' :: c :: rest =>
      match decimalDigit c with
      | some digit => moreDigits (10 * n + digit) rest
      | none => none
  | n, c :: rest =>
      match decimalDigit c with
      | some digit => moreDigits (10 * n + digit) rest
      | none => none

/-- The longest numeral `int` converts, in digits. -/
def maxStrDigits : Nat := 4300

/-- `int(s)` of an unsigned numeral. -/
def pyNat (s : List Char) : Option Nat :=
  match s with
  | [] => none
  | c :: rest =>
      if maxStrDigits < (s.filter fun c => (decimalDigit c).isSome).length then none
      else
        match decimalDigit c with
        | some digit => moreDigits digit rest
        | none => none

/-- `int(s)`, of a header's value; `none` is the `ValueError`. -/
def pyInt (s : String) : Option Int :=
  match stripChars isIntSpace s.toList with
  | '-' :: rest => (pyNat rest).map fun n => -(n : Int)
  | '+' :: rest => (pyNat rest).map Int.ofNat
  | rest => (pyNat rest).map Int.ofNat

/-- `s.split(sep)[-1]`, if `sep in s`; for a separator that does not overlap itself. -/
def afterLast (sep : List Char) : List Char → Option (List Char)
  | [] => none
  | c :: rest =>
      match afterLast sep rest with
      | some found => some found
      | none => if sep.isPrefixOf (c :: rest) then some ((c :: rest).drop sep.length) else none

/-- A reply: its status, and the headers `get_file_info` reads. -/
structure ResponseHead where
  statusCode : Nat
  contentRange : Option String := none
  contentLength : Option String := none
  etag : Option String := none
  contentDisposition : Option String := none
  lastModified : Option String := none
  deriving Repr, DecidableEq

/-- `ResourceInfo`, as far as a download reads it; `δ` are the dates. -/
structure ResourceInfo (δ : Type) where
  fileName : String
  fileSize : Int
  fileId : Option String
  serverAcceptRanges : Bool
  fileCreatedAt : δ
  deriving Repr, DecidableEq

/-- What `get_file_info` raises once there is a reply, after `map_httpx_error`. -/
inductive FileInfoError
  | resourceNotFound
  | accessDenied
  | serverUnavailable
  | downloadRequest
  | resourceInfo (reason : String)
  deriving Repr, DecidableEq

/-- `map_httpx_error` of an `httpx.HTTPStatusError`. -/
def mapStatusError (code : Nat) : FileInfoError :=
  if code = 404 then .resourceNotFound
  else if code ∈ [401, 403] then .accessDenied
  else if code ∈ [429, 503, 504] then .serverUnavailable
  else .downloadRequest

/-! ### `get_file_info` -/

/-- What follows the first `/` of a `Content-Range`, if there is one. -/
def completeLength (contentRange : Option String) : Option String :=
  match contentRange with
  | none => none
  | some value =>
      if '/' ∈ value.toList then
        some (String.ofList ((value.toList.dropWhile (· ≠ '/')).tail))
      else none

/-- `full_size` and `resumable`. -/
def fileSizeOf (head : ResponseHead) : Except FileInfoError (Int × Bool) :=
  let parsed : Option (Int × Bool) :=
    match (if head.statusCode = 206 then completeLength head.contentRange else none) with
    | some size => (pyInt size).map fun n => (n, true)
    | none =>
        match head.contentLength with
        | some size => (pyInt size).map fun n => (n, false)
        | none => some (0, false)
  match parsed with
  | some size => .ok size
  | none => .error (.resourceInfo "Failed to parse file size")

/-- `file_name`. -/
def fileNameOf (url : ParseResult) (head : ResponseHead) : String :=
  match afterLast "filename=".toList (head.contentDisposition.getD "").toList with
  | some name => String.ofList (stripChars (· = '"') name)
  | none => urlToFileName url

variable {δ : Type}

/-- `date_created`. -/
def dateCreated (parsedateToDatetime : String → Option δ) (now : δ) (head : ResponseHead) :
    Except FileInfoError δ :=
  match head.lastModified with
  | none => .ok now
  | some lastMod =>
      if lastMod = "" then .ok now
      else
        match parsedateToDatetime lastMod with
        | some date => .ok date
        | none => .error (.resourceInfo "Invalid Last-Modified header")

/-- `get_file_info`, from the reply on. -/
def getFileInfo (parsedateToDatetime : String → Option δ) (now : δ) (url : ParseResult)
    (head : ResponseHead) : Except FileInfoError (ResourceInfo δ) :=
  if ¬ (200 ≤ head.statusCode ∧ head.statusCode < 300) then .error (mapStatusError head.statusCode)
  else
    match fileSizeOf head with
    | .error e => .error e
    | .ok (fullSize, resumable) =>
        match dateCreated parsedateToDatetime now head with
        | .error e => .error e
        | .ok date =>
            .ok {
              fileName := fileNameOf url head
              fileSize := fullSize
              fileId := head.etag
              serverAcceptRanges := resumable
              fileCreatedAt := date }

/-- A reply that declares no size. -/
structure ResponseHead.Undeclared (head : ResponseHead) : Prop where
  success : 200 ≤ head.statusCode ∧ head.statusCode < 300
  contentRange : head.contentRange = none
  contentLength : head.contentLength = none

/-- **An undeclared size is reported as zero**, and as not resumable. -/
theorem getFileInfo_of_undeclared {parsedateToDatetime : String → Option δ} {now : δ}
    {url : ParseResult} {head : ResponseHead} {info : ResourceInfo δ} (h : head.Undeclared)
    (hinfo : getFileInfo parsedateToDatetime now url head = .ok info) :
    info.fileSize = 0 ∧ info.serverAcceptRanges = false := by
  have hsize : fileSizeOf head = .ok (0, false) := by
    unfold fileSizeOf
    rw [h.contentRange, h.contentLength, completeLength, ite_self]
  unfold getFileInfo at hinfo
  rw [if_neg (not_not.mpr h.success), hsize] at hinfo
  dsimp only at hinfo
  split at hinfo
  · cases hinfo
  · obtain rfl := Except.ok.inj hinfo
    exact ⟨rfl, rfl⟩

end SDownload
