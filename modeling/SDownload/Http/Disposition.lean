import SDownload.Http.FileInfo
import SDownload.Lib.Occurrences

/-!
# SDownload.Http.Disposition

The name a server gives a file in `Content-Disposition`, and what `get_file_info`
makes of it (`httpx_downloader.py`).

A header is a disposition type and parameters, of which one is `filename`
(`Disposition`). The program reads no parameters: it takes what follows the last
`filename=`, to the end of the header, and strips it of double quotes. That is the
value when the parameter is the last one and its name is in small letters. When it
is not, whatever follows it becomes part of the name, and the value comes out only
if the rest of the header happens to spell it once more
(`getFileInfo_disposition_iff`).
-/

namespace SDownload

/-! ### Headers -/

/-- The printable characters a token has none of. -/
def separators : List Char := "()<>@,;:\\\"/[]?=\x7b\x7d".toList

/-- The characters of a token, in the grammar of headers. -/
def isTokenChar (c : Char) : Bool :=
  0x21 ≤ c.toNat && c.toNat ≤ 0x7e && c ∉ separators

/-- A token. -/
structure IsToken (t : List Char) : Prop where
  ne_nil : t ≠ []
  chars : t.all isTokenChar = true

/-- What may stand between the quotes of a quoted string: double quotes and backslashes have a
backslash before them. -/
def isQuotedText : List Char → Bool
  | [] => true
  | '"' :: _ => false
  | ['\\'] => false
  | '\\' :: _ :: rest => isQuotedText rest
  | _ :: rest => isQuotedText rest

/-- A parameter's value. -/
inductive ParameterValue
  | token (t : List Char) (isToken : IsToken t)
  | quoted (s : List Char) (isText : isQuotedText s = true)

namespace ParameterValue

/-- The value itself; of a quoted string, with its backslashes. -/
def content : ParameterValue → List Char
  | token t _ => t
  | quoted s _ => s

/-- How the value is written. -/
def text : ParameterValue → List Char
  | token t _ => t
  | quoted s _ => '"' :: (s ++ ['"'])

/-- A token, or a quoted string without double quotes, backslashes and the text `filename=`. -/
def Plain : ParameterValue → Prop
  | token _ _ => True
  | quoted s _ => '"' ∉ s ∧ '\\' ∉ s ∧ ¬ "filename=".toList <:+: s

end ParameterValue

/-- A parameter, with the spaces around the semicolon before it. -/
structure Parameter where
  spacesBefore : Nat
  spacesAfter : Nat
  name : List Char
  isToken : IsToken name
  value : ParameterValue

/-- How a parameter is written. -/
def Parameter.text (p : Parameter) : List Char :=
  List.replicate p.spacesBefore ' ' ++ ';' ::
    (List.replicate p.spacesAfter ' ' ++ p.name ++ '=' :: p.value.text)

/-- The parameter is `filename`; case does not matter. -/
def Parameter.IsFileName (p : Parameter) : Prop :=
  p.name.map Char.toLower = "filename".toList

instance (p : Parameter) : Decidable p.IsFileName := inferInstanceAs (Decidable (_ = _))

def parametersText (ps : List Parameter) : List Char :=
  ps.flatMap Parameter.text

/-- A `Content-Disposition` with one `filename`, whose value is plain. -/
structure Disposition where
  dispositionType : List Char
  isToken : IsToken dispositionType
  before : List Parameter
  fileName : Parameter
  after : List Parameter
  isFileName : fileName.IsFileName
  plain : fileName.value.Plain
  others : ∀ p ∈ before ++ after, ¬ p.IsFileName

namespace Disposition

/-- The header. -/
def text (d : Disposition) : List Char :=
  d.dispositionType ++ parametersText (d.before ++ d.fileName :: d.after)

/-- The file's name. -/
def value (d : Disposition) : List Char := d.fileName.value.content

end Disposition

/-- `text` ends in `filename=` and `v`, which may be in double quotes. -/
def EndsInNamed (v text : List Char) : Prop :=
  ∃ m n, "filename".toList ++ '=' ::
    (List.replicate m '"' ++ v ++ List.replicate n '"') <:+ text

/-! ### The last occurrence -/

theorem afterLast_eq_none_iff {sep text : List Char} (hsep : sep ≠ []) :
    afterLast sep text = none ↔ ¬ sep <:+: text := by
  induction text with
  | nil =>
      rw [afterLast, List.infix_nil]
      exact ⟨fun _ => hsep, fun _ => rfl⟩
  | cons c rest ih =>
      rw [afterLast, List.infix_cons_iff, not_or, ← ih, ← List.isPrefixOf_iff_prefix]
      cases afterLast sep rest with
      | none => simp
      | some found => simp

/-- Behind the last occurrence of a word that does not overlap itself. -/
theorem afterLast_eq_some_iff {w text : List Char} {e : Char} {rest : List Char} (he : e ∉ w) :
    afterLast (w ++ [e]) text = some rest ↔
      w ++ e :: rest <:+ text ∧ ¬ w ++ [e] <:+: rest := by
  induction text generalizing rest with
  | nil =>
      rw [afterLast, List.suffix_nil]
      exact ⟨fun h => (by cases h), fun h => absurd h.1 (by simp)⟩
  | cons c text ih =>
      rw [afterLast, List.suffix_cons_iff]
      cases hfound : afterLast (w ++ [e]) text with
      | some found =>
          dsimp only
          rw [← hfound, ih]
          refine ⟨fun h => ⟨Or.inr h.1, h.2⟩, fun h => ⟨h.1.resolve_left fun heq => ?_, h.2⟩⟩
          -- the occurrence that was found would begin inside this one
          have htail : text = (w ++ e :: rest).tail := by rw [heq, List.tail_cons]
          have hin : w ++ [e] <:+: text := infix_of_suffix (ih.mp hfound).1
          exact h.2 (infix_of_infix_tail he (htail ▸ hin))
      | none =>
          have hnone : ¬ w ++ [e] <:+: text :=
            (afterLast_eq_none_iff (by simp)).mp hfound
          dsimp only
          by_cases hprefix : w ++ [e] <+: c :: text
          · rw [if_pos (List.isPrefixOf_iff_prefix.mpr hprefix)]
            obtain ⟨found, heq⟩ := hprefix
            have hsuffix : found <:+ text := suffix_of_append_eq_cons (by simp) heq
            rw [← heq, List.drop_left, Option.some_inj, List.append_assoc, List.singleton_append]
            constructor
            · rintro rfl
              exact ⟨Or.inl rfl, fun hin => hnone (hin.trans hsuffix.isInfix)⟩
            · rintro ⟨hrest | hrest, -⟩
              · exact (List.cons.inj (List.append_cancel_left hrest)).2.symm
              · exact absurd (infix_of_suffix hrest) hnone
          · rw [if_neg (fun h => hprefix (List.isPrefixOf_iff_prefix.mp h))]
            refine ⟨fun h => (by cases h), fun h => ?_⟩
            rcases h.1 with heq | hrest
            · exact absurd ⟨rest, by rw [← heq]; simp⟩ hprefix
            · exact absurd (infix_of_suffix hrest) hnone

/-! ### Quotes -/

theorem replicate_of_all {q : Char} {s : List Char} (h : ∀ c ∈ s, decide (c = q) = true) :
    s = List.replicate s.length q :=
  List.eq_replicate_iff.mpr ⟨rfl, fun c hc => of_decide_eq_true (h c hc)⟩

theorem stripChars_replicate {q : Char} {v : List Char} (hv : q ∉ v) (m n : Nat) :
    stripChars (· = q) (List.replicate m q ++ v ++ List.replicate n q) = v := by
  have hq : ∀ k, ∀ c ∈ List.replicate k q, decide (c = q) = true := fun k c hc =>
    decide_eq_true (List.eq_of_mem_replicate hc)
  unfold stripChars
  rw [List.append_assoc, List.dropWhile_append_of_pos (hq m)]
  cases v with
  | nil =>
      rw [List.nil_append, List.dropWhile_eq_nil_iff.mpr (hq n), List.rdropWhile_nil]
  | cons c v =>
      have hc : ¬ decide (c = q) = true := fun h => hv (of_decide_eq_true h ▸ List.mem_cons_self)
      rw [List.cons_append, List.dropWhile_cons_of_neg (p := (· = q)) hc, ← List.cons_append,
        List.rdropWhile,
        List.reverse_append, List.reverse_replicate, List.dropWhile_append_of_pos (hq n),
        ← List.rdropWhile, List.rdropWhile_eq_self_iff]
      exact fun hl h => hv (of_decide_eq_true h ▸ List.getLast_mem hl)

/-- What is left of a text stripped of `q`. -/
theorem stripChars_eq_iff {q : Char} {s v : List Char} (hv : q ∉ v) :
    stripChars (· = q) s = v ↔
      ∃ m n, s = List.replicate m q ++ v ++ List.replicate n q := by
  constructor
  · rintro rfl
    have hfront := replicate_of_all fun c (hc : c ∈ s.takeWhile (· = q)) =>
      List.mem_takeWhile_imp (p := (· = q)) hc
    have hback := replicate_of_all fun c (hc : c ∈ (s.dropWhile (· = q)).rtakeWhile (· = q)) =>
      List.mem_rtakeWhile_imp (p := (· = q)) hc
    refine ⟨(s.takeWhile (· = q)).length,
      ((s.dropWhile (· = q)).rtakeWhile (· = q)).length, ?_⟩
    rw [← hfront, ← hback, stripChars, List.append_assoc, List.rdropWhile_append_rtakeWhile,
      List.takeWhile_append_dropWhile]
  · rintro ⟨m, n, rfl⟩
    exact stripChars_replicate hv m n

/-- **What the program takes for the name.** Of a header that is any text, the name is a plain `v`
when the text ends in `filename=` and `v`; or nothing is said, and `v` is the name of the URL. -/
theorem fileNameOf_eq_iff {url : ParseResult} {head : ResponseHead} {text v : List Char}
    (hquote : '"' ∉ v) (hmark : ¬ "filename=".toList <:+: v) :
    fileNameOf url { head with contentDisposition := some (String.ofList text) } = String.ofList v ↔
      EndsInNamed v text ∨
        ¬ "filename=".toList <:+: text ∧ urlToFileName url = String.ofList v := by
  have hword : "filename=".toList = "filename".toList ++ ['='] := by decide
  have he : '=' ∉ "filename".toList := by decide
  have hq : '"' ∉ "filename=".toList := by decide
  have hne : "filename=".toList ≠ [] := by decide
  have htext : (String.ofList text).toList = text := String.toList_ofList
  unfold fileNameOf
  rw [Option.getD_some, htext]
  cases hfound : afterLast "filename=".toList text with
  | none =>
      have hnone := (afterLast_eq_none_iff hne).mp hfound
      refine ⟨fun h => Or.inr ⟨hnone, h⟩, fun h => h.elim (fun hends => ?_) And.right⟩
      obtain ⟨m, n, hsuffix⟩ := hends
      exact absurd (hword ▸ infix_of_suffix hsuffix) hnone
  | some rest =>
      dsimp only
      rw [String.ofList_inj, stripChars_eq_iff hquote]
      rw [hword] at hfound
      have hspec := (afterLast_eq_some_iff he).mp hfound
      constructor
      · rintro ⟨m, n, rfl⟩
        exact Or.inl ⟨m, n, hspec.1⟩
      · rintro (⟨m, n, hsuffix⟩ | ⟨hnone, -⟩)
        · have hlast : ¬ "filename".toList ++ ['='] <:+:
              List.replicate m '"' ++ v ++ List.replicate n '"' := by
            rw [← hword, infix_append_replicate_iff hne hq, infix_replicate_append_iff hne hq]
            exact hmark
          have hsome := (afterLast_eq_some_iff he).mpr ⟨hsuffix, hlast⟩
          exact ⟨m, n, Option.some_inj.mp (hfound.symm.trans hsome)⟩
        · exact absurd (hword ▸ infix_of_suffix hspec.1) hnone

/-! ### Where a header ends in the name -/

theorem IsToken.notMem {t : List Char} {c : Char} (h : IsToken t) (hc : isTokenChar c = false) :
    c ∉ t :=
  fun hm => Bool.false_ne_true (hc.symm.trans (List.all_eq_true.mp h.chars c hm))

theorem ParameterValue.text_eq (v : ParameterValue) :
    ∃ k, v.text = List.replicate k '"' ++ v.content ++ List.replicate k '"' := by
  cases v with
  | token t h => exact ⟨0, (List.append_nil t).symm⟩
  | quoted s h => exact ⟨1, rfl⟩

theorem ParameterValue.Plain.quote_notMem {v : ParameterValue} (h : v.Plain) : '"' ∉ v.content := by
  cases v with
  | token t ht => exact ht.notMem (by decide)
  | quoted s _ => exact h.1

theorem ParameterValue.Plain.not_infix {v : ParameterValue} (h : v.Plain) :
    ¬ "filename=".toList <:+: v.content := by
  cases v with
  | token t ht =>
      intro hin
      exact ht.notMem (by decide) (hin.subset (by decide : '=' ∈ "filename=".toList))
  | quoted s _ => exact h.2.2

theorem ParameterValue.Plain.not_infix_text {v : ParameterValue} (h : v.Plain) :
    ¬ "filename=".toList <:+: v.text := by
  obtain ⟨k, hk⟩ := v.text_eq
  rw [hk, infix_append_replicate_iff (by decide) (by decide),
    infix_replicate_append_iff (by decide) (by decide)]
  exact h.not_infix

theorem count_semicolon_quoted (v : List Char) (m n : Nat) :
    (List.replicate m '"' ++ v ++ List.replicate n '"').count ';' = v.count ';' := by
  have hq : ∀ k, (List.replicate k '"').count ';' = 0 := fun k =>
    List.count_eq_zero.mpr fun hm => absurd (List.eq_of_mem_replicate hm) (by decide)
  rw [List.count_append, List.count_append, hq, hq, Nat.zero_add, Nat.add_zero]

/-- A name brings along as many semicolons as its value has. -/
theorem count_semicolon_named (v : List Char) (m n : Nat) :
    ("filename".toList ++ '=' ::
      (List.replicate m '"' ++ v ++ List.replicate n '"')).count ';' = v.count ';' := by
  have hname : "filename".toList.count ';' = 0 := by decide
  rw [List.count_append, hname, Nat.zero_add, List.count_cons_of_ne (by decide),
    count_semicolon_quoted]

theorem count_semicolon_text (v : ParameterValue) : v.text.count ';' = v.content.count ';' := by
  obtain ⟨k, hk⟩ := v.text_eq
  rw [hk, count_semicolon_quoted]

/-- Parameters begin with a space or a semicolon. -/
theorem parametersText_cons_eq (p : Parameter) (ps : List Parameter) :
    ∃ c rest, parametersText (p :: ps) = c :: rest ∧ c ∉ "filename=".toList := by
  obtain ⟨spacesBefore, spacesAfter, name, isToken, value⟩ := p
  cases spacesBefore with
  | zero => exact ⟨';', _, rfl, by decide⟩
  | succ n => exact ⟨' ', _, rfl, by decide⟩

theorem semicolon_mem_parametersText (p : Parameter) (ps : List Parameter) :
    ';' ∈ parametersText (p :: ps) := by
  unfold parametersText
  rw [List.flatMap_cons, Parameter.text]
  exact List.mem_append_left _ (List.mem_append_right _ List.mem_cons_self)

/-- No name begins in a plain value and ends behind it. -/
theorem suffix_parametersText {v : ParameterValue} {ps : List Parameter} {rest : List Char}
    (hv : v.Plain) (h : "filename=".toList ++ rest <:+ v.text ++ parametersText ps) :
    "filename=".toList ++ rest <:+ parametersText ps := by
  refine (suffix_append_iff.mp h).resolve_right fun ⟨front, hfront, heq⟩ => ?_
  have hprefix : "filename=".toList <+: front ++ parametersText ps := ⟨rest, heq⟩
  have hin : "filename=".toList <+: front := by
    cases ps with
    | nil => exact (List.append_nil front) ▸ hprefix
    | cons p ps =>
        obtain ⟨c, tail, htext, hc⟩ := parametersText_cons_eq p ps
        rw [htext] at hprefix
        exact (prefix_append_cons_iff hc).mp hprefix
  exact hv.not_infix_text (hin.isInfix.trans hfront.isInfix)

/-- A name that ends in `filename` and is as long as that. -/
theorem name_eq_of_suffix {name spaces : List Char}
    (hname : name.map Char.toLower = "filename".toList)
    (h : "filename".toList <:+ spaces ++ name) : name = "filename".toList := by
  have hlen : name.length = "filename".toList.length := by
    rw [← hname, List.length_map]
  have hsuffix := List.suffix_of_suffix_length_le h (List.suffix_append spaces name) hlen.ge
  exact (hsuffix.eq_of_length hlen.symm).symm

namespace Disposition

/-- The header up to the semicolon of its `filename`, the parameter, and the others. -/
theorem text_eq (d : Disposition) :
    d.text = d.dispositionType ++ parametersText d.before ++
        List.replicate d.fileName.spacesBefore ' ' ++ ';' ::
      (List.replicate d.fileName.spacesAfter ' ' ++ d.fileName.name ++ '=' ::
        (d.fileName.value.text ++ parametersText d.after)) := by
  unfold text parametersText
  rw [List.flatMap_append, List.flatMap_cons, Parameter.text]
  simp only [List.append_assoc, List.cons_append]

theorem parametersText_suffix (d : Disposition) : parametersText d.after <:+ d.text := by
  have hafter : d.after <:+ d.before ++ d.fileName :: d.after :=
    (List.suffix_cons _ _).trans (List.suffix_append _ _)
  exact (hafter.flatMap Parameter.text).trans (List.suffix_append _ _)

/-- **The name at the end.** A header ends in its own file's name when `filename` is its last
parameter, in small letters, or what follows it ends so. -/
theorem endsInNamed_text_iff (d : Disposition) :
    EndsInNamed d.value d.text ↔
      (d.fileName.name = "filename".toList ∧ d.after = []) ∨
        EndsInNamed d.value (parametersText d.after) := by
  constructor
  · rintro ⟨m, n, h⟩
    rw [text_eq] at h
    -- behind the semicolon of `filename`, as there are semicolons enough there
    have hvalue : d.fileName.value.text.count ';' = d.value.count ';' :=
      count_semicolon_text d.fileName.value
    have hsub := ((List.sublist_append_left d.fileName.value.text (parametersText d.after)).cons
      '=').trans (List.sublist_append_right
        (List.replicate d.fileName.spacesAfter ' ' ++ d.fileName.name) _)
    have hcount := ((count_semicolon_named d.value m n).trans hvalue.symm).trans_le
      (hsub.count_le ';')
    have hin := suffix_of_count_le h hcount
    have hequals : '=' ∉ List.replicate d.fileName.spacesAfter ' ' ++ d.fileName.name := by
      rw [List.mem_append, not_or]
      exact ⟨fun hm => absurd (List.eq_of_mem_replicate hm) (by decide),
        d.fileName.isToken.notMem (by decide)⟩
    rcases suffix_append_cons (by decide) (by decide) hequals hin with hbehind | ⟨hname, hrest⟩
    · exact Or.inr ⟨m, n, suffix_parametersText d.plain hbehind⟩
    · refine Or.inl ⟨name_eq_of_suffix d.isFileName hname, ?_⟩
      have hnone : (parametersText d.after).count ';' = 0 := by
        have hboth := congrArg (List.count ';') hrest
        rw [count_semicolon_quoted, List.count_append, hvalue] at hboth
        exact Nat.left_eq_add.mp hboth
      cases hafter : d.after with
      | nil => rfl
      | cons p ps =>
          rw [hafter] at hnone
          exact absurd (semicolon_mem_parametersText p ps) (List.count_eq_zero.mp hnone)
  · rintro (⟨hname, hafter⟩ | ⟨m, n, h⟩)
    · obtain ⟨k, hk⟩ := d.fileName.value.text_eq
      refine ⟨k, k, ?_⟩
      refine ⟨d.dispositionType ++ parametersText d.before ++
        List.replicate d.fileName.spacesBefore ' ' ++ ';' ::
          List.replicate d.fileName.spacesAfter ' ', ?_⟩
      rw [text_eq, hname, hafter, hk]
      simp only [parametersText, value, List.flatMap_nil, List.append_nil, List.append_assoc,
        List.cons_append]
    · exact ⟨m, n, h.trans d.parametersText_suffix⟩

end Disposition

/-! ### The reply -/

variable {δ : Type}

/-- A reply that has what `get_file_info` wants, apart from a name. -/
structure ResponseHead.InOrder (parsedateToDatetime : String → Option δ) (now : δ)
    (head : ResponseHead) : Prop where
  success : 200 ≤ head.statusCode ∧ head.statusCode < 300
  size : ∃ size, fileSizeOf head = .ok size
  date : ∃ date, dateCreated parsedateToDatetime now head = .ok date

variable {parsedateToDatetime : String → Option δ} {now : δ} {url : ParseResult}
  {head : ResponseHead}

/-- Whatever name such a reply gives, it is answered. -/
theorem getFileInfo_of_inOrder (h : head.InOrder parsedateToDatetime now) (url : ParseResult)
    (contentDisposition : Option String) :
    ∃ info, getFileInfo parsedateToDatetime now url { head with contentDisposition } = .ok info ∧
      info.fileName = fileNameOf url { head with contentDisposition } := by
  obtain ⟨⟨fullSize, resumable⟩, hsize⟩ := h.size
  obtain ⟨date, hdate⟩ := h.date
  have hsize' : fileSizeOf { head with contentDisposition } = .ok (fullSize, resumable) := hsize
  have hdate' : dateCreated parsedateToDatetime now { head with contentDisposition } = .ok date :=
    hdate
  unfold getFileInfo
  rw [if_neg (not_not.mpr h.success), hsize']
  dsimp only
  rw [hdate']
  exact ⟨_, rfl, rfl⟩

/-- **The server's file name.** It is what `get_file_info` reports if `filename` is the last
parameter and in small letters. It is so by coincidence if what follows the parameter ends in
`filename=` and the same value, or if the header has no `filename=` at all and the URL's name is the
value. It is so in no other case. -/
theorem getFileInfo_disposition_iff (h : head.InOrder parsedateToDatetime now) (d : Disposition) :
    (∃ info, getFileInfo parsedateToDatetime now url
        { head with contentDisposition := some (String.ofList d.text) } = .ok info ∧
        info.fileName = String.ofList d.value) ↔
      (d.fileName.name = "filename".toList ∧ d.after = []) ∨
        EndsInNamed d.value (parametersText d.after) ∨
        (¬ "filename=".toList <:+: d.text ∧ urlToFileName url = String.ofList d.value) := by
  obtain ⟨info, hinfo, hname⟩ :=
    getFileInfo_of_inOrder h url (some (String.ofList d.text))
  have hanswer : (∃ info, getFileInfo parsedateToDatetime now url
      { head with contentDisposition := some (String.ofList d.text) } = .ok info ∧
      info.fileName = String.ofList d.value) ↔
      fileNameOf url { head with contentDisposition := some (String.ofList d.text) } =
        String.ofList d.value := by
    rw [hinfo, ← hname]
    refine ⟨fun ⟨info', heq, hvalue⟩ => ?_, fun hvalue => ⟨info, rfl, hvalue⟩⟩
    rw [Except.ok.inj heq]
    exact hvalue
  have hquote : '"' ∉ d.value := d.plain.quote_notMem
  have hmark : ¬ "filename=".toList <:+: d.value := d.plain.not_infix
  rw [hanswer, fileNameOf_eq_iff hquote hmark, d.endsInNamed_text_iff, or_assoc]

/-! ### A header with a parameter behind the name -/

/-- `; filename="a.zip"` -/
def namedParameter : Parameter where
  spacesBefore := 0
  spacesAfter := 1
  name := "filename".toList
  isToken := ⟨by decide, by decide⟩
  value := .quoted "a.zip".toList (by decide)

/-- `; size=5` -/
def sizeParameter : Parameter where
  spacesBefore := 0
  spacesAfter := 1
  name := "size".toList
  isToken := ⟨by decide, by decide⟩
  value := .token "5".toList ⟨by decide, by decide⟩

/-- `attachment; size=5; filename="a.zip"` -/
def namedLast : Disposition where
  dispositionType := "attachment".toList
  isToken := ⟨by decide, by decide⟩
  before := [sizeParameter]
  fileName := namedParameter
  after := []
  isFileName := by decide
  plain := ⟨by decide, by decide, by decide⟩
  others := by decide

/-- `attachment; filename="a.zip"; size=5` -/
def namedFirst : Disposition where
  dispositionType := "attachment".toList
  isToken := ⟨by decide, by decide⟩
  before := []
  fileName := namedParameter
  after := [sizeParameter]
  isFileName := by decide
  plain := ⟨by decide, by decide, by decide⟩
  others := by decide

def sizedReply : ResponseHead := { statusCode := 200, contentLength := some "5" }

theorem sizedReply_inOrder : sizedReply.InOrder (fun _ => (none : Option Unit)) () :=
  ⟨by decide, ⟨_, rfl⟩, ⟨_, rfl⟩⟩

/-- The name is read from the header that ends in it. -/
theorem getFileInfo_disposition_iff_namedLast :
    ∃ info, getFileInfo (fun _ => (none : Option Unit)) () ⟨"example.com", "/get", ""⟩
      { sizedReply with contentDisposition := some (String.ofList namedLast.text) } = .ok info ∧
      info.fileName = String.ofList namedLast.value :=
  (getFileInfo_disposition_iff sizedReply_inOrder namedLast).mpr (Or.inl ⟨rfl, rfl⟩)

/-- The reply that names the file first. -/
def namedFirstReply : ResponseHead :=
  { sizedReply with contentDisposition := some (String.ofList namedFirst.text) }

/-- **What follows becomes part of the name**, quote and all. -/
theorem name_includes_what_follows :
    String.ofList namedFirst.text = "attachment; filename=\"a.zip\"; size=5" ∧
      String.ofList namedFirst.value = "a.zip" ∧
      ¬ ∃ info, getFileInfo (fun _ => (none : Option Unit)) () ⟨"example.com", "/get", ""⟩
          namedFirstReply = .ok info ∧ info.fileName = String.ofList namedFirst.value := by
  have hanswer : getFileInfo (fun _ => (none : Option Unit)) () ⟨"example.com", "/get", ""⟩
      namedFirstReply = .ok {
        fileName := "a.zip\"; size=5"
        fileSize := 5
        fileId := none
        serverAcceptRanges := false
        fileCreatedAt := () } := by decide
  refine ⟨by decide, by decide, fun ⟨info, hinfo, hname⟩ => ?_⟩
  rw [hanswer] at hinfo
  rw [← Except.ok.inj hinfo] at hname
  exact absurd hname (by decide)

end SDownload
