import Mathlib.Data.List.Basic
import SDownload.Lib.Numerals

/-!
# SDownload.Lib.Json

JSON with integers, as `json.dumps` writes it with an indentation and `json.loads`
reads it.

Writing escapes everything outside of printable ASCII, a character outside the
basic plane as a pair of surrogates. Reading is by recursive descent; its fuel is
the length of the text, which is never what ends it.

Two facts about a text are what clients need. What was written is read back
(`loads_dumps`). And no proper front of a written array or object can be read at
all (`loads_of_front`): a reader does not look past the value it has read
(`value_extends`), so what could be read of the front would be read of the whole
text too, and something would be left over.

Numbers with a fraction or an exponent, and lone surrogates, are not read.
-/

/-- A JSON value. -/
inductive Json
  | null
  | bool (b : Bool)
  | num (i : Int)
  | str (s : String)
  | arr (items : List Json)
  | obj (members : List (String × Json))
  deriving Repr, Inhabited

namespace Json

/-- Induction over values. -/
@[elab_as_elim]
theorem ind {motive : Json → Prop} (null : motive .null) (bool : ∀ b, motive (.bool b))
    (num : ∀ i, motive (.num i)) (str : ∀ s, motive (.str s))
    (arr : ∀ items, (∀ v ∈ items, motive v) → motive (.arr items))
    (obj : ∀ members, (∀ m ∈ members, motive m.2) → motive (.obj members)) (v : Json) :
    motive v :=
  Json.rec (motive_2 := fun items => ∀ v ∈ items, motive v)
    (motive_3 := fun members => ∀ m ∈ members, motive m.2) (motive_4 := fun m => motive m.2)
    null bool num str arr obj (fun _ h => absurd h List.not_mem_nil)
    (fun _ _ hv hrest => List.forall_mem_cons.mpr ⟨hv, hrest⟩)
    (fun _ h => absurd h List.not_mem_nil)
    (fun _ _ hm hrest => List.forall_mem_cons.mpr ⟨hm, hrest⟩) (fun _ _ hv => hv) v

/-! ### Strings, written -/

/-- The letter of a short escape. -/
def escapeLetter (c : Char) : Option Char :=
  if c = '"' then some '"'
  else if c = '\\' then some '\\'
  else if c = '\n' then some 'n'
  else if c = '\r' then some 'r'
  else if c = '\t' then some 't'
  else if c = '\x0c' then some 'f'
  else if c = '\x08' then some 'b'
  else none

/-- Four hexadecimal digits. -/
def hex4 (n : Nat) : List Char :=
  [Nat.digitChar (n / 4096 % 16), Nat.digitChar (n / 256 % 16), Nat.digitChar (n / 16 % 16),
    Nat.digitChar (n % 16)]

/-- A `\u` escape of a code unit. -/
def unicodeEscape (n : Nat) : List Char := '\\' :: 'u' :: hex4 n

/-- A character of a string, as it is written. -/
def writeChar (c : Char) : List Char :=
  match escapeLetter c with
  | some letter => ['\\', letter]
  | none =>
      if 0x20 ≤ c.toNat ∧ c.toNat ≤ 0x7e then [c]
      else if c.toNat < 0x10000 then unicodeEscape c.toNat
      else
        unicodeEscape (0xd800 + (c.toNat - 0x10000) / 0x400) ++
          unicodeEscape (0xdc00 + (c.toNat - 0x10000) % 0x400)

/-- A string with its quotes. -/
def writeString (s : String) : List Char := '"' :: (s.toList.flatMap writeChar ++ ['"'])

/-! ### Values, written -/

/-- A new line, indented. -/
def newline (indent level : Nat) : List Char := '\n' :: List.replicate (indent * level) ' '

/-- The parts of an array or an object, each on a line of its own. -/
def bracketed (indent level : Nat) (opening closing : Char) (parts : List (List Char)) :
    List Char :=
  match parts with
  | [] => [opening, closing]
  | parts =>
      opening :: (newline indent (level + 1) ++
        (List.intercalate (',' :: newline indent (level + 1)) parts ++
          (newline indent level ++ [closing])))

mutual

/-- A value, as it is written at a level of nesting. -/
def render (indent level : Nat) : Json → List Char
  | null => "null".toList
  | bool b => if b then "true".toList else "false".toList
  | num i => (toString i).toList
  | str s => writeString s
  | arr items => bracketed indent level '[' ']' (renderItems indent (level + 1) items)
  | obj members => bracketed indent level '\x7b' '\x7d' (renderMembers indent (level + 1) members)

/-- The items of an array, each as it is written at that level. -/
def renderItems (indent level : Nat) : List Json → List (List Char)
  | [] => []
  | v :: rest => render indent level v :: renderItems indent level rest

/-- The members of an object, each as it is written at that level. -/
def renderMembers (indent level : Nat) : List (String × Json) → List (List Char)
  | [] => []
  | m :: rest => renderMember indent level m :: renderMembers indent level rest

/-- A key, a colon and the value. -/
def renderMember (indent level : Nat) : String × Json → List Char
  | (key, v) => writeString key ++ (':' :: ' ' :: render indent level v)

end

/-- `json.dumps(v, indent=indent)`. -/
def dumps (indent : Nat) (v : Json) : List Char := render indent 0 v

/-! ### Strings, read -/

/-- What a hexadecimal digit stands for, of either case. -/
def hexValue (c : Char) : Option Nat :=
  if '0' ≤ c ∧ c ≤ '9' then some (c.toNat - 48)
  else if 'a' ≤ c ∧ c ≤ 'f' then some (c.toNat - 87)
  else if 'A' ≤ c ∧ c ≤ 'F' then some (c.toNat - 55)
  else none

/-- The code unit that four hexadecimal digits stand for. -/
def readHex4 : List Char → Option (Nat × List Char)
  | a :: b :: c :: d :: rest =>
      match hexValue a, hexValue b, hexValue c, hexValue d with
      | some a, some b, some c, some d => some (a * 4096 + b * 256 + c * 16 + d, rest)
      | _, _, _, _ => none
  | _ => none

/-- The character of a `\u` escape. -/
def readUnicode (text : List Char) : Option (Char × List Char) :=
  match readHex4 text with
  | none => none
  | some (n, rest) =>
      if 0xd800 ≤ n ∧ n < 0xdc00 then
        -- the second surrogate follows at once
        if ['\\', 'u'].isPrefixOf rest then
          match readHex4 (rest.drop 2) with
          | none => none
          | some (m, rest) =>
              if 0xdc00 ≤ m ∧ m < 0xe000 then
                some (Char.ofNat (0x10000 + (n - 0xd800) * 0x400 + (m - 0xdc00)), rest)
              else none
        else none
      else if 0xdc00 ≤ n ∧ n < 0xe000 then none
      else some (Char.ofNat n, rest)

/-- The character that the letter of a short escape stands for. -/
def unescapeLetter (c : Char) : Option Char :=
  if c = '"' ∨ c = '\\' ∨ c = '/' then some c
  else if c = 'n' then some '\n'
  else if c = 'r' then some '\r'
  else if c = 't' then some '\t'
  else if c = 'f' then some '\x0c'
  else if c = 'b' then some '\x08'
  else none

/-- A character of a string. -/
def readChar : List Char → Option (Char × List Char)
  | [] => none
  | c :: rest =>
      if c = '\\' then
        match rest with
        | [] => none
        | letter :: rest =>
            if letter = 'u' then readUnicode rest
            else (unescapeLetter letter).map fun c => (c, rest)
      else if c = '"' ∨ c.toNat < 0x20 then none
      else some (c, rest)

/-- The characters of a string, up to the quote. -/
def readChars : Nat → List Char → Option (List Char × List Char)
  | 0, _ => none
  | fuel + 1, text =>
      if text.head? = some '"' then some ([], text.tail)
      else
        match readChar text with
        | none => none
        | some (c, rest) => (readChars fuel rest).map fun (cs, rest) => (c :: cs, rest)

/-- A string, after its opening quote. -/
def readString (text : List Char) : Option (String × List Char) :=
  (readChars text.length text).map fun (cs, rest) => (String.ofList cs, rest)

/-! ### Values, read -/

/-- The white space that may stand between the tokens of JSON. -/
def isSpace (c : Char) : Bool := c = ' ' || c = '\n' || c = '\t' || c = '\r'

/-- The text from its first token on. -/
def skipSpace (text : List Char) : List Char := text.dropWhile isSpace

/-- A number without a sign: 0, or digits that do not begin with it. -/
def readNatural (text : List Char) : Option (Nat × List Char) :=
  match text with
  | '0' :: rest => some (0, rest)
  | text =>
      if text.takeWhile Char.isDigit = [] then none
      else some (Nat.ofDigitChars 10 (text.takeWhile Char.isDigit) 0, text.dropWhile Char.isDigit)

/-- A whole number, with its sign. -/
def readNumber (text : List Char) : Option (Int × List Char) :=
  match text with
  | '-' :: rest => (readNatural rest).map fun (n, rest) => (-(n : Int), rest)
  | text => (readNatural text).map fun (n, rest) => ((n : Int), rest)

/-- A word that stands for a value. -/
def readWord (word : List Char) (v : Json) (text : List Char) : Option (Json × List Char) :=
  if word.isPrefixOf text then some (v, text.drop word.length) else none

section

variable {α : Type} (closing : Char) (item : List Char → Option (α × List Char))

/-- One item or more, with commas between them and a closing bracket at the end. -/
def separatedFuel : Nat → List Char → Option (List α × List Char)
  | 0, _ => none
  | fuel + 1, text =>
      match item text with
      | none => none
      | some (a, rest) =>
          match skipSpace rest with
          | [] => none
          | c :: rest =>
              if c = closing then some ([a], rest)
              else if c = ',' then
                (separatedFuel fuel (skipSpace rest)).map fun (as, rest) => (a :: as, rest)
              else none

/-- What stands after an opening bracket. -/
def readBracketed (text : List Char) : Option (List α × List Char) :=
  if (skipSpace text).head? = some closing then some ([], (skipSpace text).tail)
  else separatedFuel closing item text.length (skipSpace text)

/-- A member of an object. -/
def readMember (text : List Char) : Option ((String × α) × List Char) :=
  if text.head? = some '"' then
    match readString text.tail with
    | none => none
    | some (key, rest) =>
        if (skipSpace rest).head? = some ':' then
          (item (skipSpace (skipSpace rest).tail)).map fun (a, rest) => ((key, a), rest)
        else none
  else none

end

/-- A value. -/
def value : Nat → List Char → Option (Json × List Char)
  | 0, _ => none
  | fuel + 1, text =>
      match text.head? with
      | none => none
      | some c =>
          if c = '"' then (readString text.tail).map fun (s, rest) => (.str s, rest)
          else if c = '[' then
            (readBracketed ']' (value fuel) text.tail).map fun (items, rest) => (.arr items, rest)
          else if c = '\x7b' then
            (readBracketed '\x7d' (readMember (value fuel)) text.tail).map fun (members, rest) =>
              (.obj members, rest)
          else if c = 'n' then readWord "null".toList .null text
          else if c = 't' then readWord "true".toList (.bool true) text
          else if c = 'f' then readWord "false".toList (.bool false) text
          else (readNumber text).map fun (i, rest) => (.num i, rest)

/-- `json.loads`. -/
def loads (text : List Char) : Option Json :=
  match value text.length (skipSpace text) with
  | none => none
  | some (v, rest) => if skipSpace rest = [] then some v else none

/-! ### A string is read back -/

theorem hexValue_digitChar : ∀ n < 16, hexValue (Nat.digitChar n) = some n := by decide

theorem readHex4_hex4 {n : Nat} (h : n < 0x10000) (rest : List Char) :
    readHex4 (hex4 n ++ rest) = some (n, rest) := by
  have hdigit : ∀ k, hexValue (Nat.digitChar (k % 16)) = some (k % 16) := fun k =>
    hexValue_digitChar _ (Nat.mod_lt _ (by decide))
  have hsum : n / 4096 % 16 * 4096 + n / 256 % 16 * 256 + n / 16 % 16 * 16 + n % 16 = n := by omega
  simp only [hex4, List.cons_append, List.nil_append, readHex4, hdigit, hsum]

/-- The code points of characters. -/
theorem toNat_cases (c : Char) :
    c.toNat < 0xd800 ∨ 0xdfff < c.toNat ∧ c.toNat < 0x110000 :=
  c.valid

/-- A character of the basic plane, escaped. -/
theorem readUnicode_hex4 {c : Char} (h : c.toNat < 0x10000) (rest : List Char) :
    readUnicode (hex4 c.toNat ++ rest) = some (c, rest) := by
  have hvalid := toNat_cases c
  rw [readUnicode, readHex4_hex4 h]
  dsimp only
  rw [if_neg (by omega), if_neg (by omega), Char.ofNat_toNat]

/-- Two surrogates. -/
theorem readUnicode_pair {n m : Nat} (hn : 0xd800 ≤ n ∧ n < 0xdc00) (hm : 0xdc00 ≤ m ∧ m < 0xe000)
    (rest : List Char) :
    readUnicode (hex4 n ++ (unicodeEscape m ++ rest)) =
      some (Char.ofNat (0x10000 + (n - 0xd800) * 0x400 + (m - 0xdc00)), rest) := by
  have hfirst : ['\\', 'u'].isPrefixOf (unicodeEscape m ++ rest) = true := rfl
  have hdrop : (unicodeEscape m ++ rest).drop 2 = hex4 m ++ rest := rfl
  rw [readUnicode, readHex4_hex4 (by omega)]
  dsimp only
  rw [if_pos hn, if_pos hfirst, hdrop, readHex4_hex4 (by omega)]
  dsimp only
  rw [if_pos hm]

/-- Any other character, escaped as two surrogates. -/
theorem readUnicode_surrogates {c : Char} (h : 0x10000 ≤ c.toNat) (rest : List Char) :
    readUnicode (hex4 (0xd800 + (c.toNat - 0x10000) / 0x400) ++
        (unicodeEscape (0xdc00 + (c.toNat - 0x10000) % 0x400) ++ rest)) = some (c, rest) := by
  have hvalid := toNat_cases c
  have hcode : 0x10000 + (0xd800 + (c.toNat - 0x10000) / 0x400 - 0xd800) * 0x400 +
      (0xdc00 + (c.toNat - 0x10000) % 0x400 - 0xdc00) = c.toNat := by omega
  rw [readUnicode_pair (by omega) (by omega), hcode, Char.ofNat_toNat]

theorem escapeLetter_cases {c letter : Char} (h : escapeLetter c = some letter) :
    letter ≠ 'u' ∧ unescapeLetter letter = some c := by
  unfold escapeLetter at h
  split_ifs at h <;>
  · obtain rfl := Option.some.inj h
    rename_i heq
    subst heq
    decide

/-- A character that needs no escape is none of those that have one. -/
theorem ne_of_escapeLetter_none {c : Char} (h : escapeLetter c = none) : c ≠ '"' ∧ c ≠ '\\' := by
  constructor <;>
  · rintro rfl
    exact absurd h (by decide)

theorem readChar_writeChar (c : Char) (rest : List Char) :
    readChar (writeChar c ++ rest) = some (c, rest) := by
  unfold writeChar
  cases hletter : escapeLetter c with
  | some letter =>
      obtain ⟨hu, hback⟩ := escapeLetter_cases hletter
      simp only [List.cons_append, List.nil_append, readChar, if_true, if_neg hu, hback,
        Option.map_some]
  | none =>
      obtain ⟨hquote, hbackslash⟩ := ne_of_escapeLetter_none hletter
      dsimp only
      split
      · rename_i hplain
        have hcontrol : ¬ (c = '"' ∨ c.toNat < 0x20) := by
          rintro (heq | hlt)
          · exact hquote heq
          · omega
        simp only [List.cons_append, List.nil_append, readChar, if_neg hbackslash, if_neg hcontrol]
      · split
        · rename_i hbasic
          simp only [unicodeEscape, List.cons_append, readChar, if_true]
          exact readUnicode_hex4 hbasic rest
        · rename_i hbasic
          rw [unicodeEscape, List.cons_append, List.cons_append, List.cons_append,
            List.cons_append, List.append_assoc]
          simp only [readChar, if_true]
          exact readUnicode_surrogates (Nat.le_of_not_lt hbasic) rest

/-- No written character begins with a quote. -/
theorem head?_writeChar (c : Char) (rest : List Char) :
    (writeChar c ++ rest).head? ≠ some '"' := by
  unfold writeChar
  cases hletter : escapeLetter c with
  | some letter => exact fun h => absurd (Option.some.inj h) (by decide)
  | none =>
      dsimp only
      split
      · exact fun h => (ne_of_escapeLetter_none hletter).1 (Option.some.inj h)
      · split <;> exact fun h => absurd (Option.some.inj h) (by decide)

theorem readChars_writeString (s rest : List Char) {fuel : Nat} (h : s.length < fuel) :
    readChars fuel (s.flatMap writeChar ++ '"' :: rest) = some (s, rest) := by
  induction s generalizing fuel with
  | nil =>
      obtain ⟨n, rfl⟩ := Nat.exists_eq_add_of_lt h
      rfl
  | cons c s ih =>
      cases fuel with
      | zero => cases h
      | succ fuel =>
          rw [List.flatMap_cons, List.append_assoc, readChars, if_neg (head?_writeChar c _),
            readChar_writeChar]
          dsimp only
          rw [ih (Nat.lt_of_succ_lt_succ h), Option.map_some]

theorem length_le_flatMap_writeChar (s : List Char) : s.length ≤ (s.flatMap writeChar).length := by
  induction s with
  | nil => exact Nat.le_refl 0
  | cons c s ih =>
      have hpos : 0 < (writeChar c).length := by
        have hread := readChar_writeChar c []
        refine List.length_pos_iff.mpr fun hnil => ?_
        rw [hnil] at hread
        cases hread
      rw [List.flatMap_cons, List.length_append, List.length_cons]
      omega

/-- **A string** is read back, after its opening quote. -/
theorem readString_writeString (s : String) (rest : List Char) :
    readString (s.toList.flatMap writeChar ++ '"' :: rest) = some (s, rest) := by
  have hlen := length_le_flatMap_writeChar s.toList
  rw [readString, readChars_writeString _ _ (by rw [List.length_append, List.length_cons]; omega),
    Option.map_some]
  simp only [String.ofList_toList]

/-! ### A number is read back -/

/-- No digit comes next. -/
def Ends (rest : List Char) : Prop := ∀ c ∈ rest.head?, c.isDigit = false

theorem ends_nil : Ends [] := fun _ h => absurd h (by simp)

theorem ends_cons {c : Char} {rest : List Char} (h : c.isDigit = false) : Ends (c :: rest) :=
  fun _ hd => Option.some.inj hd ▸ h

/-- Where digits end. -/
theorem span_digits {digits rest : List Char} (h : ∀ c ∈ digits, c.isDigit = true)
    (hrest : Ends rest) :
    (digits ++ rest).takeWhile Char.isDigit = digits ∧
      (digits ++ rest).dropWhile Char.isDigit = rest := by
  rw [List.takeWhile_append_of_pos h, List.dropWhile_append_of_pos h]
  cases rest with
  | nil => exact ⟨List.append_nil _, rfl⟩
  | cons c rest =>
      have hc : ¬ c.isDigit = true := by rw [hrest c rfl]; decide
      rw [List.takeWhile_cons_of_neg hc, List.dropWhile_cons_of_neg hc, List.append_nil]
      exact ⟨rfl, rfl⟩

theorem readNatural_toDigits (n : Nat) {rest : List Char} (h : Ends rest) :
    readNatural (Nat.toDigits 10 n ++ rest) = some (n, rest) := by
  obtain ⟨htake, hdrop⟩ := span_digits (fun c => isDigit_of_mem_toDigits (n := n)) h
  unfold readNatural
  split
  · rename_i rest' heq
    obtain ⟨c, front, hfront⟩ := List.exists_cons_of_ne_nil
      (Nat.toDigits_ne_nil : Nat.toDigits 10 n ≠ [])
    rw [hfront, List.cons_append] at heq
    obtain ⟨rfl, rfl⟩ := List.cons.inj heq
    obtain ⟨rfl, rfl⟩ := toDigits_head hfront
    rfl
  · rw [htake, hdrop, if_neg Nat.toDigits_ne_nil, Nat.ofDigitChars_ten_toDigits]

theorem readNumber_toString (i : Int) {rest : List Char} (h : Ends rest) :
    readNumber ((toString i).toList ++ rest) = some (i, rest) := by
  have hnatural := readNatural_toDigits i.natAbs h
  rw [toList_toString_int]
  split
  · rename_i hneg
    rw [List.singleton_append, List.cons_append, readNumber, hnatural, Option.map_some]
    dsimp only
    rw [Int.ofNat_natAbs_of_nonpos (Int.le_of_lt hneg), Int.neg_neg]
  · rename_i hnonneg
    rw [List.nil_append]
    unfold readNumber
    split
    · rename_i rest' heq
      obtain ⟨c, front, hfront⟩ := List.exists_cons_of_ne_nil
        (Nat.toDigits_ne_nil : Nat.toDigits 10 i.natAbs ≠ [])
      rw [hfront, List.cons_append] at heq
      obtain ⟨rfl, -⟩ := List.cons.inj heq
      have hdigit : '-' ∈ Nat.toDigits 10 i.natAbs := hfront ▸ List.mem_cons_self
      exact absurd (isDigit_of_mem_toDigits hdigit) (by decide)
    · rw [hnatural, Option.map_some]
      dsimp only
      rw [Int.natAbs_of_nonneg (Int.not_lt.mp hnonneg)]

/-! ### A value is read back -/

/-- The text does not begin with a space. -/
def Solid (text : List Char) : Prop := ∀ c ∈ text.head?, isSpace c = false

theorem skipSpace_of_solid {text : List Char} (h : Solid text) : skipSpace text = text := by
  cases text with
  | nil => rfl
  | cons c rest => exact List.dropWhile_cons_of_neg (by rw [h c rfl]; decide)

theorem skipSpace_cons {c : Char} {rest : List Char} (h : isSpace c = false) :
    skipSpace (c :: rest) = c :: rest :=
  skipSpace_of_solid fun _ hd => Option.some.inj hd ▸ h

theorem skipSpace_newline (indent level : Nat) (text : List Char) :
    skipSpace (newline indent level ++ text) = skipSpace text := by
  refine List.dropWhile_append_of_pos fun c hc => ?_
  rcases List.mem_cons.mp hc with rfl | hc
  · rfl
  · rw [List.eq_of_mem_replicate hc]
    rfl

theorem solid_append {text : List Char} (h : Solid text) (hne : text ≠ []) (rest : List Char) :
    Solid (text ++ rest) := by
  obtain ⟨c, front, rfl⟩ := List.exists_cons_of_ne_nil hne
  exact h

theorem ends_newline (indent level : Nat) (text : List Char) :
    Ends (newline indent level ++ text) :=
  ends_cons rfl

section

variable {α : Type} {closing : Char} {item : List Char → Option (α × List Char)}
  {txt : α → List Char} {indent inner outer : Nat}

/-- A part of an array or an object: it is read back, and it is neither empty nor begins with a
space or with the closing bracket. -/
structure IsPart (closing : Char) (item : List Char → Option (α × List Char))
    (txt : α → List Char) (a : α) : Prop where
  read : ∀ rest, Ends rest → item (txt a ++ rest) = some (a, rest)
  ne_nil : txt a ≠ []
  solid : Solid (txt a)
  head : (txt a).head? ≠ some closing

theorem IsPart.skipSpace_append {a : α} (h : IsPart closing item txt a) (rest : List Char) :
    skipSpace (txt a ++ rest) = txt a ++ rest :=
  skipSpace_of_solid (solid_append h.solid h.ne_nil rest)

theorem skipSpace_intercalate {as : List α} (hne : as ≠ [])
    (h : ∀ a ∈ as, IsPart closing item txt a) (sep rest : List Char) :
    skipSpace (List.intercalate sep (as.map txt) ++ rest) =
      List.intercalate sep (as.map txt) ++ rest := by
  obtain ⟨a, as, rfl⟩ := List.exists_cons_of_ne_nil hne
  have ha := (List.forall_mem_cons.mp h).1
  cases as with
  | nil =>
      rw [List.map_singleton, List.intercalate_singleton]
      exact ha.skipSpace_append rest
  | cons b as =>
      rw [List.map_cons, List.map_cons, List.intercalate_cons_cons, List.append_assoc,
        List.append_assoc]
      exact ha.skipSpace_append _

theorem head?_intercalate {as : List α} (hne : as ≠ [])
    (h : ∀ a ∈ as, IsPart closing item txt a) (sep rest : List Char) :
    (List.intercalate sep (as.map txt) ++ rest).head? ≠ some closing := by
  obtain ⟨a, as, rfl⟩ := List.exists_cons_of_ne_nil hne
  have ha := (List.forall_mem_cons.mp h).1
  have hhead : ∀ rest, (txt a ++ rest).head? ≠ some closing := by
    intro rest
    rw [List.head?_append_of_ne_nil _ ha.ne_nil]
    exact ha.head
  cases as with
  | nil =>
      rw [List.map_singleton, List.intercalate_singleton]
      exact hhead rest
  | cons b as =>
      rw [List.map_cons, List.map_cons, List.intercalate_cons_cons, List.append_assoc,
        List.append_assoc]
      exact hhead _

theorem length_le_intercalate (sep : List Char) (hsep : sep ≠ []) (as : List α) :
    as.length ≤ (List.intercalate sep (as.map txt)).length + 1 := by
  have hpos := List.length_pos_iff.mpr hsep
  induction as with
  | nil => exact Nat.zero_le _
  | cons a as ih =>
      cases as with
      | nil => exact Nat.le_add_left 1 _
      | cons b as =>
          rw [List.map_cons, List.map_cons, List.intercalate_cons_cons, List.length_append,
            List.length_append, ← List.map_cons, List.length_cons]
          omega

/-- Parts on lines of their own are read back. -/
theorem separatedFuel_intercalate (hclosing : isSpace closing = false) (hcomma : ',' ≠ closing)
    {as : List α} (hne : as ≠ []) (h : ∀ a ∈ as, IsPart closing item txt a) {fuel : Nat}
    (hfuel : as.length ≤ fuel) (rest : List Char) :
    separatedFuel closing item fuel
        (List.intercalate (',' :: newline indent inner) (as.map txt) ++
          (newline indent outer ++ closing :: rest)) = some (as, rest) := by
  induction as generalizing fuel with
  | nil => exact absurd rfl hne
  | cons a as ih =>
      obtain ⟨fuel, rfl⟩ : ∃ n, fuel = n + 1 := Nat.exists_eq_succ_of_ne_zero (by
        rintro rfl
        cases hfuel)
      obtain ⟨ha, has⟩ := List.forall_mem_cons.mp h
      cases as with
      | nil =>
          rw [List.map_singleton, List.intercalate_singleton, separatedFuel,
            ha.read _ (ends_newline _ _ _)]
          dsimp only
          rw [skipSpace_newline, skipSpace_cons hclosing]
          dsimp only
          rw [if_pos rfl]
      | cons b as =>
          have hrest := ih (List.cons_ne_nil _ _) has (Nat.le_of_succ_le_succ hfuel)
          rw [List.map_cons, List.map_cons, List.intercalate_cons_cons, List.append_assoc,
            List.append_assoc, List.cons_append, separatedFuel, ha.read _ (ends_cons rfl),
            ← List.map_cons]
          dsimp only
          rw [skipSpace_cons rfl]
          dsimp only
          rw [if_neg hcomma, if_pos rfl, skipSpace_newline,
            skipSpace_intercalate (List.cons_ne_nil _ _) has, hrest, Option.map_some]

/-- **What stands in brackets** is read back, after the opening one. -/
theorem readBracketed_bracketed (hclosing : isSpace closing = false) (hcomma : ',' ≠ closing)
    (indent level : Nat) (opening : Char) {as : List α}
    (h : ∀ a ∈ as, IsPart closing item txt a) (rest : List Char) :
    readBracketed closing item
        ((bracketed indent level opening closing (as.map txt)).tail ++ rest) =
      some (as, rest) := by
  unfold readBracketed
  cases as with
  | nil =>
      have htext : (bracketed indent level opening closing ([].map txt)).tail ++ rest =
          closing :: rest := rfl
      rw [htext, skipSpace_cons hclosing, List.head?_cons, if_pos rfl, List.tail_cons]
  | cons a as =>
      have hne := List.cons_ne_nil a as
      have hlen : (a :: as).length ≤ (List.intercalate (',' :: newline indent (level + 1))
          ((a :: as).map txt)).length + 1 :=
        length_le_intercalate _ (List.cons_ne_nil _ _) (a :: as)
      have htext : (bracketed indent level opening closing ((a :: as).map txt)).tail ++ rest =
          newline indent (level + 1) ++
            (List.intercalate (',' :: newline indent (level + 1)) ((a :: as).map txt) ++
              (newline indent level ++ closing :: rest)) := by
        simp only [List.map_cons, bracketed, List.tail_cons, List.append_assoc,
          List.singleton_append]
      rw [htext, skipSpace_newline, skipSpace_intercalate hne h,
        if_neg (head?_intercalate hne h _ _)]
      refine separatedFuel_intercalate hclosing hcomma hne h ?_ rest
      have hpos : 0 < (newline indent level).length := Nat.succ_pos _
      simp only [List.length_append]
      omega

end

theorem length_le_intercalate_of_mem (sep : List Char) {parts : List (List Char)} {part : List Char}
    (h : part ∈ parts) : part.length ≤ (List.intercalate sep parts).length := by
  induction parts with
  | nil => cases h
  | cons p parts ih =>
      cases parts with
      | nil =>
          exact Nat.le_of_eq (by rw [List.mem_singleton.mp h, List.intercalate_singleton])
      | cons q parts =>
          rw [List.intercalate_cons_cons, List.length_append, List.length_append]
          rcases List.mem_cons.mp h with rfl | h
          · omega
          · have := ih h
            omega

theorem length_lt_bracketed (indent level : Nat) (opening closing : Char)
    {parts : List (List Char)} {part : List Char} (h : part ∈ parts) :
    part.length < (bracketed indent level opening closing parts).length := by
  have hle := length_le_intercalate_of_mem (',' :: newline indent (level + 1)) h
  obtain ⟨p, parts, rfl⟩ := List.exists_cons_of_ne_nil (List.ne_nil_of_mem h)
  simp only [bracketed, List.length_cons, List.length_append]
  omega

theorem renderItems_eq (indent level : Nat) (items : List Json) :
    renderItems indent level items = items.map (render indent level) := by
  induction items with
  | nil => rfl
  | cons v items ih => rw [renderItems, ih, List.map_cons]

theorem renderMembers_eq (indent level : Nat) (members : List (String × Json)) :
    renderMembers indent level members = members.map (renderMember indent level) := by
  induction members with
  | nil => rfl
  | cons m members ih => rw [renderMembers, ih, List.map_cons]

/-- The opening bracket of an array or object. -/
theorem bracketed_eq (indent level : Nat) (opening closing : Char) (parts : List (List Char)) :
    bracketed indent level opening closing parts =
      opening :: (bracketed indent level opening closing parts).tail := by
  cases parts <;> rfl

/-- A sign or a digit is none of the characters the other values begin with. -/
theorem of_toString_head {i : Int} {c : Char} {rest : List Char}
    (h : (toString i).toList = c :: rest) : c = '-' ∨ c.isDigit = true := by
  have hmem : c ∈ (toString i).toList := h ▸ List.mem_cons_self
  rw [toList_toString_int, List.mem_append] at hmem
  rcases hmem with hmem | hmem
  · split at hmem
    · exact Or.inl (List.mem_singleton.mp hmem)
    · cases hmem
  · exact Or.inr (isDigit_of_mem_toDigits hmem)

theorem toString_ne_nil (i : Int) : (toString i).toList ≠ [] := by
  rw [toList_toString_int]
  exact List.append_ne_nil_of_right_ne_nil _ Nat.toDigits_ne_nil

theorem ne_of_numeral {c d : Char} (h : c = '-' ∨ c.isDigit = true)
    (hd : d ≠ '-' ∧ d.isDigit = false) : c ≠ d := by
  rintro rfl
  rcases h with h | h
  · exact hd.1 h
  · exact Bool.false_ne_true (hd.2.symm.trans h)

/-- What a value begins with. -/
theorem render_eq_cons (indent level : Nat) (v : Json) :
    ∃ c rest, render indent level v = c :: rest ∧ isSpace c = false ∧ c ≠ ']' := by
  cases v with
  | null => exact ⟨_, _, rfl, rfl, by decide⟩
  | bool b => cases b <;> exact ⟨_, _, rfl, rfl, by decide⟩
  | num i =>
      obtain ⟨c, rest, hcons⟩ := List.exists_cons_of_ne_nil (toString_ne_nil i)
      have hc := of_toString_head hcons
      refine ⟨c, rest, hcons, ?_, ne_of_numeral hc (by decide)⟩
      rcases hc with rfl | hc
      · rfl
      · have hspace : ∀ d ∈ [' ', '\n', '\t', '\r'], c ≠ d := by
          intro d hd
          refine ne_of_numeral (Or.inr hc) ?_
          simp only [List.mem_cons, List.not_mem_nil, or_false] at hd
          rcases hd with rfl | rfl | rfl | rfl <;> decide
        simp [isSpace, hspace]
  | str s => exact ⟨_, _, rfl, rfl, by decide⟩
  | arr items =>
      rw [render, bracketed_eq]
      exact ⟨_, _, rfl, rfl, by decide⟩
  | obj members =>
      rw [render, bracketed_eq]
      exact ⟨_, _, rfl, rfl, by decide⟩

theorem solid_render (indent level : Nat) (v : Json) : Solid (render indent level v) := by
  obtain ⟨c, rest, hcons, hspace, -⟩ := render_eq_cons indent level v
  rw [hcons]
  exact fun _ hd => Option.some.inj hd ▸ hspace

theorem fuel_eq_succ {indent level fuel : Nat} {v : Json}
    (h : (render indent level v).length ≤ fuel) : ∃ n, fuel = n + 1 := by
  obtain ⟨c, rest, hcons, -⟩ := render_eq_cons indent level v
  rw [hcons] at h
  exact Nat.exists_eq_add_of_le' (Nat.le_trans (Nat.le_add_left 1 _) h)

/-- An item of an array. -/
theorem isPart_render {indent level fuel : Nat} {v : Json}
    (h : ∀ rest, Ends rest → value fuel (render indent level v ++ rest) = some (v, rest)) :
    IsPart ']' (value fuel) (render indent level) v := by
  obtain ⟨c, rest, hcons, -, hne⟩ := render_eq_cons indent level v
  refine ⟨h, ?_, solid_render indent level v, ?_⟩
  · rw [hcons]
    exact List.cons_ne_nil _ _
  · rw [hcons]
    exact fun heq => hne (Option.some.inj heq)

/-- A member of an object. -/
theorem isPart_renderMember {indent level fuel : Nat} {m : String × Json}
    (h : ∀ rest, Ends rest → value fuel (render indent level m.2 ++ rest) = some (m.2, rest)) :
    IsPart '\x7d' (readMember (value fuel)) (renderMember indent level) m := by
  obtain ⟨key, v⟩ := m
  refine ⟨fun rest hrest => ?_, List.cons_ne_nil _ _, fun _ hd => Option.some.inj hd ▸ rfl,
    fun heq => absurd (Option.some.inj heq) (by decide)⟩
  have htext : renderMember indent level (key, v) ++ rest =
      '"' :: (key.toList.flatMap writeChar ++ '"' :: ':' :: ' ' ::
        (render indent level v ++ rest)) := by
    simp only [renderMember, writeString, List.cons_append, List.append_assoc, List.nil_append]
  have hsolid : skipSpace (' ' :: (render indent level v ++ rest)) =
      render indent level v ++ rest := by
    obtain ⟨c, front, hcons, -⟩ := render_eq_cons indent level v
    refine (List.dropWhile_cons_of_pos rfl).trans (skipSpace_of_solid ?_)
    exact solid_append (solid_render indent level v) (hcons ▸ List.cons_ne_nil _ _) rest
  rw [htext, readMember, List.head?_cons, if_pos rfl, List.tail_cons, readString_writeString]
  dsimp only
  rw [skipSpace_cons rfl, List.head?_cons, if_pos rfl, List.tail_cons, hsolid, h rest hrest,
    Option.map_some]

/-- **A value** is read back, whatever follows it that does not go on with a number. -/
theorem value_render (indent : Nat) (v : Json) (level fuel : Nat) (rest : List Char)
    (hfuel : (render indent level v).length ≤ fuel) (hrest : Ends rest) :
    value fuel (render indent level v ++ rest) = some (v, rest) := by
  induction v using ind generalizing level fuel rest with
  | null =>
      obtain ⟨n, rfl⟩ := fuel_eq_succ hfuel
      rfl
  | bool b =>
      obtain ⟨n, rfl⟩ := fuel_eq_succ hfuel
      cases b <;> rfl
  | num i =>
      obtain ⟨c, front, hcons⟩ := List.exists_cons_of_ne_nil (toString_ne_nil i)
      have hc := of_toString_head hcons
      have hread := readNumber_toString i hrest
      obtain ⟨n, rfl⟩ := fuel_eq_succ hfuel
      rw [hcons, List.cons_append] at hread
      -- a digit or a minus sign begins no other value
      rw [render, hcons, List.cons_append, value, List.head?_cons]
      dsimp only
      rw [if_neg (ne_of_numeral hc (by decide)), if_neg (ne_of_numeral hc (by decide)),
        if_neg (ne_of_numeral hc (by decide)), if_neg (ne_of_numeral hc (by decide)),
        if_neg (ne_of_numeral hc (by decide)), if_neg (ne_of_numeral hc (by decide)), hread,
        Option.map_some]
  | str s =>
      have htext : render indent level (.str s) ++ rest =
          '"' :: (s.toList.flatMap writeChar ++ '"' :: rest) := by
        simp only [render, writeString, List.cons_append, List.append_assoc, List.nil_append]
      obtain ⟨n, rfl⟩ := fuel_eq_succ hfuel
      rw [htext, value, List.head?_cons]
      dsimp only
      rw [if_pos rfl, List.tail_cons, readString_writeString, Option.map_some]
  | arr items ih =>
      obtain ⟨n, rfl⟩ := fuel_eq_succ hfuel
      rw [render, renderItems_eq] at hfuel ⊢
      -- an item is shorter than the list around it, so the fuel left is enough
      have hparts : ∀ v ∈ items, IsPart ']' (value n) (render indent (level + 1)) v := by
        intro v hv
        have hlt := length_lt_bracketed indent level '[' ']'
          (List.mem_map_of_mem (f := render indent (level + 1)) hv)
        exact isPart_render fun rest => ih v hv _ _ _ (by omega)
      have hread := readBracketed_bracketed rfl (by decide) indent level '[' hparts rest
      rw [bracketed_eq, List.cons_append, value, List.head?_cons]
      dsimp only
      rw [if_neg (by decide), if_pos rfl, List.tail_cons, hread, Option.map_some]
  | obj members ih =>
      obtain ⟨n, rfl⟩ := fuel_eq_succ hfuel
      rw [render, renderMembers_eq] at hfuel ⊢
      have hparts : ∀ m ∈ members,
          IsPart '\x7d' (readMember (value n)) (renderMember indent (level + 1)) m := by
        intro m hm
        have hlt := length_lt_bracketed indent level '\x7b' '\x7d'
          (List.mem_map_of_mem (f := renderMember indent (level + 1)) hm)
        have hle : (render indent (level + 1) m.2).length ≤
            (renderMember indent (level + 1) m).length := by
          obtain ⟨key, v⟩ := m
          simp only [renderMember, List.length_append, List.length_cons]
          omega
        exact isPart_renderMember fun rest => ih m hm _ _ _ (by omega)
      have hread := readBracketed_bracketed rfl (by decide) indent level '\x7b' hparts rest
      rw [bracketed_eq, List.cons_append, value, List.head?_cons]
      dsimp only
      rw [if_neg (by decide), if_neg (by decide), if_pos rfl, List.tail_cons, hread,
        Option.map_some]

/-- **The round trip.** -/
theorem loads_dumps (indent : Nat) (v : Json) : loads (dumps indent v) = some v := by
  have hread := value_render indent v 0 (dumps indent v).length [] (Nat.le_refl _) ends_nil
  rw [List.append_nil] at hread
  rw [loads, dumps, skipSpace_of_solid (solid_render indent 0 v)]
  rw [dumps] at hread
  rw [hread]
  rfl

/-! ### A reader does not look past what it has read -/

section

variable {α β : Type}

/-- What the first reader reads of a text, the second one reads where the text goes on, and leaves
the rest and what comes after it. -/
def Extends (reader reader' : List Char → Option (α × List Char)) : Prop :=
  ∀ text a rest more, reader text = some (a, rest) → reader' (text ++ more) = some (a, rest ++ more)

/-- The same, of a text that was not read to its end. -/
def ExtendsInside (reader reader' : List Char → Option (α × List Char)) : Prop :=
  ∀ text a rest more, reader text = some (a, rest) → rest ≠ [] →
    reader' (text ++ more) = some (a, rest ++ more)

theorem Extends.inside {reader reader' : List Char → Option (α × List Char)}
    (h : Extends reader reader') : ExtendsInside reader reader' :=
  fun text a rest more hread _ => h text a rest more hread

theorem Extends.map {reader reader' : List Char → Option (α × List Char)}
    (h : Extends reader reader') (f : α → β) :
    Extends (fun text => (reader text).map fun (a, rest) => (f a, rest))
      fun text => (reader' text).map fun (a, rest) => (f a, rest) := by
  intro text b rest more hread
  obtain ⟨⟨a, rest₁⟩, ha, heq⟩ := Option.map_eq_some_iff.mp hread
  obtain ⟨rfl, rfl⟩ := Prod.mk.inj heq
  dsimp only
  rw [h text a rest₁ more ha, Option.map_some]

theorem ExtendsInside.map {reader reader' : List Char → Option (α × List Char)}
    (h : ExtendsInside reader reader') (f : α → β) :
    ExtendsInside (fun text => (reader text).map fun (a, rest) => (f a, rest))
      fun text => (reader' text).map fun (a, rest) => (f a, rest) := by
  intro text b rest more hread hne
  obtain ⟨⟨a, rest₁⟩, ha, heq⟩ := Option.map_eq_some_iff.mp hread
  obtain ⟨rfl, rfl⟩ := Prod.mk.inj heq
  dsimp only
  rw [h text a rest₁ more ha hne, Option.map_some]

theorem skipSpace_append {text : List Char} (more : List Char) (h : skipSpace text ≠ []) :
    skipSpace (text ++ more) = skipSpace text ++ more := by
  unfold skipSpace at h ⊢
  rw [List.dropWhile_append, if_neg (by simpa using h)]

theorem readHex4_extends : Extends readHex4 readHex4 := by
  intro text n rest more h
  unfold readHex4 at h
  split at h
  · split at h
    · rename_i ha hb hc hd
      obtain ⟨rfl, rfl⟩ := Prod.mk.inj (Option.some.inj h)
      simp only [List.cons_append, readHex4, ha, hb, hc, hd]
    · cases h
  · cases h

theorem readUnicode_extends : Extends readUnicode readUnicode := by
  intro text c rest more h
  unfold readUnicode at h ⊢
  split at h
  · cases h
  · rename_i n rest₁ hn
    rw [readHex4_extends text n rest₁ more hn]
    dsimp only
    split at h
    · rename_i hhigh
      rw [if_pos hhigh]
      split at h
      · rename_i hsecond
        obtain ⟨rest₂, rfl⟩ := List.isPrefixOf_iff_prefix.mp hsecond
        rw [List.append_assoc, if_pos (List.isPrefixOf_iff_prefix.mpr (List.prefix_append _ _))]
        have hdrop : ∀ rest, (['\\', 'u'] ++ rest).drop 2 = rest := fun _ => rfl
        rw [hdrop] at h ⊢
        split at h
        · cases h
        · rename_i m rest₃ hm
          rw [readHex4_extends rest₂ m rest₃ more hm]
          dsimp only
          split at h
          · rename_i hlow
            rw [if_pos hlow]
            obtain ⟨rfl, rfl⟩ := Prod.mk.inj (Option.some.inj h)
            rfl
          · cases h
      · cases h
    · rename_i hhigh
      rw [if_neg hhigh]
      split at h
      · cases h
      · rename_i hlow
        rw [if_neg hlow]
        obtain ⟨rfl, rfl⟩ := Prod.mk.inj (Option.some.inj h)
        rfl

theorem readChar_extends : Extends readChar readChar := by
  intro text c rest more h
  cases text with
  | nil => cases h
  | cons d text =>
      rw [List.cons_append]
      unfold readChar at h ⊢
      dsimp only at h ⊢
      split at h
      · rename_i hbackslash
        rw [if_pos hbackslash]
        cases text with
        | nil => cases h
        | cons letter text =>
            rw [List.cons_append]
            dsimp only at h ⊢
            split at h
            · rename_i hu
              rw [if_pos hu]
              exact readUnicode_extends text c rest more h
            · rename_i hu
              rw [if_neg hu]
              obtain ⟨c', hletter, heq⟩ := Option.map_eq_some_iff.mp h
              obtain ⟨rfl, rfl⟩ := Prod.mk.inj heq
              rw [hletter, Option.map_some]
      · rename_i hbackslash
        rw [if_neg hbackslash]
        split at h
        · cases h
        · rename_i hplain
          rw [if_neg hplain]
          obtain ⟨rfl, rfl⟩ := Prod.mk.inj (Option.some.inj h)
          rfl

theorem readChars_extends {m n : Nat} (h : m ≤ n) : Extends (readChars m) (readChars n) := by
  intro text cs rest more hread
  induction m generalizing n text cs with
  | zero => cases hread
  | succ m ih =>
      obtain ⟨n, rfl⟩ := Nat.exists_eq_add_of_le' (Nat.le_trans (Nat.le_add_left 1 m) h)
      unfold readChars at hread ⊢
      split at hread
      · rename_i hquote
        obtain ⟨rfl, rfl⟩ := Prod.mk.inj (Option.some.inj hread)
        have hne := List.ne_nil_of_mem (List.mem_of_head? hquote)
        rw [List.head?_append_of_ne_nil _ hne, if_pos hquote, List.tail_append_of_ne_nil hne]
      · rename_i hquote
        split at hread
        · cases hread
        · rename_i c rest₁ hc
          obtain ⟨⟨cs₁, rest₂⟩, hcs, heq⟩ := Option.map_eq_some_iff.mp hread
          obtain ⟨rfl, rfl⟩ := Prod.mk.inj heq
          have hne : text ≠ [] := by
            rintro rfl
            cases hc
          rw [List.head?_append_of_ne_nil _ hne, if_neg hquote,
            readChar_extends text c rest₁ more hc]
          dsimp only
          rw [ih (Nat.le_of_succ_le_succ h) rest₁ cs₁ hcs, Option.map_some]

theorem length_le_length_append (text more : List Char) : text.length ≤ (text ++ more).length := by
  rw [List.length_append]
  exact Nat.le_add_right _ _

theorem readString_extends : Extends readString readString := by
  intro text s rest more h
  obtain ⟨⟨cs, rest₁⟩, hcs, heq⟩ := Option.map_eq_some_iff.mp h
  obtain ⟨rfl, rfl⟩ := Prod.mk.inj heq
  rw [readString, readChars_extends (length_le_length_append text more) text cs rest₁ more hcs,
    Option.map_some]

theorem readNatural_extends : ExtendsInside readNatural readNatural := by
  intro text n rest more h hne
  unfold readNatural at h
  split at h
  · obtain ⟨rfl, rfl⟩ := Prod.mk.inj (Option.some.inj h)
    rfl
  · rename_i hzero
    split at h
    · cases h
    · rename_i hdigits
      obtain ⟨rfl, rfl⟩ := Prod.mk.inj (Option.some.inj h)
      -- the digits end inside the text
      have hdrop : (text ++ more).dropWhile Char.isDigit = text.dropWhile Char.isDigit ++ more := by
        rw [List.dropWhile_append, if_neg (by simpa using hne)]
      have htake : (text ++ more).takeWhile Char.isDigit = text.takeWhile Char.isDigit := by
        have hboth := List.takeWhile_append_dropWhile (p := Char.isDigit) (l := text ++ more)
        have hfront := List.takeWhile_append_dropWhile (p := Char.isDigit) (l := text)
        rw [hdrop, ← List.append_assoc] at hboth
        have htext := List.append_cancel_right hboth
        exact List.append_cancel_right (htext.trans hfront.symm)
      unfold readNatural
      split
      · rename_i rest₁ heq
        cases text with
        | nil => exact absurd rfl hdigits
        | cons c text =>
            obtain ⟨rfl, -⟩ := List.cons.inj heq
            exact absurd rfl (hzero text)
      · rw [htake, hdrop, if_neg hdigits]

theorem readNumber_extends : ExtendsInside readNumber readNumber := by
  intro text i rest more h hne
  unfold readNumber at h
  split at h
  · rename_i text₁
    rw [List.cons_append, readNumber]
    exact readNatural_extends.map (fun n => -(n : Int)) text₁ i rest more h hne
  · rename_i hminus
    have hread := readNatural_extends.map (fun n => (n : Int)) text i rest more h hne
    unfold readNumber
    split
    · rename_i rest₁ heq
      cases text with
      | nil => cases h
      | cons c text =>
          obtain ⟨rfl, -⟩ := List.cons.inj heq
          exact absurd rfl (hminus text)
    · exact hread

theorem readWord_extends (word : List Char) (v : Json) :
    Extends (readWord word v) (readWord word v) := by
  intro text w rest more h
  unfold readWord at h ⊢
  split at h
  · rename_i hprefix
    obtain ⟨rfl, rfl⟩ := Prod.mk.inj (Option.some.inj h)
    obtain ⟨tail, rfl⟩ := List.isPrefixOf_iff_prefix.mp hprefix
    rw [List.append_assoc, if_pos (List.isPrefixOf_iff_prefix.mpr (List.prefix_append _ _)),
      List.drop_left, List.drop_left]
  · cases h

variable {closing : Char} {item item' : List Char → Option (α × List Char)}

theorem separatedFuel_extends (hitem : ExtendsInside item item') (hnil : item [] = none)
    {m n : Nat} (h : m ≤ n) :
    Extends (separatedFuel closing item m) (separatedFuel closing item' n) := by
  intro text as rest more hread
  induction m generalizing n text as with
  | zero => cases hread
  | succ m ih =>
      obtain ⟨n, rfl⟩ := Nat.exists_eq_add_of_le' (Nat.le_trans (Nat.le_add_left 1 m) h)
      unfold separatedFuel at hread ⊢
      split at hread
      · cases hread
      · rename_i a rest₁ ha
        split at hread
        · cases hread
        · rename_i c rest₂ hc
          have hne : skipSpace rest₁ ≠ [] := by
            rw [hc]
            exact List.cons_ne_nil _ _
          have hinside : rest₁ ≠ [] := by
            rintro rfl
            exact hne rfl
          rw [hitem text a rest₁ more ha hinside]
          dsimp only
          rw [skipSpace_append more hne, hc, List.cons_append]
          dsimp only
          split at hread
          · rename_i hclosing
            rw [if_pos hclosing]
            obtain ⟨rfl, rfl⟩ := Prod.mk.inj (Option.some.inj hread)
            rfl
          · rename_i hclosing
            rw [if_neg hclosing]
            split at hread
            · rename_i hcomma
              rw [if_pos hcomma]
              obtain ⟨⟨as₁, rest₃⟩, has, heq⟩ := Option.map_eq_some_iff.mp hread
              obtain ⟨rfl, rfl⟩ := Prod.mk.inj heq
              have hsome : skipSpace rest₂ ≠ [] := by
                intro hempty
                rw [hempty] at has
                cases m with
                | zero => cases has
                | succ m =>
                    rw [separatedFuel, hnil] at has
                    cases has
              rw [skipSpace_append more hsome, ih (Nat.le_of_succ_le_succ h) _ as₁ has,
                Option.map_some]
            · cases hread

theorem readBracketed_extends (hitem : ExtendsInside item item') (hnil : item [] = none) :
    Extends (readBracketed closing item) (readBracketed closing item') := by
  intro text as rest more h
  have hne : skipSpace text ≠ [] := by
    intro hempty
    unfold readBracketed at h
    rw [hempty, List.head?_nil, if_neg (by simp)] at h
    cases hlen : text.length with
    | zero =>
        rw [hlen] at h
        cases h
    | succ m =>
        rw [hlen, separatedFuel, hnil] at h
        cases h
  unfold readBracketed at h ⊢
  rw [skipSpace_append more hne, List.head?_append_of_ne_nil _ hne]
  split at h
  · rename_i hclosing
    rw [if_pos hclosing]
    obtain ⟨rfl, rfl⟩ := Prod.mk.inj (Option.some.inj h)
    rw [List.tail_append_of_ne_nil hne]
  · rename_i hclosing
    rw [if_neg hclosing]
    exact separatedFuel_extends hitem hnil (length_le_length_append text more) _ as rest more h

theorem readMember_extends (hitem : ExtendsInside item item') (hnil : item [] = none) :
    ExtendsInside (readMember item) (readMember item') := by
  intro text a rest more h hne
  unfold readMember at h ⊢
  split at h
  · rename_i hquote
    have htext := List.ne_nil_of_mem (List.mem_of_head? hquote)
    rw [List.head?_append_of_ne_nil _ htext, if_pos hquote, List.tail_append_of_ne_nil htext]
    split at h
    · cases h
    · rename_i key rest₁ hkey
      rw [readString_extends _ key rest₁ more hkey]
      dsimp only
      split at h
      · rename_i hcolon
        have hrest₁ := List.ne_nil_of_mem (List.mem_of_head? hcolon)
        rw [skipSpace_append more hrest₁, List.head?_append_of_ne_nil _ hrest₁, if_pos hcolon,
          List.tail_append_of_ne_nil hrest₁]
        obtain ⟨⟨b, rest₂⟩, hb, heq⟩ := Option.map_eq_some_iff.mp h
        obtain ⟨rfl, rfl⟩ := Prod.mk.inj heq
        have hsome : skipSpace (skipSpace rest₁).tail ≠ [] := by
          intro hempty
          rw [hempty, hnil] at hb
          cases hb
        rw [skipSpace_append more hsome, hitem _ b rest₂ more hb hne, Option.map_some]
      · cases h
  · cases h

end

theorem value_nil (fuel : Nat) : value fuel [] = none := by
  cases fuel <;> rfl

theorem readMember_nil {α : Type} (item : List Char → Option (α × List Char)) :
    readMember item [] = none := rfl

/-- **A value** that ends inside a text is the same where the text goes on, and so is one that has
brackets around it, wherever it ends. -/
theorem value_extends {m n : Nat} (h : m ≤ n) {text rest : List Char} {v : Json}
    (hread : value m text = some (v, rest))
    (hend : rest ≠ [] ∨ text.head? = some '[' ∨ text.head? = some '\x7b') (more : List Char) :
    value n (text ++ more) = some (v, rest ++ more) := by
  induction m generalizing n text v rest more with
  | zero => cases hread
  | succ m ih =>
      obtain ⟨n, rfl⟩ := Nat.exists_eq_add_of_le' (Nat.le_trans (Nat.le_add_left 1 m) h)
      have hitem : ExtendsInside (value m) (value n) := fun text v rest more hread hne =>
        ih (Nat.le_of_succ_le_succ h) hread (Or.inl hne) more
      cases text with
      | nil => cases hread
      | cons c text =>
          rw [List.cons_append]
          unfold value at hread ⊢
          rw [List.head?_cons] at hread ⊢
          dsimp only at hread ⊢
          rw [List.tail_cons] at hread ⊢
          split at hread
          · rename_i hc
            rw [if_pos hc]
            exact readString_extends.map Json.str text v rest more hread
          · rename_i hquote
            rw [if_neg hquote]
            split at hread
            · rename_i hc
              rw [if_pos hc]
              exact (readBracketed_extends hitem (value_nil m)).map Json.arr text v rest more hread
            · rename_i hbracket
              rw [if_neg hbracket]
              split at hread
              · rename_i hc
                rw [if_pos hc]
                exact (readBracketed_extends (readMember_extends hitem (value_nil m))
                  (readMember_nil _)).map Json.obj text v rest more hread
              · rename_i hbrace
                rw [if_neg hbrace]
                -- a word, or a number that ends inside the text
                have hne : rest ≠ [] := by
                  refine hend.resolve_right ?_
                  rintro (hhead | hhead)
                  · exact hbracket (Option.some.inj hhead)
                  · exact hbrace (Option.some.inj hhead)
                rw [← List.cons_append]
                split_ifs at hread ⊢
                · exact readWord_extends _ _ _ v rest more hread
                · exact readWord_extends _ _ _ v rest more hread
                · exact readWord_extends _ _ _ v rest more hread
                · exact readNumber_extends.map Json.num _ v rest more hread hne

/-- **A front of a document** with brackets around it is no document. -/
theorem loads_of_front {indent : Nat} {v : Json} {front rest : List Char}
    (hv : (∃ items, v = .arr items) ∨ ∃ members, v = .obj members)
    (h : dumps indent v = front ++ rest) (hne : rest ≠ []) : loads front = none := by
  rw [Option.eq_none_iff_forall_ne_some]
  intro w hw
  have hhead : (dumps indent v).head? = some '[' ∨ (dumps indent v).head? = some '\x7b' := by
    rcases hv with ⟨items, rfl⟩ | ⟨members, rfl⟩
    · rw [dumps, render, bracketed_eq]
      exact Or.inl rfl
    · rw [dumps, render, bracketed_eq]
      exact Or.inr rfl
  have hfront : front ≠ [] := by
    rintro rfl
    cases hw
  rw [h, List.head?_append_of_ne_nil _ hfront] at hhead
  have hsolid : Solid front := by
    intro c hc
    rcases hhead with hhead | hhead <;>
    · rw [Option.mem_def, hhead] at hc
      exact Option.some.inj hc ▸ rfl
  rw [loads, skipSpace_of_solid hsolid] at hw
  cases hread : value front.length front with
  | none =>
      rw [hread] at hw
      cases hw
  | some found =>
      obtain ⟨u, left⟩ := found
      have hlen := length_le_length_append front rest
      have hwhole := value_extends hlen hread (Or.inr hhead) rest
      have hround := value_render indent v 0 (front ++ rest).length [] (h ▸ Nat.le_refl _) ends_nil
      rw [List.append_nil, ← dumps, h, hwhole] at hround
      have hnil : left ++ rest = [] := (Prod.mk.inj (Option.some.inj hround)).2
      exact hne (List.append_eq_nil_iff.mp hnil).2

/-! ### Bytes -/

/-- `text.encode("utf-8")`. -/
def utf8 (text : List Char) : List UInt8 := text.flatMap String.utf8EncodeChar

/-- `content.decode("utf-8")`. -/
def ofUtf8 (content : List UInt8) : Option (List Char) :=
  content.toByteArray.utf8Decode?.map Array.toList

/-- `json.loads` of what is stored, if that is UTF-8. -/
def loadBytes (content : List UInt8) : Option Json := (ofUtf8 content).bind loads

theorem ofUtf8_utf8 (text : List Char) : ofUtf8 (utf8 text) = some text := by
  have hbytes : (utf8 text).toByteArray = text.utf8Encode := rfl
  rw [ofUtf8, hbytes, List.utf8Decode?_utf8Encode, Option.map_some, List.toList_toArray]

theorem utf8_of_ofUtf8 {content : List UInt8} {text : List Char} (h : ofUtf8 content = some text) :
    utf8 text = content := by
  obtain ⟨chars, hchars, rfl⟩ := Option.map_eq_some_iff.mp h
  have hget := ByteArray.utf8Encode_get_utf8Decode? (b := content.toByteArray)
    (h := by rw [hchars]; rfl)
  simp only [hchars, Option.get_some] at hget
  exact List.toByteArray_inj.mp hget

/-- A front of an encoded text that can be decoded is the encoding of a front of the text. -/
theorem prefix_of_ofUtf8 {text text' : List Char} {front rest : List UInt8}
    (h : utf8 text = front ++ rest) (hfront : ofUtf8 front = some text') : text' <+: text := by
  refine List.isPrefix_of_utf8Encode_append_eq_utf8Encode rest.toByteArray ?_
  show (utf8 text').toByteArray ++ rest.toByteArray = (utf8 text).toByteArray
  rw [utf8_of_ofUtf8 hfront, h, List.toByteArray_append]

theorem loadBytes_dumps (indent : Nat) (v : Json) : loadBytes (utf8 (dumps indent v)) = some v := by
  rw [loadBytes, ofUtf8_utf8, Option.bind_some, loads_dumps]

/-- A front of the bytes of a document with brackets around it is no document. -/
theorem loadBytes_of_front {indent : Nat} {v : Json} {front rest : List UInt8}
    (hv : (∃ items, v = .arr items) ∨ ∃ members, v = .obj members)
    (h : utf8 (dumps indent v) = front ++ rest) (hne : rest ≠ []) : loadBytes front = none := by
  rw [loadBytes]
  cases hfront : ofUtf8 front with
  | none => rfl
  | some text =>
      obtain ⟨more, hmore⟩ := prefix_of_ofUtf8 h hfront
      rw [Option.bind_some]
      refine loads_of_front hv hmore.symm ?_
      rintro rfl
      rw [List.append_nil] at hmore
      rw [← hmore, utf8_of_ofUtf8 hfront] at h
      exact hne (List.self_eq_append_right.mp h)

end Json
