import SDownload.Lib.FixedWidth
import SDownload.Lib.Occurrences

/-!
# SDownload.Recovery.Dates

The dates of `json_utils.py`: `json_serializer` writes a `datetime` in ISO 8601,
with a `Z` for the offset of UTC, and `parse_json_date` reads it back.

A date without an offset comes back as one in UTC, every other one as it was, with
two exceptions (`parseJsonDate_jsonSerializer`). The `Z` stands for `+00:00`
wherever that occurs, and a positive offset of less than a minute begins with it:
such a date is not read. And `fromisoformat` looks at the whole seconds of an offset
to tell whether it is that of UTC: a date that is less than a second behind UTC comes
back with the same local time, in UTC.

Of `fromisoformat` the model reads what `isoformat` writes; the other forms of ISO
8601 are left out.
-/

namespace SDownload

open Numerals

/-! ### Dates -/

/-- What the constructor of `datetime` is given; the offset from UTC, if there is one, is in
microseconds. -/
structure DateFields where
  year : Nat
  month : Nat
  day : Nat
  hour : Nat
  minute : Nat
  second : Nat
  microsecond : Nat
  utcOffset : Option Int
  deriving Repr, DecidableEq

/-- A leap year of the Gregorian calendar. -/
def isLeap (year : Nat) : Bool := year % 4 = 0 && (year % 100 ≠ 0 || year % 400 = 0)

/-- The number of days of a month, which counts from one. -/
def daysInMonth (year month : Nat) : Nat :=
  if month = 2 then if isLeap year then 29 else 28
  else if month = 4 ∨ month = 6 ∨ month = 9 ∨ month = 11 then 30
  else 31

/-- What the constructors of `datetime` and `timezone` check. -/
def DateFields.Valid (f : DateFields) : Prop :=
  (1 ≤ f.year ∧ f.year ≤ 9999) ∧ (1 ≤ f.month ∧ f.month ≤ 12) ∧
    (1 ≤ f.day ∧ f.day ≤ daysInMonth f.year f.month) ∧
    f.hour < 24 ∧ f.minute < 60 ∧ f.second < 60 ∧ f.microsecond < 1000000 ∧
    (f.utcOffset.getD 0).natAbs < 86400000000

instance (f : DateFields) : Decidable f.Valid := inferInstanceAs (Decidable (_ ∧ _))

/-- Of the offset only its length is checked. -/
theorem DateFields.Valid.withOffset {f : DateFields} (h : f.Valid) {offset : Int}
    (hlt : offset.natAbs < 86400000000) :
    ({ f with utcOffset := some offset } : DateFields).Valid := by
  obtain ⟨hyear, hmonth, hday, hhour, hminute, hsecond, hmicros, -⟩ := h
  exact ⟨hyear, hmonth, hday, hhour, hminute, hsecond, hmicros, hlt⟩

/-- A `datetime`: fields that its constructor accepts. -/
structure DateTime extends DateFields where
  valid : toDateFields.Valid

theorem DateTime.ext_fields {d d' : DateTime} (h : d.toDateFields = d'.toDateFields) : d = d' := by
  cases d
  cases d'
  obtain rfl := h
  rfl

/-! ### Written -/

/-- `.%06d`, for microseconds that are not zero. -/
def formatMicroseconds (microsecond : Nat) : List Char :=
  if microsecond = 0 then [] else '.' :: fixed 6 microsecond

/-- The seconds of an offset, for one that is not of whole minutes. -/
def formatOffsetSeconds (micros : Nat) : List Char :=
  if micros % 60000000 = 0 then []
  else ':' :: (fixed 2 (micros / 1000000 % 60) ++ formatMicroseconds (micros % 1000000))

/-- The offset as `isoformat` writes it: its sign, then hours and minutes, then what is left. -/
def formatOffset (offset : Int) : List Char :=
  (if offset < 0 then '-' else '+') :: (fixed 2 (offset.natAbs / 3600000000) ++
    ':' :: (fixed 2 (offset.natAbs / 60000000 % 60) ++ formatOffsetSeconds offset.natAbs))

namespace DateTime

variable (d : DateTime)

/-- Date and time, up to the offset. -/
def formatLocal : List Char :=
  fixed 4 d.year ++ '-' :: (fixed 2 d.month ++ '-' :: (fixed 2 d.day ++
    'T' :: (fixed 2 d.hour ++ ':' :: (fixed 2 d.minute ++ ':' :: (fixed 2 d.second ++
      formatMicroseconds d.microsecond)))))

/-- `isoformat()`: a date without an offset ends with its time. -/
def isoformat : List Char :=
  d.formatLocal ++ match d.utcOffset with
    | none => []
    | some offset => formatOffset offset

/-- `obj.replace(tzinfo=timezone.utc)`, where there is no offset. -/
def aware : DateTime where
  toDateFields := { d.toDateFields with utcOffset := some (d.utcOffset.getD 0) }
  valid := d.valid

/-- The same local time, in UTC. -/
def inUtc : DateTime where
  toDateFields := { d.toDateFields with utcOffset := some 0 }
  valid := d.valid.withOffset (by decide)

end DateTime

/-- `json_serializer`, for a date. -/
def jsonSerializer (d : DateTime) : List Char :=
  replaceAll "+00:00".toList ['Z'] d.aware.isoformat

/-! ### Read -/

/-- A number of `w` digits, after a separator. -/
def readAfter (c : Char) (w : Nat) (text : List Char) : Option (Nat × List Char) :=
  if text.head? = some c then readFixed w text.tail else none

/-- Microseconds, if there are any. -/
def readMicroseconds (text : List Char) : Option (Nat × List Char) :=
  if text.head? = some '.' then readFixed 6 text.tail else some (0, text)

/-- The seconds of an offset, if there are any, in microseconds. -/
def readOffsetSeconds (text : List Char) : Option (Nat × List Char) :=
  if text.head? = some ':' then do
    let (seconds, text) ← readFixed 2 text.tail
    let (micros, text) ← readMicroseconds text
    some (seconds * 1000000 + micros, text)
  else some (0, text)

/-- The offset of the `timezone` that is made of one that was read. Only its whole seconds are
looked at to see that it is zero; the microseconds of such an offset are dropped. -/
def tzinfoFromIsoformat (offset : Int) : Int :=
  if offset.natAbs < 1000000 then 0 else offset

/-- The offset at the end of a date, if it has one. -/
def readOffset (text : List Char) : Option (Option Int) :=
  match text with
  | [] => some none
  | sign :: text =>
      if sign = '+' ∨ sign = '-' then do
        let (hours, text) ← readFixed 2 text
        let (minutes, text) ← readAfter ':' 2 text
        let (micros, text) ← readOffsetSeconds text
        let offset : Nat := (hours * 60 + minutes) * 60000000 + micros
        if text = [] then
          some (some (tzinfoFromIsoformat (if sign = '-' then -(offset : Int) else offset)))
        else none
      else none

/-- `datetime.fromisoformat`; `none` is the `ValueError`, of a text of another form or of fields
that are out of their ranges. -/
def fromisoformat (text : List Char) : Option DateTime := do
  let (year, text) ← readFixed 4 text
  let (month, text) ← readAfter '-' 2 text
  let (day, text) ← readAfter '-' 2 text
  let (hour, text) ← readAfter 'T' 2 text
  let (minute, text) ← readAfter ':' 2 text
  let (second, text) ← readAfter ':' 2 text
  let (microsecond, text) ← readMicroseconds text
  let utcOffset ← readOffset text
  let f : DateFields := { year, month, day, hour, minute, second, microsecond, utcOffset }
  if h : f.Valid then some { toDateFields := f, valid := h } else none

/-- `parse_json_date`. -/
def parseJsonDate (text : List Char) : Option DateTime :=
  if text.getLast? = some 'Z' then fromisoformat (replaceAll ['Z'] "+00:00".toList text)
  else fromisoformat text

/-! ### What is written is read -/

theorem readAfter_cons {c : Char} {w n : Nat} (hw : 0 < w) (h : n < 10 ^ w) (rest : List Char) :
    readAfter c w (c :: (fixed w n ++ rest)) = some (n, rest) := by
  rw [readAfter, List.head?_cons, if_pos rfl, List.tail_cons, readFixed_fixed hw h]

theorem readMicroseconds_formatMicroseconds {n : Nat} (h : n < 1000000) {rest : List Char}
    (hrest : rest.head? ≠ some '.') :
    readMicroseconds (formatMicroseconds n ++ rest) = some (n, rest) := by
  rw [formatMicroseconds, readMicroseconds]
  split
  · rename_i hzero
    rw [List.nil_append, if_neg hrest, hzero]
  · rw [List.cons_append, List.head?_cons, if_pos rfl, List.tail_cons,
      readFixed_fixed (by decide) h]

theorem readOffsetSeconds_formatOffsetSeconds (micros : Nat) :
    readOffsetSeconds (formatOffsetSeconds micros) = some (micros % 60000000, []) := by
  rw [formatOffsetSeconds, readOffsetSeconds]
  split
  · rename_i hwhole
    rw [hwhole, List.head?_nil, if_neg (by decide)]
  · have hmicros : readMicroseconds (formatMicroseconds (micros % 1000000) ++ []) =
        some (micros % 1000000, []) :=
      readMicroseconds_formatMicroseconds (by omega) (by decide)
    rw [List.append_nil] at hmicros
    rw [List.head?_cons, if_pos rfl, List.tail_cons,
      readFixed_fixed (by decide) (show micros / 1000000 % 60 < 10 ^ 2 by omega)]
    simp only [Option.bind_eq_bind, Option.bind_some, hmicros]
    congr 2
    omega

theorem readOffset_formatOffset {offset : Int} (h : offset.natAbs < 86400000000) :
    readOffset (formatOffset offset) = some (some (tzinfoFromIsoformat offset)) := by
  have hsign : ∀ {sign : Char}, (if offset < 0 then '-' else '+') = sign →
      (sign = '+' ∨ sign = '-') ∧
        (if sign = '-' then -(offset.natAbs : Int) else offset.natAbs) = offset := by
    rintro sign rfl
    split
    · exact ⟨Or.inr rfl, by rw [if_pos rfl]; omega⟩
    · exact ⟨Or.inl rfl, by rw [if_neg (by decide)]; omega⟩
  have hparts : (offset.natAbs / 3600000000 * 60 + offset.natAbs / 60000000 % 60) * 60000000 +
      offset.natAbs % 60000000 = offset.natAbs := by omega
  rw [formatOffset, readOffset, if_pos (hsign rfl).1,
    readFixed_fixed (by decide) (show offset.natAbs / 3600000000 < 10 ^ 2 by omega)]
  simp only [Option.bind_eq_bind, Option.bind_some]
  rw [readAfter_cons (by decide) (show offset.natAbs / 60000000 % 60 < 10 ^ 2 by omega)]
  simp only [Option.bind_some, readOffsetSeconds_formatOffsetSeconds, if_true, hparts]
  rw [(hsign rfl).2]

theorem head?_formatOffset (offset : Int) :
    (formatOffset offset).head? = some (if offset < 0 then '-' else '+') := rfl

/-- What stands before the offset, read; what follows must not go on with it. -/
theorem fromisoformat_formatLocal (d : DateTime) {rest : List Char}
    (hrest : rest.head? ≠ some '.') :
    fromisoformat (d.formatLocal ++ rest) = (readOffset rest).bind fun utcOffset =>
      if h : ({ d.toDateFields with utcOffset } : DateFields).Valid then
        some { toDateFields := { d.toDateFields with utcOffset }, valid := h }
      else none := by
  obtain ⟨⟨-, hyear⟩, ⟨-, hmonth⟩, ⟨-, hday⟩, hhour, hminute, hsecond, hmicros, -⟩ := d.valid
  have hdays : daysInMonth d.year d.month ≤ 31 := by
    unfold daysInMonth
    split_ifs <;> decide
  simp only [fromisoformat, DateTime.formatLocal, List.append_assoc, List.cons_append,
    Option.bind_eq_bind]
  rw [readFixed_fixed (by decide) (show d.year < 10 ^ 4 by omega), Option.bind_some,
    readAfter_cons (by decide) (show d.month < 10 ^ 2 by omega), Option.bind_some,
    readAfter_cons (by decide) (show d.day < 10 ^ 2 by omega), Option.bind_some,
    readAfter_cons (by decide) (show d.hour < 10 ^ 2 by omega), Option.bind_some,
    readAfter_cons (by decide) (show d.minute < 10 ^ 2 by omega), Option.bind_some,
    readAfter_cons (by decide) (show d.second < 10 ^ 2 by omega), Option.bind_some,
    readMicroseconds_formatMicroseconds hmicros hrest, Option.bind_some]

section

variable (d : DateTime)

theorem aware_valid : (d.utcOffset.getD 0).natAbs < 86400000000 := d.valid.2.2.2.2.2.2.2

/-- An offset as it comes back is one that `timezone` takes. -/
theorem tzinfoFromIsoformat_valid :
    ({ d.toDateFields with
        utcOffset := some (tzinfoFromIsoformat (d.utcOffset.getD 0)) } : DateFields).Valid := by
  refine d.valid.withOffset ?_
  rw [tzinfoFromIsoformat]
  split
  · decide
  · exact aware_valid d

/-- A date as `fromisoformat` gives it back: aware, and in UTC where its offset is less than a
second. -/
def DateTime.readBack : DateTime where
  toDateFields :=
    { d.toDateFields with utcOffset := some (tzinfoFromIsoformat (d.utcOffset.getD 0)) }
  valid := tzinfoFromIsoformat_valid d

/-- **`fromisoformat` reads what `isoformat` wrote**, for an aware date. -/
theorem fromisoformat_isoformat : fromisoformat d.aware.isoformat = some d.readBack := by
  have hiso : d.aware.isoformat = d.formatLocal ++ formatOffset (d.utcOffset.getD 0) := rfl
  have hfront : (formatOffset (d.utcOffset.getD 0)).head? ≠ some '.' := by
    rw [head?_formatOffset]
    split <;> decide
  rw [hiso, fromisoformat_formatLocal d hfront, readOffset_formatOffset (aware_valid d),
    Option.bind_some, dif_pos (tzinfoFromIsoformat_valid d)]
  rfl

/-- An offset of whole seconds comes back as it is, and so does every other one that is not less
than a second. -/
theorem DateTime.readBack_of_aware (h : 1000000 ≤ (d.utcOffset.getD 0).natAbs ∨
    d.utcOffset.getD 0 = 0) : d.readBack = d.aware := by
  refine DateTime.ext_fields ?_
  show ({ d.toDateFields with
    utcOffset := some (tzinfoFromIsoformat (d.utcOffset.getD 0)) } : DateFields) = _
  have hsame : tzinfoFromIsoformat (d.utcOffset.getD 0) = d.utcOffset.getD 0 := by
    rw [tzinfoFromIsoformat]
    split
    · omega
    · rfl
  rw [hsame]
  rfl

/-- A date less than a second from UTC comes back in UTC. -/
theorem DateTime.readBack_of_lt_second (h : (d.utcOffset.getD 0).natAbs < 1000000) :
    d.readBack = d.inUtc := by
  refine DateTime.ext_fields ?_
  show ({ d.toDateFields with
    utcOffset := some (tzinfoFromIsoformat (d.utcOffset.getD 0)) } : DateFields) = _
  rw [tzinfoFromIsoformat, if_pos h]
  rfl

end

/-! ### The offset of UTC -/

theorem not_mem_fixed {w n : Nat} : '+' ∉ fixed w n ∧ 'Z' ∉ fixed w n := by
  constructor <;>
  · intro h
    exact absurd (isDigit_of_mem_fixed h) (by decide)

/-- No letter and no sign stands before the offset, but a dash and a `T`. -/
theorem not_mem_formatLocal (d : DateTime) : '+' ∉ d.formatLocal ∧ 'Z' ∉ d.formatLocal := by
  have hmicros : '+' ∉ formatMicroseconds d.microsecond ∧
      'Z' ∉ formatMicroseconds d.microsecond := by
    rw [formatMicroseconds]
    split <;> simp [not_mem_fixed]
  simp [DateTime.formatLocal, not_mem_fixed, hmicros]

theorem not_mem_formatOffsetSeconds (micros : Nat) :
    '+' ∉ formatOffsetSeconds micros ∧ 'Z' ∉ formatOffsetSeconds micros := by
  rw [formatOffsetSeconds, formatMicroseconds]
  split_ifs <;> simp [not_mem_fixed]

theorem not_mem_tail_formatOffset (offset : Int) :
    '+' ∉ (formatOffset offset).tail ∧ 'Z' ∉ (formatOffset offset).tail := by
  have hseconds := not_mem_formatOffsetSeconds offset.natAbs
  rw [formatOffset]
  simp [not_mem_fixed, hseconds]

/-- The offsets whose text begins with that of UTC. -/
def Short (offset : Int) : Prop := 0 ≤ offset ∧ offset < 60000000

instance (offset : Int) : Decidable (Short offset) := inferInstanceAs (Decidable (_ ∧ _))

theorem formatOffset_short {offset : Int} (h : Short offset) :
    formatOffset offset = "+00:00".toList ++ formatOffsetSeconds offset.natAbs := by
  obtain ⟨hnonneg, hlt⟩ := h
  have hhours : offset.natAbs / 3600000000 = 0 := by omega
  have hminutes : offset.natAbs / 60000000 % 60 = 0 := by omega
  rw [formatOffset, if_neg (by omega), hhours, hminutes]
  rfl

/-- It is a prefix of no other. -/
theorem short_of_front {offset : Int} (h : "+00:00".toList <+: formatOffset offset)
    (hlt : offset.natAbs < 86400000000) : Short offset := by
  obtain ⟨rest, hrest⟩ := h
  obtain ⟨hsign, hdigits⟩ := List.cons.inj hrest
  have hnonneg : 0 ≤ offset := by
    by_contra hneg
    rw [if_pos (by omega)] at hsign
    exact absurd hsign (by decide)
  obtain ⟨hhours, hrest⟩ := fixed_append_inj (by decide) (m := 0) (by decide)
    (show offset.natAbs / 3600000000 < 10 ^ 2 by omega)
    (show fixed 2 0 ++ (':' :: (fixed 2 0 ++ rest)) = _ from hdigits)
  obtain ⟨hminutes, -⟩ := fixed_append_inj (by decide) (by decide)
    (show offset.natAbs / 60000000 % 60 < 10 ^ 2 by omega) (List.cons.inj hrest).2
  exact ⟨hnonneg, by omega⟩

theorem replaceAll_formatOffset_short {offset : Int} (h : Short offset) :
    replaceAll "+00:00".toList ['Z'] (formatOffset offset) =
      'Z' :: formatOffsetSeconds offset.natAbs := by
  have hrest : replaceAll "+00:00".toList ['Z'] (formatOffsetSeconds offset.natAbs) =
      formatOffsetSeconds offset.natAbs :=
    replaceAll_of_not_mem (not_mem_formatOffsetSeconds offset.natAbs).1
  rw [formatOffset_short h, replaceAll_self (by decide), hrest]
  rfl

theorem replaceAll_formatOffset_of_not_short {offset : Int} (h : ¬ Short offset)
    (hlt : offset.natAbs < 86400000000) :
    replaceAll "+00:00".toList ['Z'] (formatOffset offset) = formatOffset offset := by
  have hrest : replaceAll "+00:00".toList ['Z'] (formatOffset offset).tail =
      (formatOffset offset).tail :=
    replaceAll_of_not_mem (not_mem_tail_formatOffset offset).1
  have hcons : formatOffset offset =
      (if offset < 0 then '-' else '+') :: (formatOffset offset).tail := rfl
  have hprefix : ¬ "+00:00".toList <+:
      (if offset < 0 then '-' else '+') :: (formatOffset offset).tail := fun hprefix =>
    h (short_of_front hprefix hlt)
  rw [hcons, replaceAll_cons hprefix, hrest]

/-! ### The round trip -/

section

variable (d : DateTime)

theorem jsonSerializer_eq :
    jsonSerializer d = d.formatLocal ++
      replaceAll "+00:00".toList ['Z'] (formatOffset (d.utcOffset.getD 0)) :=
  replaceAll_append (not_mem_formatLocal d).1 _

/-- A date whose offset is not short is written as `isoformat` writes it, without a `Z`. -/
theorem parseJsonDate_of_not_short (h : ¬ Short (d.utcOffset.getD 0)) :
    parseJsonDate (jsonSerializer d) = some d.readBack := by
  have htext : jsonSerializer d = d.aware.isoformat := by
    rw [jsonSerializer_eq, replaceAll_formatOffset_of_not_short h (aware_valid d)]
    rfl
  have hmem : 'Z' ∉ formatOffset (d.utcOffset.getD 0) := by
    intro hz
    rcases List.mem_cons.mp hz with hsign | htail
    · split at hsign <;> exact absurd hsign (by decide)
    · exact (not_mem_tail_formatOffset _).2 htail
  have hlast : d.aware.isoformat.getLast? ≠ some 'Z' := by
    intro hz
    rcases List.mem_append.mp (List.mem_of_getLast? hz) with hlocal | hoffset
    · exact (not_mem_formatLocal d).2 hlocal
    · exact hmem hoffset
  rw [htext, parseJsonDate, if_neg hlast, fromisoformat_isoformat]

theorem parseJsonDate_of_utc (h : d.utcOffset.getD 0 = 0) :
    parseJsonDate (jsonSerializer d) = some d.readBack := by
  have htext : jsonSerializer d = d.formatLocal ++ ['Z'] := by
    rw [jsonSerializer_eq, replaceAll_formatOffset_short (by rw [h]; decide), h]
    rfl
  have hiso : d.formatLocal ++ "+00:00".toList = d.aware.isoformat := by
    show _ = d.formatLocal ++ formatOffset (d.utcOffset.getD 0)
    rw [h]
    rfl
  have hback : replaceAll ['Z'] "+00:00".toList (d.formatLocal ++ ['Z']) =
      d.formatLocal ++ "+00:00".toList :=
    replaceAll_append (not_mem_formatLocal d).2 ['Z']
  rw [htext, parseJsonDate, if_pos (by simp), hback, hiso, fromisoformat_isoformat]

/-- A `Z` with seconds behind it is no offset. -/
theorem parseJsonDate_of_short (h : Short (d.utcOffset.getD 0)) (hne : d.utcOffset.getD 0 ≠ 0) :
    parseJsonDate (jsonSerializer d) = none := by
  have htext : jsonSerializer d = d.formatLocal ++
      'Z' :: formatOffsetSeconds (d.utcOffset.getD 0).natAbs := by
    rw [jsonSerializer_eq, replaceAll_formatOffset_short h]
  obtain ⟨hnonneg, hlt⟩ := h
  have hseconds : formatOffsetSeconds (d.utcOffset.getD 0).natAbs ≠ [] := by
    rw [formatOffsetSeconds, if_neg (by omega)]
    exact List.cons_ne_nil _ _
  have hlast : (jsonSerializer d).getLast? ≠ some 'Z' := by
    intro hz
    rw [htext, List.append_cons, List.getLast?_append_of_ne_nil _ hseconds] at hz
    exact (not_mem_formatOffsetSeconds _).2 (List.mem_of_getLast? hz)
  rw [parseJsonDate, if_neg hlast, htext, fromisoformat_formatLocal d (by simp)]
  rfl

theorem parseJsonDate_readBack :
    parseJsonDate (jsonSerializer d) =
      if 0 < d.utcOffset.getD 0 ∧ d.utcOffset.getD 0 < 60000000 then none
      else some d.readBack := by
  by_cases hshort : Short (d.utcOffset.getD 0)
  · by_cases hzero : d.utcOffset.getD 0 = 0
    · rw [parseJsonDate_of_utc d hzero, if_neg (by omega)]
    · obtain ⟨hnonneg, hlt⟩ := hshort
      rw [parseJsonDate_of_short d ⟨hnonneg, hlt⟩ hzero, if_pos ⟨by omega, hlt⟩]
  · rw [parseJsonDate_of_not_short d hshort, if_neg]
    rintro ⟨hpos, hlt⟩
    exact hshort ⟨Int.le_of_lt hpos, hlt⟩

/-- **A date is read as it was written**, made aware, with two exceptions. One whose offset is
positive and less than a minute is not read at all; one that is less than a second behind UTC
comes back with the same local time in UTC, which is another instant. -/
theorem parseJsonDate_jsonSerializer :
    parseJsonDate (jsonSerializer d) =
      if 0 < d.utcOffset.getD 0 ∧ d.utcOffset.getD 0 < 60000000 then none
      else if -1000000 < d.utcOffset.getD 0 ∧ d.utcOffset.getD 0 < 0 then some d.inUtc
      else some d.aware := by
  rw [parseJsonDate_readBack]
  by_cases hshort : 0 < d.utcOffset.getD 0 ∧ d.utcOffset.getD 0 < 60000000
  · rw [if_pos hshort, if_pos hshort]
  · rw [if_neg hshort, if_neg hshort]
    by_cases hbehind : -1000000 < d.utcOffset.getD 0 ∧ d.utcOffset.getD 0 < 0
    · rw [if_pos hbehind, d.readBack_of_lt_second (by omega)]
    · rw [if_neg hbehind, d.readBack_of_aware (by omega)]

end

end SDownload
