import SDownload.Lib.Json
import SDownload.Recovery.Dates
import SDownload.Recovery.RecoveryDownload

/-!
# SDownload.Recovery.Metadata

The JSON of the recovery metadata, as `json_dumps(asdict(state_dto))` writes it and
`load_info` reads it: a `JsonCodec` for real.

What was written is read back, up to the offset of the date (`loads_dumps`), and a
file that a crash cut short is not read as anything (`loads_of_front`): the document
is an object, and its closing brace is the last byte that is written.

Metadata whose attributes have other types than `save_info` gives them is not read
by the model.
-/

namespace SDownload

/-! ### Attributes -/

/-- An attribute of the `SimpleNamespace` that an object is loaded as. Of members with the same
key, the last one counts. -/
def Json.attr (key : String) : Json → Option Json
  | .obj members => members.reverse.lookup key
  | _ => none

/-- An attribute that is used as a string. -/
def Json.asString : Json → Option String
  | .str s => some s
  | _ => none

/-- An attribute that is used as a number. -/
def Json.asInt : Json → Option Int
  | .num i => some i
  | _ => none

/-- An attribute that is iterated over. -/
def Json.asItems : Json → Option (List Json)
  | .arr items => some items
  | _ => none

/-! ### Written -/

/-- `asdict`, of a `RecoveryChunkDTO`. -/
def RecoveryChunkDTO.asdict (c : RecoveryChunkDTO) : Json :=
  .obj [("chunk_file_name", .str c.chunkFileName), ("start", .num c.start),
    ("end", .num c.endByte), ("bytes", .num c.bytes)]

/-- `asdict`, of a `RecoveryStateDTO`, with its date serialized. -/
def RecoveryStateDTO.asdict (state : RecoveryStateDTO DateTime) : Json :=
  .obj [("file_id", .str state.fileId), ("file_size", .num state.fileSize),
    ("chunks", .arr (state.chunks.map RecoveryChunkDTO.asdict)),
    ("updated_at", .str (String.ofList (jsonSerializer state.updatedAt)))]

/-- `json_dumps`, for the metadata. -/
def jsonDumps (state : RecoveryStateDTO DateTime) : Bytes :=
  Json.utf8 (Json.dumps 4 state.asdict)

/-! ### Read -/

/-- What `load_info` reads of a chunk. -/
def RecoveryChunkDTO.ofJson (c : Json) : Option RecoveryChunkDTO := do
  let chunkFileName ← (Json.attr "chunk_file_name" c).bind Json.asString
  let bytes ← (Json.attr "bytes" c).bind Json.asInt
  let start ← (Json.attr "start" c).bind Json.asInt
  let endByte ← (Json.attr "end" c).bind Json.asInt
  some { chunkFileName, start, endByte, bytes }

/-- What `load_info` reads of the whole metadata; `none` is any exception on the way. -/
def RecoveryStateDTO.ofJson (rawData : Json) : Option (RecoveryStateDTO DateTime) := do
  let chunks ← (Json.attr "chunks" rawData).bind Json.asItems
  let chunks ← chunks.mapM RecoveryChunkDTO.ofJson
  let fileId ← (Json.attr "file_id" rawData).bind Json.asString
  let fileSize ← (Json.attr "file_size" rawData).bind Json.asInt
  let date ← (Json.attr "updated_at" rawData).bind Json.asString
  let updatedAt ← parseJsonDate date.toList
  some { fileId, fileSize, chunks, updatedAt }

/-- The metadata of a file. -/
def jsonLoads (content : Bytes) : Option (RecoveryStateDTO DateTime) :=
  (Json.loadBytes content).bind RecoveryStateDTO.ofJson

/-- What `recovery_download.py` uses. -/
def jsonCodec : JsonCodec DateTime where
  dumps := jsonDumps
  loads := jsonLoads

/-! ### What is written is read -/

theorem RecoveryChunkDTO.ofJson_asdict (c : RecoveryChunkDTO) :
    RecoveryChunkDTO.ofJson c.asdict = some c := rfl

theorem mapM_ofJson_asdict (chunks : List RecoveryChunkDTO) :
    (chunks.map RecoveryChunkDTO.asdict).mapM RecoveryChunkDTO.ofJson = some chunks := by
  induction chunks with
  | nil => rfl
  | cons c rest ih =>
      rw [List.map_cons, List.mapM_cons, RecoveryChunkDTO.ofJson_asdict, ih]
      rfl

/-- A date that is read back: its offset is not a positive one of less than a minute. -/
def DateTime.Readable (d : DateTime) : Prop :=
  ¬ (0 < d.utcOffset.getD 0 ∧ d.utcOffset.getD 0 < 60000000)

instance (d : DateTime) : Decidable d.Readable := inferInstanceAs (Decidable (¬ (_ ∧ _)))

theorem RecoveryStateDTO.ofJson_asdict (state : RecoveryStateDTO DateTime) :
    RecoveryStateDTO.ofJson state.asdict =
      if state.updatedAt.Readable then some { state with updatedAt := state.updatedAt.readBack }
      else none := by
  have hchunks : (Json.attr "chunks" state.asdict).bind Json.asItems =
      some (state.chunks.map RecoveryChunkDTO.asdict) := rfl
  have hid : (Json.attr "file_id" state.asdict).bind Json.asString = some state.fileId := rfl
  have hsize : (Json.attr "file_size" state.asdict).bind Json.asInt = some state.fileSize := rfl
  have hdate : (Json.attr "updated_at" state.asdict).bind Json.asString =
      some (String.ofList (jsonSerializer state.updatedAt)) := rfl
  simp only [RecoveryStateDTO.ofJson, hchunks, hid, hsize, hdate, mapM_ofJson_asdict,
    Option.bind_eq_bind, Option.bind_some, String.toList_ofList, parseJsonDate_readBack]
  by_cases h : state.updatedAt.Readable
  · rw [if_pos h, if_neg h]
    rfl
  · rw [if_neg h, if_pos (not_not.mp h)]
    rfl

theorem loads_eq (content : Bytes) :
    jsonCodec.loads content = (Json.loadBytes content).bind RecoveryStateDTO.ofJson := rfl

theorem dumps_eq (state : RecoveryStateDTO DateTime) :
    jsonCodec.dumps state = Json.utf8 (Json.dumps 4 state.asdict) := rfl

/-- **The metadata is read as it was written**, with its date as
`fromisoformat` gives it back. -/
theorem loads_dumps (state : RecoveryStateDTO DateTime) :
    jsonCodec.loads (jsonCodec.dumps state) =
      if state.updatedAt.Readable then some { state with updatedAt := state.updatedAt.readBack }
      else none := by
  rw [loads_eq, dumps_eq, Json.loadBytes_dumps, Option.bind_some, RecoveryStateDTO.ofJson_asdict]

/-- `datetime.now(timezone.utc)`. -/
def DateTime.IsUtc (d : DateTime) : Prop := d.utcOffset = some 0

instance (d : DateTime) : Decidable d.IsUtc := inferInstanceAs (Decidable (_ = _))

theorem DateTime.IsUtc.readBack {d : DateTime} (h : d.IsUtc) : d.readBack = d := by
  rw [d.readBack_of_aware (Or.inr (by rw [h]; rfl))]
  refine DateTime.ext_fields ?_
  show ({ d.toDateFields with utcOffset := some (d.utcOffset.getD 0) } : DateFields) = _
  rw [h, Option.getD_some, ← h]

theorem DateTime.IsUtc.readable {d : DateTime} (h : d.IsUtc) : d.Readable := by
  rw [DateTime.Readable, h]
  decide

theorem loads_dumps_of_utc {state : RecoveryStateDTO DateTime} (h : state.updatedAt.IsUtc) :
    jsonCodec.loads (jsonCodec.dumps state) = some state := by
  rw [loads_dumps, if_pos h.readable, h.readBack]

/-- **A file that was cut short** holds no metadata. -/
theorem loads_of_front {state : RecoveryStateDTO DateTime} {front rest : Bytes}
    (h : jsonCodec.dumps state = front ++ rest) (hne : rest ≠ []) :
    jsonCodec.loads front = none := by
  rw [dumps_eq] at h
  rw [loads_eq, Json.loadBytes_of_front (Or.inr ⟨_, rfl⟩) h hne, Option.bind_none]

/-- **What is loaded of the first bytes of a metadata file**: all of it from all of them, and
nothing from less. -/
theorem loads_take_dumps (state : RecoveryStateDTO DateTime) (m : Nat) :
    jsonCodec.loads ((jsonCodec.dumps state).take m) =
      if (jsonCodec.dumps state).length ≤ m ∧ state.updatedAt.Readable then
        some { state with updatedAt := state.updatedAt.readBack }
      else none := by
  by_cases hall : (jsonCodec.dumps state).length ≤ m
  · rw [List.take_of_length_le hall, loads_dumps]
    simp only [hall, true_and]
  · rw [if_neg fun h => hall h.1]
    refine loads_of_front (List.take_append_drop m _).symm fun hnil => ?_
    have hlen := congrArg List.length hnil
    rw [List.length_drop, List.length_nil] at hlen
    omega

theorem dumps_ne_nil (state : RecoveryStateDTO DateTime) : jsonCodec.dumps state ≠ [] := by
  intro h
  have hempty := Json.loadBytes_dumps 4 state.asdict
  rw [← dumps_eq, h] at hempty
  have hnil : Json.loadBytes [] = none := by
    show (Json.ofUtf8 (Json.utf8 [])).bind Json.loads = none
    rw [Json.ofUtf8_utf8]
    rfl
  rw [hnil] at hempty
  cases hempty

end SDownload
