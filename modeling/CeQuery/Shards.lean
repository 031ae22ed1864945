import CeQuery.Dataset
import CeQuery.ValueDocument

/-!
# Shards on the wire

A shard is a blob of lines, each the JSON object of one row. Rows are spread over
shards round-robin. A blob is read line by line: blank lines are skipped, and a
line that is not a JSON object is an error.
-/

namespace CeQuery

/-- Cells as documents. -/
def valueCodec : Codec Value where
  encode := Value.toDocument
  decode := Value.ofDocument

theorem valueCodec_keeps {v : Value} (h : v.Ordered) : valueCodec.Keeps v :=
  Value.ofDocument_toDocument v h

/-- Rows as objects. -/
def rowCodec : Codec Row :=
  valueCodec.map

/-- The longest dataset name, in bytes. -/
def maxDatasetNameLen : Nat := 128

/-- A dataset name is a nonempty text of letters, digits and `_ - . :`; the
whitespace around it is dropped. -/
def validateDatasetName (name : String) : Except String String :=
  let name := String.ofList (Text.trim name.toList)
  if name.isEmpty then .error "dataset name is empty"
  else if name.utf8ByteSize > maxDatasetNameLen then
    .error s!"dataset name is {name.utf8ByteSize} chars, exceeds the {maxDatasetNameLen}-char limit"
  else
    match name.toList.find? fun c =>
      !(c.isAlphanum || c == '_' || c == '-' || c == '.' || c == ':') with
    | some bad => .error ("dataset name contains an invalid character `" ++ bad.toString ++
        "` (allowed: A-Z a-z 0-9 _ - . :)")
    | none => .ok name

/-- Why a blob is not a shard. -/
inductive DecodeError where
  | notUtf8
  /-- A line is not JSON. -/
  | malformed (line : Nat)
  /-- A line is JSON but not an object. -/
  | notObject (line : Nat) (other : Value)

def DecodeError.display (json : SerdeJson) : DecodeError → String
  | notUtf8 => "shard is not valid UTF-8"
  | malformed line => s!"malformed JSON on shard line {line}"
  | notObject line other => s!"shard line {line} is not a JSON object: " ++ json.toString other

/-- The error without the number of its line. -/
def DecodeError.unnumbered : DecodeError → DecodeError
  | notUtf8 => notUtf8
  | malformed _ => malformed 0
  | notObject _ other => notObject 0 other

/-- Encode rows, one line for each. -/
def encodeShard (json : JsonText) (rows : List Row) : ByteArray :=
  (String.ofList (rows.flatMap fun row =>
    (json.print (rowCodec.encode row)).toList ++ ['\n'])).toUTF8

/-- Read the lines from number `line` on. -/
def decodeLines (json : JsonText) : Nat → List (List Char) → Except DecodeError (List Row)
  | _, [] => .ok []
  | line, text :: rest =>
      if Text.trim text = [] then decodeLines json (line + 1) rest
      else
        match (json.parse (String.ofList (Text.trim text))).bind Value.ofDocument with
        | none => .error (.malformed line)
        | some (.object members) =>
            (decodeLines json (line + 1) rest).map fun rows =>
              Std.ExtTreeMap.ofList members compare :: rows
        | some other => .error (.notObject line other)

/-- Decode a blob into rows. -/
def decodeShard (json : JsonText) (bytes : ByteArray) : Except DecodeError (List Row) :=
  match String.fromUTF8? bytes with
  | none => .error .notUtf8
  | some text => decodeLines json 1 (Text.lines text.toList)

theorem decodeShard_toUTF8 (json : JsonText) (text : String) :
    decodeShard json text.toUTF8 = decodeLines json 1 (Text.lines text.toList) := by
  rw [decodeShard, fromUTF8?_toUTF8]

/-- Every cell of the row lists the members of its objects in key order. -/
def Row.Ordered (row : Row) : Prop :=
  ∀ (c : String) (v : Value), row[c]? = some v → v.Ordered

theorem rowCodec_keeps {row : Row} (h : Row.Ordered row) : rowCodec.Keeps row :=
  Codec.map_keeps_iff.mpr fun c v hv => valueCodec_keeps (h c v hv)

theorem decodeLines_ordered {json : JsonText} {line : Nat} {texts : List (List Char)}
    {rows : List Row} (h : decodeLines json line texts = .ok rows) :
    ∀ row ∈ rows, Row.Ordered row := by
  induction texts generalizing line rows with
  | nil =>
      cases h
      intro row hrow
      cases hrow
  | cons text rest ih =>
      rw [decodeLines] at h
      split at h
      · exact ih h
      · split at h
        · cases h
        · rename_i members hread
          obtain ⟨d, _, hd⟩ := Option.bind_eq_some_iff.mp hread
          cases hrest : decodeLines json (line + 1) rest with
          | error e =>
              rw [hrest] at h
              cases h
          | ok more =>
              rw [hrest] at h
              cases h
              intro row hrow
              rcases List.mem_cons.mp hrow with rfl | hrow
              · intro c v hv
                have hmember := BTreeMap.mem_of_getElem?_ofList hv
                exact Value.orderedMembers_iff.mp (Value.ofDocument_ordered hd).2 _ hmember
              · exact ih hrest row hrow
        · cases h

/-- The cells of decoded rows are in order. -/
theorem decodeShard_ordered {json : JsonText} {bytes : ByteArray} {rows : List Row}
    (h : decodeShard json bytes = .ok rows) : ∀ row ∈ rows, Row.Ordered row := by
  rw [decodeShard] at h
  split at h
  · cases h
  · exact decodeLines_ordered h

/-- Split rows into shards round-robin and encode each of them. -/
def shardRows (json : JsonText) (rows : List Row) (shardCount : Nat) :
    Except String (List (List Row × ByteArray)) :=
  if shardCount = 0 then .error "shard_count must be positive"
  else
    let buckets := rows.zipIdx.foldl
      (fun buckets (row, i) => buckets.modify (i % shardCount) (· ++ [row]))
      (List.replicate shardCount [])
    .ok (buckets.map fun bucket => (bucket, encodeShard json bucket))

end CeQuery
