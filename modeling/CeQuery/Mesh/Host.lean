import CeQuery.Engine.Basic
import CeQuery.Mesh.Wire

/-!
# The hosts of a run

A run reaches its shards in one of two ways. The local host fetches a blob and
maps it in the process of the coordinator. The mesh host sends a request to an
agent, which serves it with `serveMap`, and reads the reply.

The blob store and the node that carries requests are given from outside; what
they report as an error is a text.
-/

namespace CeQuery

/-- The blobs by content identifier, or the text of the error. -/
abbrev BlobStore : Type := String → Except String ByteArray

/-- What is used of the node that carries requests. -/
structure MeshClient where
  /-- Send a payload under a topic to a host, with a timeout in milliseconds. -/
  request : String → String → ByteArray → U64 → Except String ByteArray
  /-- What is said of bytes that are not a reply. -/
  complaint : ByteArray → String

/-- The topic of map requests. -/
def mapTopic : String := "ce-query/map/1"

/-- The kind of error that fetching a blob ended with, by its text. -/
def classifyFetchError (cid : String) (e : String) : MapError :=
  if Text.mentions e "404" || Text.mentions e "not found" then .missingBlob cid
  else if Text.mentions e "timed out" || Text.mentions e "timeout" then .timeout
  else .hostError e

/-- The kind of error that a request ended with, by its text. -/
def classifyRequestError (e : String) : MapError :=
  if Text.mentions e "timed out" || Text.mentions e "timeout" || Text.mentions e "504" then .timeout
  else .hostError e

section

variable (serde : SerdeJson) (json : JsonText) (store : BlobStore)

/-! ## The local host -/

/-- Fetch and decode the rows of a shard. -/
def fetchRows (shard : Shard) : Except MapError (List Row) :=
  match store shard.cid with
  | .error e => .error (classifyFetchError shard.cid e)
  | .ok bytes =>
      if bytes.size > maxMapPayloadBytes then
        .error (.hostError (s!"shard {shard.cid} is {bytes.size} bytes, exceeds the " ++
          s!"{maxMapPayloadBytes}-byte scan limit"))
      else (decodeShard json bytes).mapError fun e => .corrupt (e.display serde)

def localMapHost : MapHost where
  map _ shard q := (fetchRows serde json store shard).map (q.mapShard serde)
  project _ shard q := (fetchRows serde json store shard).map q.projectShard

/-! ## The agent -/

/-- Serve one map request. `verify` permits it or says why not. -/
def serveMap (verify : MapRequest → Except String Unit) (req : MapRequest) : MapReply :=
  match verify req with
  | .error reason => .err s!"unauthorized: {reason}"
  | .ok () =>
      match req.query.validate with
      | .error e => .err s!"invalid query: {e}"
      | .ok () =>
          match store req.shard.cid with
          | .error e => .err s!"fetch {req.shard.cid}: {e}"
          | .ok bytes =>
              if bytes.size > maxMapPayloadBytes then
                .err (s!"shard {req.shard.cid} is {bytes.size} bytes, exceeds the " ++
                  s!"{maxMapPayloadBytes}-byte scan limit")
              else
                match decodeShard json bytes with
                | .error e => .err ("decode shard: " ++ e.display serde)
                | .ok rows =>
                    if req.query.isProjection then
                      let projected := req.query.projectShard rows
                      if projected.length > maxProjectionRows then
                        .err (s!"projection produced {projected.length} rows, exceeds the " ++
                          s!"{maxProjectionRows}-row limit")
                      else .rows projected
                    else .ok (req.query.mapShard serde rows)

/-- The bytes of a reply. -/
def replyBytes (reply : MapReply) : ByteArray :=
  (json.print (replyCodec.encode reply)).toUTF8

end

section Serve

variable {serde : SerdeJson} {json : JsonText} {store : BlobStore}
  {verify : MapRequest → Except String Unit} {req : MapRequest} {rows : List Row}

/-- The reply of an agent that permits a valid query on a blob it can decode. -/
theorem serveMap_eq {bytes : ByteArray} (hverify : verify req = .ok ())
    (hvalid : req.query.validate = .ok ()) (hblob : store req.shard.cid = .ok bytes)
    (hsize : bytes.size ≤ maxMapPayloadBytes) (hrows : decodeShard json bytes = .ok rows)
    (hlimit : req.query.isProjection = true →
      (req.query.projectShard rows).length ≤ maxProjectionRows) :
    serveMap serde json store verify req =
      if req.query.isProjection then .rows (req.query.projectShard rows)
      else .ok (req.query.mapShard serde rows) := by
  simp only [serveMap, hverify, hvalid, hblob, hrows, if_neg (Nat.not_lt.mpr hsize)]
  cases hprojection : req.query.isProjection with
  | false => rfl
  | true => simp only [if_neg (Nat.not_lt.mpr (hlimit hprojection))]

theorem fetchRows_eq {shard : Shard} {bytes : ByteArray} (hblob : store shard.cid = .ok bytes)
    (hsize : bytes.size ≤ maxMapPayloadBytes) (hrows : decodeShard json bytes = .ok rows) :
    fetchRows serde json store shard = .ok rows := by
  simp only [fetchRows, hblob, if_neg (Nat.not_lt.mpr hsize), hrows]
  rfl

end Serve

/-! ## The mesh host -/

structure MeshMapHost where
  client : MeshClient
  grant : Option String
  timeoutMs : U64

namespace MeshMapHost

variable (h : MeshMapHost) (json : JsonText)

/-- Decode the bytes of a reply. -/
def decodeReply (bytes : ByteArray) : Except MapError MapReply :=
  if bytes.size > maxMapPayloadBytes then
    .error (.hostError
      s!"map reply is {bytes.size} bytes, exceeds the {maxMapPayloadBytes}-byte limit")
  else
    match (json.parseBytes bytes).bind replyCodec.decode with
    | some reply => .ok reply
    | none => .error (.corrupt ("decoding map reply: " ++ h.client.complaint bytes))

/-- Encode and send a map request, and decode the reply. -/
def send (hostId : String) (shard : Shard) (query : Query) : Except MapError MapReply :=
  let payload := (json.print (requestCodec.encode { query, shard, grant := h.grant })).toUTF8
  if payload.size > maxMapPayloadBytes then
    .error (.hostError
      s!"map request is {payload.size} bytes, exceeds the {maxMapPayloadBytes}-byte limit")
  else
    match h.client.request hostId mapTopic payload h.timeoutMs with
    | .error e => .error (classifyRequestError e)
    | .ok bytes => h.decodeReply json bytes

/-- The partial of a reply. -/
def replyPartial : MapReply → Except MapError Partial
  | .ok p => .ok p
  | .rows _ => .error (.corrupt "host returned rows for an aggregate query")
  | .err reason => .error (.hostError reason)

/-- The rows of a reply. -/
def replyRows : MapReply → Except MapError (List Row)
  | .rows rows =>
      if rows.length > maxProjectionRows then
        .error (.hostError (s!"projection reply has {rows.length} rows, exceeds the " ++
          s!"{maxProjectionRows}-row limit"))
      else .ok rows
  | .ok _ => .error (.corrupt "host returned a partial for a projection query")
  | .err reason => .error (.hostError reason)

def mapHost : MapHost where
  map hostId shard query := (h.send json hostId shard query).bind replyPartial
  project hostId shard query := (h.send json hostId shard query).bind replyRows

end MeshMapHost

end CeQuery
