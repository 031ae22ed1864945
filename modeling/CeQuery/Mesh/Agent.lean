import CeQuery.Foundation.Hex
import CeQuery.Foundation.Machine
import CeQuery.Mesh.Request
import CeQuery.Mesh.Serve

/-!
# The serving agent

An agent takes the messages of its inbox batch by batch. A message that is no map
request is ignored, one that is too large is refused, and every other one becomes a
job of its own as soon as a permit is free. A job reads the set of revoked
capabilities, serves its request and replies, while the loop goes on. The loop
refreshes the set from the node when the last refresh is old enough, between two
batches.

The events are the steps of the loop and of the jobs, in any order. Messages are
numbered as they are taken.
-/

namespace CeQuery

namespace Agent

/-- Read a node id: 64 hexadecimal digits, in either case. -/
def parseNodeId (hexId : String) : Except String NodeId :=
  match Hex.decode (Text.trim hexId.toList) with
  | none => .error "node id is not valid hex"
  | some bytes =>
      if h : bytes.length = 32 then .ok ⟨bytes.toArray, by simpa using h⟩
      else .error "node id must be 32 bytes (64 hex chars)"

/-- The digits of a node id, in lower case. -/
def hexDigits (id : NodeId) : List Char :=
  Hex.encode id.toList

private theorem digit_not_space : ∀ n : Fin 16, Text.isWhitespace (Hex.digit n) = false ∧
    Text.isWhitespace (Hex.digit n).toUpper = false := by
  decide

private theorem parseNodeId_of_decode {text : String} {id : NodeId}
    (hspace : ∀ c ∈ text.toList, Text.isWhitespace c = false)
    (hdecode : Hex.decode text.toList = some id.toList) : parseNodeId text = .ok id := by
  have htrim : Text.trim text.toList = text.toList := by
    apply Text.trim_eq_self
    · exact fun c hc => hspace c (List.mem_of_mem_head? hc)
    · exact fun c hc => hspace c (List.mem_of_mem_getLast? hc)
  rw [parseNodeId, htrim, hdecode]
  simp only [Vector.length_toList, dite_true]
  rfl

/-- A node id can be read in either case. -/
theorem parseNodeId_hexDigits (id : NodeId) :
    parseNodeId (String.ofList (hexDigits id)) = .ok id ∧
      parseNodeId (String.ofList ((hexDigits id).map Char.toUpper)) = .ok id := by
  constructor
  · apply parseNodeId_of_decode
    · intro c hc
      rw [String.toList_ofList] at hc
      obtain ⟨n, hn, rfl⟩ := Hex.exists_digit_of_mem hc
      exact (digit_not_space ⟨n, hn⟩).1
    · rw [String.toList_ofList]
      exact Hex.decode_encode _
  · apply parseNodeId_of_decode
    · intro c hc
      rw [String.toList_ofList] at hc
      obtain ⟨d, hd, rfl⟩ := List.mem_map.mp hc
      obtain ⟨n, hn, rfl⟩ := Hex.exists_digit_of_mem hd
      exact (digit_not_space ⟨n, hn⟩).2
    · rw [String.toList_ofList]
      exact Hex.decode_upper _

/-- A message as the node hands it out. `Token` names the place of a reply. -/
structure Message (Token : Type) where
  topic : String
  replyToken : Option Token
  /-- The id of the sending node. -/
  sender : String
  payload : Except String ByteArray

/-- What becomes of a message before any work is done for it. -/
inductive Intake (Token : Type) where
  | ignored
  | refused (token : Token)
  | request (token : Token) (requester : Option NodeId) (req : MapRequest)

/-- The reply to a request that is too large to be read. -/
def tooLarge : MapReply := .err "request too large"

def Message.intake {Token : Type} (json : JsonText) (m : Message Token) : Intake Token :=
  if m.topic ≠ mapTopic then .ignored
  else
    match m.replyToken with
    | none => .ignored
    | some token =>
        match m.payload with
        | .error _ => .ignored
        | .ok payload =>
            if payload.size > maxMapPayloadBytes then .refused token
            else
              match decodeRequest json payload with
              | none => .ignored
              | some req => .request token (parseNodeId m.sender).toOption req

/-- The revoked capabilities, by issuer and nonce. -/
abbrev RevokedSet : Type := List (NodeId × U64)

def RevokedSet.has (revoked : RevokedSet) (issuer : NodeId) (nonce : U64) : Bool :=
  decide ((issuer, nonce) ∈ revoked)

/-- The set of a listing. Issuers that are not node ids are skipped. -/
def RevokedSet.ofListing (listing : List (String × U64)) : RevokedSet :=
  listing.filterMap fun (issuerHex, nonce) =>
    (parseNodeId issuerHex).toOption.map fun id => (id, nonce)

/-- The set after a refresh; the previous one is kept when the node does not answer. -/
def refresh (revoked : RevokedSet) : Except String (List (String × U64)) → RevokedSet
  | .ok listing => .ofListing listing
  | .error _ => revoked

/-- How an agent was started. -/
structure Setup where
  selfId : NodeId
  requireGrant : Bool
  revocationRefreshSecs : U64
  acceptedRoots : List NodeId
  maxConcurrent : Nat

/-- A request that holds a permit. -/
structure Job (Token : Type) where
  number : Nat
  token : Token
  requester : Option NodeId
  req : MapRequest
  /-- The set of revoked capabilities that the job has read. -/
  revoked : Option RevokedSet

/-- Where the loop is. -/
inductive Phase (Token : Type) where
  | top
  | refreshing
  | polling
  | handling (messages : List (Message Token))

/-- The state of an agent. -/
structure World (Token : Type) where
  phase : Phase Token
  lastRefresh : U64
  revoked : RevokedSet
  /-- How many messages were taken. -/
  taken : Nat
  jobs : List (Job Token)

/-- A step of the loop or of a job, with what it meets outside. -/
inductive Event (Token : Type) where
  /-- The loop reads the time. -/
  | check (now : U64)
  | refreshed (listing : Except String (List (String × U64))) (now : U64)
  | polled (messages : Except String (List (Message Token)))
  /-- The loop takes the next message of the batch. -/
  | take
  /-- The batch is done. -/
  | sleep
  /-- The `i`-th job reads the set of revoked capabilities. -/
  | read (i : Nat)
  /-- The `i`-th job serves its request at a time from a store, and replies. -/
  | serve (i : Nat) (now : U64) (store : BlobStore)

/-- What an agent does that is seen outside, and what it drops. -/
inductive Note (Token : Type) where
  | took (number : Nat) (m : Message Token)
  | dropped (number : Nat)
  | replied (number : Nat) (token : Token) (reply : MapReply)

section

variable {Cap Token : Type} (serde : SerdeJson) (json : JsonText) (iam : IamCore Cap)
  (setup : Setup)

/-- The reply to a request, with the set of revoked capabilities of its job. -/
def answer (requester : Option NodeId) (revoked : RevokedSet) (now : U64) (store : BlobStore)
    (req : MapRequest) : MapReply :=
  serveMap serde json store
    (grantCheck iam setup.selfId setup.acceptedRoots now revoked.has setup.requireGrant requester)
    req

/-- The permits: how many requests are served at once. -/
def Setup.permits : Nat :=
  max setup.maxConcurrent 1

/-- Is it time to refresh the set of revoked capabilities? -/
def Setup.due (lastRefresh now : U64) : Bool :=
  decide (setup.revocationRefreshSecs.val ≠ 0 ∧
    setup.revocationRefreshSecs.val ≤ max 0 (now.val - lastRefresh.val))

namespace World

/-- An agent that has read the set for the first time. -/
def start (listing : Except String (List (String × U64))) (now : U64) : World Token where
  phase := .top
  lastRefresh := now
  revoked := refresh [] listing
  taken := 0
  jobs := []

variable (w : World Token)

/-- Take the next message of the batch. A request waits for a permit. -/
def takeMessage (m : Message Token) (rest : List (Message Token)) :
    Option (World Token × List (Note Token)) :=
  match m.intake json with
  | .ignored =>
      some ({ w with phase := .handling rest, taken := w.taken + 1 },
        [.took w.taken m, .dropped w.taken])
  | .refused token =>
      some ({ w with phase := .handling rest, taken := w.taken + 1 },
        [.took w.taken m, .replied w.taken token tooLarge])
  | .request token requester req =>
      if w.jobs.length < setup.permits then
        some ({ w with
          phase := .handling rest
          taken := w.taken + 1
          jobs := w.jobs ++ [{ number := w.taken, token, requester, req, revoked := none }] },
          [.took w.taken m])
      else none

/-- What an event does; nothing if it cannot happen. -/
def next : Event Token → Option (World Token × List (Note Token))
  | .check now =>
      match w.phase with
      | .top =>
          some ({ w with
            phase := if setup.due w.lastRefresh now then .refreshing else .polling }, [])
      | _ => none
  | .refreshed listing now =>
      match w.phase with
      | .refreshing =>
          some ({ w with
            phase := .polling
            lastRefresh := now
            revoked := refresh w.revoked listing }, [])
      | _ => none
  | .polled messages =>
      match w.phase with
      | .polling => some ({ w with phase := .handling (messages.toOption.getD []) }, [])
      | _ => none
  | .take =>
      match w.phase with
      | .handling (m :: rest) => w.takeMessage json setup m rest
      | _ => none
  | .sleep =>
      match w.phase with
      | .handling [] => some ({ w with phase := .top }, [])
      | _ => none
  | .read i =>
      match w.jobs[i]? with
      | some job =>
          match job.revoked with
          | none =>
              some ({ w with jobs := w.jobs.set i { job with revoked := some w.revoked } }, [])
          | some _ => none
      | none => none
  | .serve i now store =>
      match w.jobs[i]? with
      | some job =>
          match job.revoked with
          | some revoked =>
              some ({ w with jobs := w.jobs.eraseIdx i },
                [.replied job.number job.token
                  (answer serde json iam setup job.requester revoked now store job.req)])
          | none => none
      | none => none

end World

/-- The agent with its jobs. -/
def machine : Machine (World Token) (Event Token) (Note Token) where
  next w e := w.next serde json iam setup e

end

end Agent

end CeQuery
