import CeQuery.Mesh.AgentRuns
import CeQuery.Mesh.Distributed

/-!
# Agents at work

What an agent replies while its loop runs is what a host of the mesh is taken to answer.
Over a whole run every reply goes back to a message that was taken, a set of revoked
capabilities that was listed, and the blobs of the store (`Agent.Grounded`). So whatever
is disclosed is the answer of the blob that the request names, to a sender whose token
covers the dataset of the query (`Agent.discloses_truth`), and a query that is run over a
mesh of such agents is answered from the tables.
-/

namespace CeQuery

namespace Agent

variable {Cap Token : Type} {serde : SerdeJson} {json : JsonText} {iam : IamCore Cap}
  {setup : Setup} {content : String → ByteArray} {good : RevokedSet → Prop}
  {w t : World Token} {e : Event Token} {out seen : List (Note Token)}

/-- The set was known from the start or listed later. -/
def Listed (listing : Except String (List (String × U64))) (es : List (Event Token))
    (revoked : RevokedSet) : Prop :=
  revoked = refresh [] listing ∨
    ∃ later now, .refreshed (.ok later) now ∈ es ∧ revoked = .ofListing later

/-- The stores that are read have these blobs. -/
def ReadsBlobs (content : String → ByteArray) (es : List (Event Token)) : Prop :=
  ∀ i now store, .serve i now store ∈ es → BlobStore.Holds store content

/-- Every reply is made of a message that was taken, a good set and these blobs. -/
def Grounded (serde : SerdeJson) (json : JsonText) (iam : IamCore Cap) (setup : Setup)
    (content : String → ByteArray) (good : RevokedSet → Prop) (seen : List (Note Token)) : Prop :=
  ∀ n token reply, .replied n token reply ∈ seen → ∃ m, .took n m ∈ seen ∧
    (m.intake json = .refused token ∧ reply = tooLarge ∨
      ∃ requester req revoked now store, m.intake json = .request token requester req ∧
        good revoked ∧ BlobStore.Holds store content ∧
        reply = answer serde json iam setup requester revoked now store req)

theorem grounded_step (haccounts : Accounts serde json iam setup (fun _ => good) 0 w seen)
    (h : Grounded serde json iam setup content good seen)
    (hreads : ∀ i now store, e = .serve i now store → BlobStore.Holds store content)
    (hnext : w.next serde json iam setup e = some (t, out)) :
    Grounded serde json iam setup content good (seen ++ out) := by
  intro n token reply hreplied
  obtain hold | hnew := List.mem_append.mp hreplied
  · obtain ⟨m, hm, hreply⟩ := h n token reply hold
    exact ⟨m, List.mem_append_left _ hm, hreply⟩
  · cases next_effect hnext with
    | looped => cases hnew
    | refreshed => cases hnew
    | dropped => simp at hnew
    | refused m token' hintake =>
        have heq : n = w.taken ∧ token = token' ∧ reply = tooLarge := by simpa using hnew
        obtain ⟨rfl, rfl, rfl⟩ := heq
        exact ⟨m, by simp, .inl ⟨hintake, rfl⟩⟩
    | accepted => simp at hnew
    | read => cases hnew
    | served i now store job revoked hjob hset =>
        simp only [List.mem_singleton, Note.replied.injEq] at hnew
        obtain ⟨rfl, rfl, rfl⟩ := hnew
        have hmem := List.mem_of_getElem? hjob
        obtain ⟨m, hm, hintake⟩ := haccounts.serving job hmem (Nat.zero_le _)
        exact ⟨m, List.mem_append_left _ hm, .inr ⟨job.requester, job.req, revoked, now, store,
          hintake, haccounts.read job hmem (Nat.zero_le _) revoked hset, hreads i now store rfl,
          rfl⟩⟩

section Run

variable {listing : Except String (List (String × U64))} {now : U64} {es : List (Event Token)}

theorem run_grounded (hreads : ReadsBlobs content es)
    (hrun : (machine serde json iam setup).run (.start listing now) es = some (w, out)) :
    (out.filterMap Note.taken).Nodup ∧
      Grounded serde json iam setup content (Listed listing es) out := by
  have hstart : Accounts serde json iam setup (fun _ => Listed listing es) 0
      (.start listing now : World Token) [] :=
    ⟨Nat.zero_le _, rfl, fun _ => nofun, fun _ => nofun, fun _ => nofun, fun _ _ _ => nofun⟩
  have hall : (machine serde json iam setup).Throughout (fun w e => Lists (Listed listing es) w e ∧
      ∀ i now store, e = .serve i now store → BlobStore.Holds store content)
        (.start listing now : World Token) es := by
    refine .of_forall fun e he _ => ⟨?_, ?_⟩
    · rintro later now rfl
      exact .inr ⟨later, now, he, rfl⟩
    · rintro i now store rfl
      exact hreads i now store he
  obtain ⟨_, haccounts, hgrounded⟩ : Listed listing es w.revoked ∧
      Accounts serde json iam setup (fun _ => Listed listing es) 0 w out ∧
        Grounded serde json iam setup content (Listed listing es) out := by
    refine Machine.run_invariant (I := fun w seen => Listed listing es w.revoked ∧
      Accounts serde json iam setup (fun _ => Listed listing es) 0 w seen ∧
        Grounded serde json iam setup content (Listed listing es) seen)
      ?_ ⟨.inl rfl, hstart, fun _ _ _ => nofun⟩ hall hrun
    rintro s seen e t out ⟨hset, haccounts, hgrounded⟩ ⟨hlists, hserves⟩ hnext
    exact ⟨revoked_step hset hlists hnext, accounts_step haccounts (fun _ _ _ _ => hset) hnext,
      grounded_step haccounts hgrounded hserves hnext⟩
  exact ⟨haccounts.numbered ▸ List.nodup_range', hgrounded⟩

/-- Whatever an agent discloses in a run is the answer of the blob that the request of a
message names, and if it requires grants, the token of that request authorised its sender
for the dataset of the query, under a set of revoked capabilities that was listed. -/
theorem discloses_truth (hreads : ReadsBlobs content es)
    (hrun : (machine serde json iam setup).run (.start listing now) es = some (w, out)) {n : Nat}
    {token : Token} {reply : MapReply} (hreplied : .replied n token reply ∈ out)
    (hdiscloses : reply.Discloses) :
    ∃ m requester req, .took n m ∈ out ∧ m.intake json = .request token requester req ∧
      reply = (if req.query.isProjection then
          .rows (req.query.projectShard (blobTable json content req.shard.cid))
        else .ok (req.query.mapShard serde (blobTable json content req.shard.cid))) ∧
      (setup.requireGrant = true → ∃ revoked now, Listed listing es revoked ∧
        Authorises iam setup.selfId setup.acceptedRoots now revoked.has requester req
          req.query.dataset) := by
  obtain ⟨m, hm, ⟨_, rfl⟩ |
      ⟨requester, req, revoked, now', store, hintake, hlisted, hholds, rfl⟩⟩ :=
    (run_grounded hreads hrun).2 n token reply hreplied
  · exact absurd hdiscloses id
  · have hreply : Agent.CanReply serde json iam setup content req
        (answer serde json iam setup requester revoked now' store req) :=
      .inr ⟨requester, revoked, now', store, hholds, rfl⟩
    refine ⟨m, requester, req, hm, hintake, hreply.computes hdiscloses, ?_⟩
    intro hgrant
    have hcheck := verify_of_discloses hdiscloses
    rw [hgrant] at hcheck
    exact ⟨revoked, now', hlisted, grantCheck_eq_ok_iff.mp hcheck⟩

end Run

/-- A first message is served from a store that has these blobs. -/
theorem readsBlobs_served {m : Message Token} {store : BlobStore} (hholds : store.Holds content) :
    ReadsBlobs content
      [.check U64.zero, .polled (.ok [m]), .take, .read 0, .serve 0 U64.one store] := by
  intro i now store' hserve
  have hevent : i = 0 ∧ now = U64.one ∧ store' = store := by simpa using hserve
  rw [hevent.2.2]
  exact hholds

private def servedOnce : List (Event Unit) :=
  [.check U64.zero, .polled (.ok [requestMessage]), .take, .read 0, .serve 0 U64.one salesStore]

/-- One request with a grant, for a blob with two rows. -/
theorem discloses_truth_one_request : ∃ w out,
    (machine .sample requestText oneLink.toIamCore grantSetup).run
        (.start (.ok []) U64.zero : World Unit) servedOnce = some (w, out) ∧
      .replied 0 () (.ok (tokenRequest.query.mapShard .sample saleRows)) ∈ out ∧
      ∃ m requester req, .took 0 m ∈ out ∧ m.intake requestText = .request () requester req ∧
        MapReply.ok (tokenRequest.query.mapShard .sample saleRows) =
          (if req.query.isProjection then
            .rows (req.query.projectShard
              (blobTable requestText (fun _ => salesBlob) req.shard.cid))
          else .ok (req.query.mapShard .sample
            (blobTable requestText (fun _ => salesBlob) req.shard.cid))) ∧
        ∃ revoked now, Listed (.ok []) servedOnce revoked ∧
          Authorises oneLink.toIamCore .zero [] now revoked.has requester req
            req.query.dataset := by
  have hreads : ReadsBlobs (fun _ => salesBlob) servedOnce :=
    readsBlobs_served fun _ _ hblob => (Except.ok.inj hblob).symm
  obtain ⟨w, out, hrun, hreplied⟩ : ∃ w out,
      (machine .sample requestText oneLink.toIamCore grantSetup).run
          (.start (.ok []) U64.zero : World Unit) servedOnce = some (w, out) ∧
        .replied 0 () (answer .sample requestText oneLink.toIamCore grantSetup (some .zero) []
          U64.one salesStore tokenRequest) ∈ out :=
    ⟨_, _, rfl, List.mem_of_getElem? (show [_, _][1]? = some _ from rfl)⟩
  rw [answer_sales] at hreplied
  obtain ⟨m, requester, req, hm, hintake, hreply, hgrant⟩ :=
    discloses_truth hreads hrun hreplied trivial
  exact ⟨w, out, hrun, hreplied, m, requester, req, hm, hintake, hreply, hgrant rfl⟩

/-! ## Replies over the mesh -/

/-- In some run the agent took a message with the payload, and it sent the bytes back. -/
inductive Sent (Token : Type) (serde : SerdeJson) (json : JsonText) (iam : IamCore Cap)
    (setup : Setup) (content : String → ByteArray) (payload : ByteArray) : ByteArray → Prop
  | reply {listing : Except String (List (String × U64))} {now : U64} {es : List (Event Token)}
      {w : World Token} {out : List (Note Token)} {n : Nat} {m : Message Token} {token : Token}
      {reply : MapReply} (hreads : ReadsBlobs content es)
      (hrun : (machine serde json iam setup).run (.start listing now) es = some (w, out))
      (htook : .took n m ∈ out) (hpayload : m.payload = .ok payload)
      (hreplied : .replied n token reply ∈ out)
      (hcarries : json.Carries json.print (replyCodec.encode reply)) :
      Sent Token serde json iam setup content payload (replyBytes json reply)

theorem decodeRequest_of_intake {m : Message Token} {token : Token} {requester : Option NodeId}
    {req : MapRequest} {payload : ByteArray} (h : m.intake json = .request token requester req)
    (hpayload : m.payload = .ok payload) : decodeRequest json payload = some req := by
  rw [Message.intake] at h
  split at h
  · cases h
  · split at h
    · cases h
    · rw [hpayload] at h
      dsimp only at h
      split at h
      · cases h
      · split at h
        · cases h
        · rename_i hdecode
          cases h
          exact hdecode

/-- A request is read as itself or not at all. -/
theorem decodeRequest_sound {req req' : MapRequest} (hkeeps : requestCodec.Keeps req)
    (hcarries : json.Carries json.print (requestCodec.encode req))
    (h : decodeRequest json (requestBytes json req) = some req') : req' = req := by
  by_cases hdepth : (requestCodec.encode req).depth ≤ maxDepth
  · rw [(decodeRequest_eq_some_iff hkeeps hcarries).mpr hdepth] at h
    exact (Option.some.inj h).symm
  · rw [decodeRequest_too_deep hcarries (Nat.lt_of_not_le hdepth)] at h
    cases h

/-- What is sent back for a request is a reply to this request. -/
theorem Sent.canReply {req : MapRequest} {bytes : ByteArray} (hkeeps : requestCodec.Keeps req)
    (hcarries : json.Carries json.print (requestCodec.encode req))
    (h : Sent Token serde json iam setup content (requestBytes json req) bytes) :
    ∃ reply, CanReply serde json iam setup content req reply ∧ bytes = replyBytes json reply ∧
      json.Carries json.print (replyCodec.encode reply) := by
  obtain ⟨hreads, hrun, htook, hpayload, hreplied, hreply⟩ := h
  obtain ⟨hnodup, hgrounded⟩ := run_grounded hreads hrun
  refine ⟨_, ?_, rfl, hreply⟩
  obtain ⟨m', hm', ⟨_, htoo⟩ | ⟨requester, req', revoked, now, store, hintake, _, hholds, heq⟩⟩ :=
    hgrounded _ _ _ hreplied
  · exact .inl htoo
  · cases took_unique hnodup htook hm'
    cases decodeRequest_sound hkeeps hcarries (decodeRequest_of_intake hintake hpayload)
    exact .inr ⟨requester, revoked, now, store, hholds, heq⟩

end Agent

/-- What the host sends for the shard was sent by its agent in a run. -/
def MeshMapHost.RunsAgent {Cap : Type} (Token : Type) (h : MeshMapHost) (serde : SerdeJson)
    (json : JsonText) (iam : IamCore Cap) (setup : Agent.Setup) (content : String → ByteArray)
    (q : Query) (s : Shard) (hostId : String) : Prop :=
  ∀ bytes, h.client.request hostId mapTopic
      (requestBytes json { query := q, shard := s, grant := h.grant }) h.timeoutMs = .ok bytes →
    Agent.Sent Token serde json iam setup content
      (requestBytes json { query := q, shard := s, grant := h.grant }) bytes

section Fleet

variable {Cap Token : Type} {env : Externals} {json : JsonText} {iam : IamCore Cap}
  {content : String → ByteArray} {h : MeshMapHost} {q : Query} {s : Shard}

theorem MeshMapHost.RunsAgent.repliesAs {serde : SerdeJson} {setup : Agent.Setup}
    {hostId : String} (hpredicate : q.predicate = .true ∨ q.predicate.LeftNested)
    (hstats : s.FiniteStats) (hcarries : json.Carries json.print
      (requestCodec.encode { query := q, shard := s, grant := h.grant }))
    (hruns : h.RunsAgent Token serde json iam setup content q s hostId) :
    h.RepliesAs serde json iam setup content q s hostId := by
  have hkeeps : requestCodec.Keeps { query := q, shard := s, grant := h.grant } :=
    requestCodec_keeps_iff.mpr ⟨queryCodec_keeps_iff.mpr (predicateCodec_keeps hpredicate),
      shardCodec_keeps_iff.mpr fun st hst => statsCodec_keeps_iff.mpr (hstats st hst)⟩
  exact fun bytes hbytes => (hruns bytes hbytes).canReply hkeeps hcarries

/-- A run over agents at work, in which fewer hosts lie, if any do, than there must be
copies, than have to agree and than answer for each live shard, reports what the tables of
the blobs reduce to, and so what every run in one process reports. -/
theorem fleet_run_eq_local {setup : String → Agent.Setup} {config : RunConfig}
    {shards : List Shard} {hosts liars : List String} {clock : Nat → Nat → Nat}
    {order : List Nat} {report : RunReport}
    (hcanonical : ∀ p, env.canonical p = some (json.print (partialCodec.encode p)))
    (hprint : env.PrintsObjects) (hdistinct : hosts.Nodup)
    (hpredicate : q.predicate = .true ∨ q.predicate.LeftNested)
    (hrequests : ∀ s ∈ liveShards q shards, s.FiniteStats ∧ json.Carries json.print
      (requestCodec.encode { query := q, shard := s, grant := h.grant }))
    (hagents : ∀ s ∈ liveShards q shards, ∀ hostId ∈ hosts, hostId ∉ liars →
      h.RunsAgent Token env.toSerdeJson json iam (setup hostId) content q s hostId)
    (hportable : ∀ s ∈ liveShards q shards,
      q.Portable env.toSerdeJson (blobTable json content s.cid))
    (htexts : ∀ s ∈ liveShards q shards, ∀ p,
      p = q.mapShard env.toSerdeJson (blobTable json content s.cid) ∨
        (∃ hostId ∈ hosts, (h.mapHost json).map hostId s q = .ok p) →
      json.Carries json.print (partialCodec.encode p))
    (hfew : liars.length < max config.redundancy 1)
    (hquorum : config.quorum = 0 ∨ liars.length < config.quorum)
    (henough : liars ≠ [] → ∀ s ∈ liveShards q shards, liars.length <
      (askedHosts env config hosts s).countP (mapAnswers (h.mapHost json) q s))
    (hrun : run env (h.mapHost json) config q clock shards hosts order = some (.ok report)) :
    reducedRows env.toSerdeJson q
        (q.mapOutputs env.toSerdeJson (blobTable json content) shards) = some report.results ∧
      ∀ (blobs : BlobStore) config' clock' hosts' order' report', blobs.Holds content →
        run env (localMapHost env.toSerdeJson json blobs) config' q clock' shards hosts' order' =
          some (.ok report') →
        report.results = report'.results := by
  have hreplies : ∀ s ∈ liveShards q shards, ∀ hostId ∈ hosts, hostId ∉ liars →
      h.RepliesAs env.toSerdeJson json iam (setup hostId) content q s hostId := by
    intro s hs hostId hmem hnot
    obtain ⟨hstats, hcarries⟩ := hrequests s hs
    exact (hagents s hs hostId hmem hnot).repliesAs hpredicate hstats hcarries
  exact mesh_run_eq_local hcanonical hprint hdistinct hreplies hportable htexts hfew hquorum henough
    hrun

end Fleet

def noRows : Partial :=
  .empty [.count]

def twofold : Partial where
  aggregates := [.count]
  groups := Std.ExtTreeMap.insert ∅ [] [.count (U64.wrap 2)]

def countEverything : Query where
  dataset := "a"
  aggregates := [.count]
  predicate := .true
  groupBy := []
  orderBy := []
  limit := none
  projection := none

def lonelyShard : List Shard :=
  [{ cid := "s0", rows := U64.wrap 2, bytes := U64.wrap 16, stats := none }]

def lonelyDataset : Dataset where
  name := "a"
  schema := []
  shards := lonelyShard

def lonelyCatalog : Catalog :=
  Catalog.new.put lonelyDataset

def lonelyRequest : MapRequest where
  query := countEverything
  shard := { cid := "s0", rows := U64.wrap 2, bytes := U64.wrap 16, stats := none }
  grant := none

/-- Texts of these two partials, of the replies with them, of the request, of the catalog
and of two rows. -/
def replyTexts : JsonText where
  print
    | .object [(_, .object [_, (_, .array [])])] => "\x7b\"Ok\":0\x7d"
    | .object [(_, .object [_, (_, .array _)])] => "\x7b\"Ok\":2\x7d"
    | .object [_, (_, .array [])] => "\x7b0\x7d"
    | .object [_, (_, .array _)] => "\x7b2\x7d"
    | _ => "\x7b\x7d"
  printPretty _ := ""
  parse text :=
    if text = "\x7b\"Ok\":0\x7d" then some (replyCodec.encode (.ok noRows))
    else if text = "\x7b\"Ok\":2\x7d" then some (replyCodec.encode (.ok twofold))
    else if text = "\x7b0\x7d" then some (partialCodec.encode noRows)
    else if text = "\x7b2\x7d" then some (partialCodec.encode twofold)
    else if text = "\x7b\x7d" then some (requestCodec.encode lonelyRequest)
    else if text = "\x7b1\x7d" then some (catalogCodec.encode lonelyCatalog)
    else if text = "\x7b\"v\":1\x7d" then some (.object [("v", .int 1)])
    else if text = "\x7b\"v\":2\x7d" then some (.object [("v", .int 2)])
    else none

def meshExternals : Externals :=
  { Externals.sample with canonical := fun p => some (replyTexts.print (partialCodec.encode p)) }

theorem meshExternals_printsObjects : meshExternals.PrintsObjects := by
  intro p text h
  cases h
  simp only [replyTexts]
  split <;> rfl

def threeNames : List String := ["host0", "host1", "host2"]

/-- The first host counts no rows where there are two. -/
def meshWithLiar : MeshMapHost where
  client :=
    { request := fun hostId _ _ _ =>
        .ok (replyBytes replyTexts (.ok (if hostId = "host0" then noRows else twofold)))
      complaint := fun _ => "" }
  grant := none
  timeoutMs := U64.wrap 30000

theorem print_request (req : MapRequest) :
    replyTexts.print (requestCodec.encode req) = "\x7b\x7d" := by
  obtain ⟨⟨_, aggregates, _, _, _, _, _⟩, shard, grant⟩ := req
  cases aggregates <;> rfl

theorem meshWithLiar_map (hostId : String) (s : Shard) (q : Query) :
    (meshWithLiar.mapHost replyTexts).map hostId s q =
      .ok (if hostId = "host0" then noRows else twofold) := by
  have hsmall : ¬(requestBytes replyTexts
      { query := q, shard := s, grant := meshWithLiar.grant }).size > maxMapPayloadBytes := by
    rw [requestBytes, print_request]
    decide
  have hanswers : ∀ p, (if hostId = "host0" then noRows else twofold) = p →
      meshWithLiar.client.request hostId mapTopic (requestBytes replyTexts
        { query := q, shard := s, grant := meshWithLiar.grant }) meshWithLiar.timeoutMs =
          .ok (replyBytes replyTexts (.ok p)) := by
    rintro p rfl
    rfl
  have hsend : meshWithLiar.send replyTexts hostId s q =
      .ok (.ok (if hostId = "host0" then noRows else twofold)) := by
    by_cases hfirst : hostId = "host0"
    · rw [if_pos hfirst]
      exact mesh_send_reply hsmall (hanswers noRows (if_pos hfirst)) (by decide) rfl
    · rw [if_neg hfirst]
      exact mesh_send_reply hsmall (hanswers twofold (if_neg hfirst)) (by decide) rfl
  change (meshWithLiar.send replyTexts hostId s q).bind MeshMapHost.replyPartial = _
  rw [hsend]
  rfl

/-- What that mesh amounts to. -/
def liarFirst : MapHost where
  map hostId _ _ := .ok (if hostId = "host0" then noRows else twofold)
  project hostId s q := (meshWithLiar.mapHost replyTexts).project hostId s q

theorem meshWithLiar_eq : meshWithLiar.mapHost replyTexts = liarFirst := by
  have hmap : (meshWithLiar.mapHost replyTexts).map = liarFirst.map := by
    funext hostId s q
    exact meshWithLiar_map hostId s q
  exact congrArg (fun m => MapHost.mk m (meshWithLiar.mapHost replyTexts).project) hmap

def lonelyBlob : String → ByteArray :=
  fun _ => Agent.salesBlob

theorem decodeShard_lonely : decodeShard replyTexts Agent.salesBlob = .ok Agent.saleRows := by
  rw [Agent.salesBlob, decodeShard_toUTF8]
  rfl

theorem blobTable_lonely (cid : String) :
    blobTable replyTexts lonelyBlob cid = Agent.saleRows := by
  rw [blobTable, lonelyBlob, decodeShard_lonely]
  rfl

theorem lonelyRequest_carries :
    replyTexts.Carries replyTexts.print (requestCodec.encode lonelyRequest) :=
  JsonText.carries_of_depth (request_depth_iff.mpr (by decide)) (by rw [print_request]; rfl)

def lonelyMessage : Agent.Message Unit where
  topic := mapTopic
  replyToken := some ()
  sender := ""
  payload := .ok (requestBytes replyTexts lonelyRequest)

def servedLonely : List (Agent.Event Unit) :=
  [.check U64.zero, .polled (.ok [lonelyMessage]), .take, .read 0,
    .serve 0 U64.one fun cid => .ok (lonelyBlob cid)]

theorem lonelyRows_mapped : countEverything.mapShard .sample Agent.saleRows = twofold := by
  rfl

/-- The two other hosts are agents at work. -/
theorem meshWithLiar_runsAgent {s : Shard} (hs : s ∈ lonelyShard) {hostId : String}
    (h : hostId ≠ "host0") :
    meshWithLiar.RunsAgent Unit .sample replyTexts noIam openSetup lonelyBlob countEverything s
      hostId := by
  cases List.mem_singleton.mp hs
  intro bytes hbytes
  have hreply : bytes = replyBytes replyTexts (.ok twofold) := by
    change Except.ok _ = Except.ok bytes at hbytes
    rw [if_neg h] at hbytes
    exact (Except.ok.inj hbytes).symm
  have hreads : Agent.ReadsBlobs lonelyBlob servedLonely :=
    Agent.readsBlobs_served fun _ _ hblob => (Except.ok.inj hblob).symm
  have hanswer : Agent.answer .sample replyTexts noIam openSetup none [] U64.one
      (fun cid => .ok (lonelyBlob cid)) lonelyRequest =
        .ok (countEverything.mapShard .sample Agent.saleRows) := by
    have hsize : Agent.salesBlob.size ≤ maxMapPayloadBytes := by decide
    exact serveMap_eq rfl rfl rfl hsize decodeShard_lonely nofun
  obtain ⟨w, out, hrun, htook, hreplied⟩ : ∃ w out,
      (Agent.machine .sample replyTexts noIam openSetup).run
          (.start (.ok []) U64.zero : Agent.World Unit) servedLonely = some (w, out) ∧
        .took 0 lonelyMessage ∈ out ∧
        .replied 0 () (Agent.answer .sample replyTexts noIam openSetup none [] U64.one
          (fun cid => .ok (lonelyBlob cid)) lonelyRequest) ∈ out :=
    ⟨_, _, rfl, List.mem_of_getElem? (show [_, _][0]? = some _ from rfl),
      List.mem_of_getElem? (show [_, _][1]? = some _ from rfl)⟩
  rw [hanswer, lonelyRows_mapped] at hreplied
  rw [hreply]
  exact .reply hreads hrun htook rfl hreplied
    (JsonText.carries_of_depth (Nat.le_trans (reply_ok_depth _) (by decide)) rfl)

theorem lonely_mapped (cid : String) :
    countEverything.mapShard .sample (blobTable replyTexts lonelyBlob cid) = twofold := by
  rw [blobTable_lonely, lonelyRows_mapped]

theorem lonely_portable (cid : String) :
    countEverything.Portable .sample (blobTable replyTexts lonelyBlob cid) := by
  rw [← mapShard_keeps_iff, lonely_mapped]
  rfl

theorem lonelyRequests_carry {s : Shard} (hs : s ∈ lonelyShard) :
    replyTexts.Carries replyTexts.print (requestCodec.encode
      { query := countEverything, shard := s, grant := none }) := by
  cases List.mem_singleton.mp hs
  exact lonelyRequest_carries

theorem lonelyPartials_carry {s : Shard} {p : Partial}
    (h : p = countEverything.mapShard .sample (blobTable replyTexts lonelyBlob s.cid) ∨
      ∃ hostId, (meshWithLiar.mapHost replyTexts).map hostId s countEverything = .ok p) :
    replyTexts.Carries replyTexts.print (partialCodec.encode p) := by
  have hcases : p = twofold ∨ p = noRows := by
    obtain rfl | ⟨hostId, hmap⟩ := h
    · exact .inl (lonely_mapped s.cid)
    · rw [meshWithLiar_map] at hmap
      cases hmap
      split
      · exact .inr rfl
      · exact .inl rfl
  apply JsonText.carries_of_depth (Nat.le_trans (partialCodec_depth p) (by decide))
  obtain rfl | rfl := hcases <;> rfl

/-- Two agents outvote a host that counts no rows in a blob with two. -/
theorem fleet_run_eq_local_one_liar : ∃ report,
    run meshExternals (meshWithLiar.mapHost replyTexts) .inThree countEverything (fun _ _ => 0)
        lonelyShard threeNames [0] = some (.ok report) ∧
      reducedRows .sample countEverything
        (countEverything.mapOutputs .sample (blobTable replyTexts lonelyBlob) lonelyShard) =
          some report.results := by
  have hexists : ∃ report, run meshExternals (meshWithLiar.mapHost replyTexts) .inThree
      countEverything (fun _ _ => 0) lonelyShard threeNames [0] = some (.ok report) := by
    rw [meshWithLiar_eq]
    exact ⟨_, rfl⟩
  obtain ⟨report, hrun⟩ := hexists
  have hagents : ∀ s ∈ liveShards countEverything lonelyShard, ∀ hostId ∈ threeNames,
      hostId ∉ ["host0"] → meshWithLiar.RunsAgent Unit .sample replyTexts noIam openSetup lonelyBlob
        countEverything s hostId := by
    intro s hs hostId _ hnot
    exact meshWithLiar_runsAgent (List.mem_of_mem_filter hs) (by simpa using hnot)
  have hrequests : ∀ s ∈ liveShards countEverything lonelyShard, s.FiniteStats ∧
      replyTexts.Carries replyTexts.print (requestCodec.encode
        { query := countEverything, shard := s, grant := meshWithLiar.grant }) := by
    intro s hs
    refine ⟨?_, lonelyRequests_carry (List.mem_of_mem_filter hs)⟩
    cases List.mem_singleton.mp (List.mem_of_mem_filter hs)
    exact fun _ => nofun
  refine ⟨report, hrun, (@fleet_run_eq_local Unit Unit meshExternals replyTexts noIam lonelyBlob
    meshWithLiar countEverything (fun _ => openSetup) .inThree lonelyShard threeNames ["host0"]
    (fun _ _ => 0) [0] report (fun _ => rfl) meshExternals_printsObjects (by decide) (.inl rfl)
    hrequests hagents (fun s _ => lonely_portable s.cid)
    (fun _ _ _ hp => lonelyPartials_carry (hp.imp id fun ⟨hostId, _, hmap⟩ => ⟨hostId, hmap⟩))
    (by decide) (.inr (by decide)) ?_ hrun).1⟩
  rw [meshWithLiar_eq]
  intro _
  decide +kernel

end CeQuery
