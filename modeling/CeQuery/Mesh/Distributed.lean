import CeQuery.Engine.Faults
import CeQuery.Foundation.Stable
import CeQuery.Mesh.Agent
import CeQuery.Tables

/-!
# Runs over the mesh

Between the engine and an agent are two texts, a request and a reply, and what a host
sends need not be a reply at all. Whatever can be read as a partial, though, can also be
written (`partialCodec_stable`), so its canonical text tells it from every other partial
that came over the mesh. A run over the mesh with some lying hosts therefore returns what
a run in one process returns on the same blobs (`mesh_run_eq_local`).
-/

namespace CeQuery

/-- What an agent can reply to a request, whenever it serves it, whatever it has heard of
revocations, and whether or not its store finds the blob. -/
def Agent.CanReply {Cap : Type} (serde : SerdeJson) (json : JsonText) (iam : IamCore Cap)
    (setup : Agent.Setup) (content : String → ByteArray) (req : MapRequest) (reply : MapReply) :
    Prop :=
  reply = Agent.tooLarge ∨ ∃ requester revoked now store, BlobStore.Holds store content ∧
    reply = Agent.answer serde json iam setup requester revoked now store req

/-- What the host sends for the shard is the reply of an agent, and its text can be
parsed. -/
def MeshMapHost.RepliesAs {Cap : Type} (h : MeshMapHost) (serde : SerdeJson) (json : JsonText)
    (iam : IamCore Cap) (setup : Agent.Setup) (content : String → ByteArray) (q : Query)
    (s : Shard) (hostId : String) : Prop :=
  ∀ bytes, h.client.request hostId mapTopic
      (requestBytes json { query := q, shard := s, grant := h.grant }) h.timeoutMs = .ok bytes →
    ∃ reply, Agent.CanReply serde json iam setup content
        { query := q, shard := s, grant := h.grant } reply ∧
      bytes = replyBytes json reply ∧ json.Carries json.print (replyCodec.encode reply)

/-! ## Partials that came over the mesh -/

section Stable

theorem kahanSumCodec_stable : kahanSumCodec.Stable :=
  Codec.record_stable (fun _ => rfl) (Fields.cons_stable_required Codec.float_stable
    (Fields.cons_stable_required Codec.float_stable Fields.nil_stable))

theorem meanCodec_stable : meanCodec.Stable :=
  Codec.record_stable (fun _ => rfl) (Fields.cons_stable_required kahanSumCodec_stable
    (Fields.cons_stable_required Codec.boundedInt_stable Fields.nil_stable))

theorem accumCodec_stable : accumCodec.Stable := by
  have hbound : Codec.float.option.Stable :=
    Codec.option_stable Codec.float_stable fun x hx =>
      Codec.float_encode_ne_null.mpr (Codec.float_keeps_iff.mp hx)
  intro d acc hacc
  rw [accumCodec_keeps_iff]
  obtain ⟨tag, payload, hread⟩ := Codec.enumeration_reads hacc
  split at hread
  · obtain ⟨n, _, rfl⟩ := Option.map_eq_some_iff.mp hread
    trivial
  · obtain ⟨n, _, rfl⟩ := Option.map_eq_some_iff.mp hread
    trivial
  · obtain ⟨k, hk, rfl⟩ := Option.map_eq_some_iff.mp hread
    exact kahanSumCodec_keeps_iff.mp (kahanSumCodec_stable _ k hk)
  · obtain ⟨m, hm, rfl⟩ := Option.map_eq_some_iff.mp hread
    exact optionFloat_keeps_iff.mp (hbound _ m hm)
  · obtain ⟨m, hm, rfl⟩ := Option.map_eq_some_iff.mp hread
    exact optionFloat_keeps_iff.mp (hbound _ m hm)
  · obtain ⟨m, hm, rfl⟩ := Option.map_eq_some_iff.mp hread
    exact meanCodec_keeps_iff.mp (meanCodec_stable _ m hm)
  · cases hread

/-- Whatever is read as a partial can be written. -/
theorem partialCodec_stable : partialCodec.Stable := by
  have hkey : ∀ key, Codec.string.list.Keeps key :=
    fun key => Codec.list_keeps_iff.mpr fun s _ => Codec.string_keeps s
  refine Codec.record_stable (fun _ => rfl) ?_
  apply Fields.cons_stable_required
  · exact Codec.list_stable (Codec.stable_of_keeps aggCodec_keeps)
  · exact Fields.cons_stable_required
      (Codec.entries_stable hkey (Codec.list_stable accumCodec_stable)) Fields.nil_stable

/-- Partials that can be written are told apart by their texts. -/
theorem partial_eq_of_print_eq {json : JsonText} {p p' : Partial} (hp : partialCodec.Keeps p)
    (hp' : partialCodec.Keeps p') (hcarries : json.Carries json.print (partialCodec.encode p))
    (hcarries' : json.Carries json.print (partialCodec.encode p'))
    (h : json.print (partialCodec.encode p) = json.print (partialCodec.encode p')) : p = p' := by
  have hread := hcarries.parse_print (Nat.le_trans (partialCodec_depth p) (by decide))
  rw [h, hcarries'.parse_print (Nat.le_trans (partialCodec_depth p') (by decide))] at hread
  have hdecode : partialCodec.decode (partialCodec.encode p) = some p := hp
  rw [← Option.some.inj hread, hp'] at hdecode
  exact (Option.some.inj hdecode).symm

end Stable

/-! ## The reply of an agent -/

section Reply

variable {Cap : Type} {serde : SerdeJson} {json : JsonText} {iam : IamCore Cap}
  {setup : Agent.Setup} {content : String → ByteArray} {store : BlobStore}
  {verify : MapRequest → Except String Unit} {req : MapRequest} {reply : MapReply} {p : Partial}
  {rows : List Row}

/-- A reply that is not an error is computed from the rows of the blob. -/
theorem serveMap_computes (h : serveMap serde json store verify req = reply)
    (hreply : reply.Discloses) :
    ∃ bytes rows, store req.shard.cid = .ok bytes ∧ decodeShard json bytes = .ok rows ∧
      reply = if req.query.isProjection then .rows (req.query.projectShard rows)
        else .ok (req.query.mapShard serde rows) := by
  rw [serveMap] at h
  split at h
  · subst h
    exact absurd hreply id
  · split at h
    · subst h
      exact absurd hreply id
    · split at h
      · subst h
        exact absurd hreply id
      · rename_i bytes hbytes
        split at h
        · subst h
          exact absurd hreply id
        · split at h
          · subst h
            exact absurd hreply id
          · rename_i rows hrows
            refine ⟨bytes, rows, hbytes, hrows, ?_⟩
            split at h
            · rename_i hmode
              rw [if_pos hmode]
              dsimp only at h
              split at h
              · subst h
                exact absurd hreply id
              · exact h.symm
            · rename_i hmode
              rw [if_neg hmode]
              exact h.symm

theorem Agent.CanReply.computes (h : CanReply serde json iam setup content req reply)
    (hreply : reply.Discloses) :
    reply = if req.query.isProjection then
        .rows (req.query.projectShard (blobTable json content req.shard.cid))
      else .ok (req.query.mapShard serde (blobTable json content req.shard.cid)) := by
  obtain rfl | ⟨requester, revoked, now, store, hholds, hanswer⟩ := h
  · exact absurd hreply id
  · obtain ⟨bytes, rows, hbytes, hrows, hreply⟩ := serveMap_computes hanswer.symm hreply
    rw [hreply, blobTable, ← hholds _ bytes hbytes, hrows]
    rfl

/-- Only a partial is read as a partial. -/
theorem decode_encode_ok
    (h : replyCodec.decode (replyCodec.encode reply) = some (.ok p)) :
    ∃ p', reply = .ok p' ∧ partialCodec.decode (partialCodec.encode p') = some p := by
  cases reply with
  | ok p' =>
      change (partialCodec.decode (partialCodec.encode p')).map MapReply.ok = some (.ok p) at h
      obtain ⟨p'', hread, heq⟩ := Option.map_eq_some_iff.mp h
      cases heq
      exact ⟨p', rfl, hread⟩
  | rows rows =>
      change (rowCodec.list.decode (rowCodec.list.encode rows)).map MapReply.rows =
        some (.ok p) at h
      obtain ⟨_, _, heq⟩ := Option.map_eq_some_iff.mp h
      cases heq
  | err reason => cases h

/-- Only rows are read as rows. -/
theorem decode_encode_rows
    (h : replyCodec.decode (replyCodec.encode reply) = some (.rows rows)) :
    ∃ rows', reply = .rows rows' ∧
      rowCodec.list.decode (rowCodec.list.encode rows') = some rows := by
  cases reply with
  | ok p' =>
      change (partialCodec.decode (partialCodec.encode p')).map MapReply.ok = some (.rows rows) at h
      obtain ⟨_, _, heq⟩ := Option.map_eq_some_iff.mp h
      cases heq
  | rows rows' =>
      change (rowCodec.list.decode (rowCodec.list.encode rows')).map MapReply.rows =
        some (.rows rows) at h
      obtain ⟨rows'', hread, heq⟩ := Option.map_eq_some_iff.mp h
      cases heq
      exact ⟨rows', rfl, hread⟩
  | err reason => cases h

end Reply

/-! ## What a host of the mesh answers -/

section Host

variable {Cap : Type} {serde : SerdeJson} {json : JsonText} {iam : IamCore Cap}
  {setup : Agent.Setup} {content : String → ByteArray} {h : MeshMapHost} {q : Query} {s : Shard}
  {hostId : String} {reply : MapReply} {p : Partial} {rows : List Row}

/-- A host that answers a request says what its reply is read as. -/
theorem mesh_send_reply {reply' : MapReply}
    (hrequest : ¬(requestBytes json { query := q, shard := s, grant := h.grant }).size >
      maxMapPayloadBytes)
    (hanswers : h.client.request hostId mapTopic
      (requestBytes json { query := q, shard := s, grant := h.grant }) h.timeoutMs =
        .ok (replyBytes json reply))
    (hreply : ¬(replyBytes json reply).size > maxMapPayloadBytes)
    (hread : (json.parse (json.print (replyCodec.encode reply))).bind replyCodec.decode =
      some reply') :
    h.send json hostId s q = .ok reply' := by
  rw [requestBytes] at hrequest hanswers
  simp only [MeshMapHost.send, if_neg hrequest, hanswers]
  rw [MeshMapHost.decodeReply, if_neg hreply, replyBytes, JsonText.parseBytes_toUTF8, hread]

/-- What is sent back is what the bytes of the host are read as. -/
theorem mesh_send_eq_ok (hsend : h.send json hostId s q = .ok reply) :
    ∃ bytes, h.client.request hostId mapTopic
        (requestBytes json { query := q, shard := s, grant := h.grant }) h.timeoutMs = .ok bytes ∧
      (json.parseBytes bytes).bind replyCodec.decode = some reply := by
  obtain ⟨bytes, hbytes, hdecode⟩ := MeshMapHost.send_eq_ok hsend
  refine ⟨bytes, hbytes, ?_⟩
  rw [MeshMapHost.decodeReply] at hdecode
  split at hdecode
  · cases hdecode
  · split at hdecode
    · rename_i hread
      cases hdecode
      exact hread
    · cases hdecode

theorem mesh_map_eq_ok (hmap : (h.mapHost json).map hostId s q = .ok p) :
    h.send json hostId s q = .ok (.ok p) := by
  change (h.send json hostId s q).bind MeshMapHost.replyPartial = .ok p at hmap
  cases hsend : h.send json hostId s q with
  | error e =>
      rw [hsend] at hmap
      cases hmap
  | ok reply =>
      rw [hsend] at hmap
      cases reply with
      | ok p' =>
          cases hmap
          rfl
      | rows rows => cases hmap
      | err reason => cases hmap

theorem mesh_project_eq_ok (hproject : (h.mapHost json).project hostId s q = .ok rows) :
    h.send json hostId s q = .ok (.rows rows) := by
  change (h.send json hostId s q).bind MeshMapHost.replyRows = .ok rows at hproject
  cases hsend : h.send json hostId s q with
  | error e =>
      rw [hsend] at hproject
      cases hproject
  | ok reply =>
      rw [hsend] at hproject
      cases reply with
      | ok p => cases hproject
      | rows rows' =>
          change (if rows'.length > maxProjectionRows then _ else Except.ok rows') = .ok rows
            at hproject
          split at hproject
          · cases hproject
          · cases hproject
            rfl
      | err reason => cases hproject

/-- A partial that came over the mesh can be written. -/
theorem mesh_map_keeps (hmap : (h.mapHost json).map hostId s q = .ok p) :
    partialCodec.Keeps p := by
  obtain ⟨bytes, _, hread⟩ := mesh_send_eq_ok (mesh_map_eq_ok hmap)
  obtain ⟨d, _, hdecode⟩ := Option.bind_eq_some_iff.mp hread
  obtain ⟨tag, payload, htagged⟩ := Codec.enumeration_reads hdecode
  split at htagged
  · obtain ⟨p', hp', heq⟩ := Option.map_eq_some_iff.mp htagged
    cases heq
    exact partialCodec_stable _ p hp'
  · obtain ⟨_, _, heq⟩ := Option.map_eq_some_iff.mp htagged
    cases heq
  · obtain ⟨_, _, heq⟩ := Option.map_eq_some_iff.mp htagged
    cases heq
  · cases htagged

/-- A reply is read as the text of some reply of an agent. -/
theorem mesh_send_reads (hagent : h.RepliesAs serde json iam setup content q s hostId)
    (hsend : h.send json hostId s q = .ok reply) :
    ∃ sent, Agent.CanReply serde json iam setup content
        { query := q, shard := s, grant := h.grant } sent ∧
      replyCodec.decode (replyCodec.encode sent) = some reply := by
  obtain ⟨bytes, hbytes, hread⟩ := mesh_send_eq_ok hsend
  obtain ⟨sent, hsent, rfl, hcarries⟩ := hagent bytes hbytes
  rw [replyBytes, JsonText.parseBytes_toUTF8] at hread
  by_cases hdepth : (replyCodec.encode sent).depth ≤ maxDepth
  · rw [hcarries.parse_print hdepth, Option.bind_some] at hread
    exact ⟨sent, hsent, hread⟩
  · rw [hcarries.too_deep (Nat.not_le.mp hdepth)] at hread
    cases hread

/-- An agent answers with the map output of the blob, if that can be written. -/
theorem mesh_map_eq_mapShard (hagent : h.RepliesAs serde json iam setup content q s hostId)
    (hportable : q.isProjection = false → q.Portable serde (blobTable json content s.cid))
    (hmap : (h.mapHost json).map hostId s q = .ok p) :
    p = q.mapShard serde (blobTable json content s.cid) := by
  obtain ⟨sent, hsent, hread⟩ := mesh_send_reads hagent (mesh_map_eq_ok hmap)
  obtain ⟨p', rfl, hdecode⟩ := decode_encode_ok hread
  have hp' := hsent.computes trivial
  cases hmode : q.isProjection with
  | true =>
      rw [if_pos hmode] at hp'
      cases hp'
  | false =>
      rw [if_neg (by simp [hmode])] at hp'
      cases hp'
      have hkeeps := (mapShard_keeps_iff serde q _).mpr (hportable hmode)
      exact Option.some.inj (hdecode.symm.trans hkeeps)

/-- An agent answers with the projected rows of the blob. -/
theorem mesh_project_eq_projectShard
    (hagent : h.RepliesAs serde json iam setup content q s hostId)
    (hproject : (h.mapHost json).project hostId s q = .ok rows) :
    rows = q.projectShard (blobTable json content s.cid) := by
  obtain ⟨sent, hsent, hread⟩ := mesh_send_reads hagent (mesh_project_eq_ok hproject)
  obtain ⟨rows', rfl, hdecode⟩ := decode_encode_rows hread
  have hrows' := hsent.computes trivial
  cases hmode : q.isProjection with
  | false =>
      rw [if_neg (by simp [hmode])] at hrows'
      cases hrows'
  | true =>
      rw [if_pos hmode] at hrows'
      cases hrows'
      have hkeeps : rowCodec.list.Keeps (q.projectShard (blobTable json content s.cid)) := by
        rw [Codec.list_keeps_iff]
        intro row hrow
        apply rowCodec_keeps
        exact Query.projectShard_cells.mpr
          (fun row hrow _ c v _ => blobTable_ordered json content s.cid row hrow c v) row hrow
      exact Option.some.inj (hdecode.symm.trans hkeeps)

/-- A mesh of agents computes from the blobs, if what it computes can be written. -/
theorem mesh_computes {setup : String → Agent.Setup} {shards : List Shard} {hosts : List String}
    (hagents : ∀ s ∈ shards, ∀ hostId ∈ hosts,
      h.RepliesAs serde json iam (setup hostId) content q s hostId)
    (hportable : q.isProjection = false →
      ∀ s ∈ shards, q.Portable serde (blobTable json content s.cid)) :
    (h.mapHost json).Computes serde (blobTable json content) q shards hosts where
  map s hs hostId hmem _ hmap :=
    mesh_map_eq_mapShard (hagents s hs hostId hmem) (fun hmode => hportable hmode s hs) hmap
  project s hs hostId hmem _ hproject :=
    mesh_project_eq_projectShard (hagents s hs hostId hmem) hproject

end Host

/-- What the local host answers is the map output of the blob. -/
theorem localMap_eq_mapShard {serde : SerdeJson} {json : JsonText} {blobs : BlobStore}
    {content : String → ByteArray} {q : Query} {s : Shard} {hostId : String} {p : Partial}
    (hblobs : blobs.Holds content)
    (hmap : (localMapHost serde json blobs).map hostId s q = .ok p) :
    p = q.mapShard serde (blobTable json content s.cid) := by
  change (fetchRows serde json blobs s).map (q.mapShard serde) = .ok p at hmap
  cases hrows : fetchRows serde json blobs s with
  | error e =>
      rw [hrows] at hmap
      cases hmap
  | ok rows =>
      rw [hrows] at hmap
      cases hmap
      rw [fetchRows_table hblobs hrows]

/-- A run over the mesh, in which fewer hosts lie, if any do, than there must be copies,
than have to agree and than answer for each live shard, reports what the tables of the
blobs reduce to, and so what every run in one process reports. -/
theorem mesh_run_eq_local {Cap : Type} {env : Externals} {json : JsonText} {iam : IamCore Cap}
    {setup : String → Agent.Setup} {content : String → ByteArray} {h : MeshMapHost}
    {config : RunConfig} {q : Query} {shards : List Shard} {hosts liars : List String}
    {clock : Nat → Nat → Nat} {order : List Nat} {report : RunReport}
    (hcanonical : ∀ p, env.canonical p = some (json.print (partialCodec.encode p)))
    (hprint : env.PrintsObjects) (hdistinct : hosts.Nodup)
    (hagents : ∀ s ∈ liveShards q shards, ∀ hostId ∈ hosts, hostId ∉ liars →
      h.RepliesAs env.toSerdeJson json iam (setup hostId) content q s hostId)
    (hportable : ∀ s ∈ liveShards q shards,
      q.Portable env.toSerdeJson (blobTable json content s.cid))
    (htexts : ∀ s ∈ liveShards q shards, ∀ p,
      p = q.mapShard env.toSerdeJson (blobTable json content s.cid) ∨
        (∃ hostId ∈ hosts, (h.mapHost json).map hostId s q = .ok p) →
      json.Carries json.print (partialCodec.encode p))
    (hfew : liars.length < max config.redundancy 1)
    (hquorum : config.quorum = 0 ∨ liars.length < config.quorum)
    (henough : liars ≠ [] → ∀ s ∈ liveShards q shards, liars.length <
      (askedHosts env config hosts s).countP (mapAnswers (h.mapHost json) q s))
    (hrun : run env (h.mapHost json) config q clock shards hosts order = some (.ok report)) :
    reducedRows env.toSerdeJson q
        (q.mapOutputs env.toSerdeJson (blobTable json content) shards) = some report.results ∧
      ∀ (blobs : BlobStore) config' clock' hosts' order' report', blobs.Holds content →
        run env (localMapHost env.toSerdeJson json blobs) config' q clock' shards hosts' order' =
          some (.ok report') →
        report.results = report'.results := by
  have hrows : reducedRows env.toSerdeJson q
      (q.mapOutputs env.toSerdeJson (blobTable json content) shards) = some report.results := by
    refine run_reduces ?_ hrun
    intro s hs clock o ho
    refine mapOneShard_outvotes hprint hdistinct ⟨?_, ?_⟩ hfew hquorum
      (fun hsome => henough hsome s hs) ho
    · intro hostId hmem hnot p hmap
      exact mesh_map_eq_mapShard (hagents s hs hostId hmem hnot) (fun _ => hportable s hs) hmap
    · intro hostId hmem p text hmap hlied htext
      rw [hcanonical] at hlied htext
      exact partial_eq_of_print_eq (mesh_map_keeps hmap)
        ((mapShard_keeps_iff _ q _).mpr (hportable s hs))
        (htexts s hs p (.inr ⟨hostId, hmem, hmap⟩)) (htexts s hs _ (.inl rfl))
        (Option.some.inj (hlied.trans htext.symm))
  refine ⟨hrows, ?_⟩
  intro blobs config' clock' hosts' order' report' hblobs hlocal
  have hrows' : reducedRows env.toSerdeJson q
      (q.mapOutputs env.toSerdeJson (blobTable json content) shards) = some report'.results := by
    refine run_reduces ?_ hlocal
    intro s _ clock o ho
    obtain ⟨hostId, _, hmap⟩ := mapOneShard_answered ho
    exact localMap_eq_mapShard hblobs hmap
  exact Option.some.inj (hrows.symm.trans hrows')

/-- An agent that asks for no grant. -/
def openSetup : Agent.Setup where
  selfId := Vector.replicate 32 0
  requireGrant := false
  revocationRefreshSecs := U64.zero
  acceptedRoots := []
  maxConcurrent := 1

/-- Every token is refused. -/
def noIam : IamCore Unit where
  decodeChain _ := .error ""
  authorize _ _ _ _ _ _ _ _ := .error ""
  abilities _ := []
  pathPrefix _ := none

end CeQuery
