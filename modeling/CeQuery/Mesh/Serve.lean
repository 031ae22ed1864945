import CeQuery.Caps
import CeQuery.Mesh.Host

/-!
# Serving with grants

An agent that requires grants checks the token of a request against the dataset
that the query names. The blob it reads is named by the shard of the request,
and nothing relates the two. `disclosure_authorised_iff` says for which requests
the token covers the dataset of the shard nevertheless.
-/

namespace CeQuery

section

variable {Cap : Type} (iam : IamCore Cap) (selfId : NodeId) (acceptedRoots : List NodeId)
  (now : U64) (isRevoked : NodeId → U64 → Bool)

/-- The check an agent makes of a request before it serves it. The requester is
unknown if the id of the sender is not a node id. -/
def grantCheck (requireGrant : Bool) (requester : Option NodeId) (req : MapRequest) :
    Except String Unit :=
  if !requireGrant then .ok ()
  else
    match requester with
    | none => .error "unknown requester"
    | some requester =>
        match req.grant with
        | none => .error "grant required"
        | some grant =>
            verify iam selfId acceptedRoots [] now requester req.query.dataset grant isRevoked

/-- The token that the request presents authorises the requester for the dataset. -/
def Authorises (requester : Option NodeId) (req : MapRequest) (dataset : String) : Prop :=
  ∃ node grant, requester = some node ∧ req.grant = some grant ∧
    verify iam selfId acceptedRoots [] now node dataset grant isRevoked = .ok ()

end

/-- The request presents a token whose scope is every dataset. -/
def CoversAll {Cap : Type} (iam : IamCore Cap) (req : MapRequest) : Prop :=
  ∃ grant abilities, req.grant = some grant ∧ inspect iam grant = .ok (abilities, .all)

/-- The reply shows something of the shard. -/
def MapReply.Discloses : MapReply → Prop
  | .ok _ => True
  | .rows _ => True
  | .err _ => False

section Serve

/-- What is disclosed was permitted. -/
theorem verify_of_discloses {serde : SerdeJson} {json : JsonText} {store : BlobStore}
    {verify : MapRequest → Except String Unit} {req : MapRequest}
    (h : (serveMap serde json store verify req).Discloses) :
    verify req = .ok () := by
  rw [serveMap] at h
  split at h
  · exact h.elim
  · assumption

end Serve

section Grants

variable {Cap : Type} {iam : IamCore Cap} {selfId : NodeId} {acceptedRoots : List NodeId}
  {now : U64} {isRevoked : NodeId → U64 → Bool} {requester : Option NodeId} {req : MapRequest}

theorem grantCheck_eq_ok_iff :
    grantCheck iam selfId acceptedRoots now isRevoked true requester req = .ok () ↔
      Authorises iam selfId acceptedRoots now isRevoked requester req req.query.dataset := by
  unfold grantCheck Authorises
  cases requester with
  | none => simp
  | some node =>
      cases req.grant with
      | none => simp
      | some grant => simp

/-- A token that covers a dataset covers another one exactly if it covers all. -/
theorem Authorises.iff_of_ne {dataset dataset' : String}
    (h : Authorises iam selfId acceptedRoots now isRevoked requester req dataset)
    (hne : dataset' ≠ dataset) :
    Authorises iam selfId acceptedRoots now isRevoked requester req dataset' ↔
      CoversAll iam req := by
  obtain ⟨node, grant, hnode, hgrant, hverify⟩ := h
  obtain ⟨chain, leaf, hdecode, hauth, hlast, hleaf⟩ := verify_eq_ok_iff.mp hverify
  have hinspect : inspect iam grant = .ok (iam.abilities leaf, scopeOf iam leaf) := by
    simp [inspect, hdecode, hlast, Except.mapError, bind, Except.bind]
  have hall : CoversAll iam req ↔ (scopeOf iam leaf).dataset = "" := by
    simp [CoversAll, hgrant, hinspect, Scope.ext_iff, Scope.all]
  have hother : Authorises iam selfId acceptedRoots now isRevoked requester req dataset' ↔
      scopeAllows (scopeOf iam leaf) dataset' = true := by
    simp [Authorises, hnode, hgrant, verify_eq_ok_iff, hdecode, hauth, hlast]
  rw [hall, hother, scopeAllows_iff, or_iff_left_iff_imp]
  intro hleaf'
  rcases scopeAllows_iff.mp hleaf with hempty | hdataset
  · exact hempty
  · exact absurd (hleaf'.symm.trans hdataset) hne

/-- When an agent that requires grants discloses a shard, the token authorises
the requester for the dataset of the shard exactly if that is the dataset of the
query or the token covers every dataset. -/
theorem disclosure_authorised_iff {serde : SerdeJson} {json : JsonText} {store : BlobStore}
    {owner : String → Option String} {dataset : String}
    (howner : owner req.shard.cid = some dataset)
    (hreply : (serveMap serde json store
      (grantCheck iam selfId acceptedRoots now isRevoked true requester) req).Discloses) :
    Authorises iam selfId acceptedRoots now isRevoked requester req dataset ↔
      owner req.shard.cid = some req.query.dataset ∨ CoversAll iam req := by
  have hgranted := grantCheck_eq_ok_iff.mp (verify_of_discloses hreply)
  rw [howner, Option.some.injEq]
  by_cases hsame : dataset = req.query.dataset
  · subst hsame
    exact iff_of_true hgranted (.inl rfl)
  · rw [hgranted.iff_of_ne hsame]
    simp [hsame]

end Grants

/-! ## One grant -/

private def salesQuery : Query where
  dataset := "sales"
  aggregates := []
  predicate := .true
  groupBy := []
  orderBy := []
  limit := none
  projection := some []

/-- A request for all rows of a shard under a query on the dataset "sales". -/
private def salesRequest (cid : String) : MapRequest where
  query := salesQuery
  shard :=
    { cid
      rows := U64.one
      bytes := U64.zero
      stats := none }
  grant := some "token"

/-- The text of one row. -/
private def rowText : JsonText where
  print _ := "\x7b\"v\":1\x7d"
  printPretty _ := "\x7b\n  \"v\": 1\n\x7d"
  parse _ := some (.object [("v", .int 1)])

private def ownerOf : String → Option String
  | "s0" => some "sales"
  | "p0" => some "payroll"
  | _ => none

private def salesCheck : MapRequest → Except String Unit :=
  grantCheck (.sample [some "sales"]) .zero [] U64.zero (fun _ _ => false) true (some .zero)

private def rowStore : BlobStore :=
  fun _ => .ok "\x7b\"v\":1\x7d\n".toUTF8

private theorem serve_sales (cid : String) :
    (serveMap .sample rowText rowStore salesCheck (salesRequest cid)).Discloses := by
  have hrows : decodeShard rowText "\x7b\"v\":1\x7d\n".toUTF8 =
      .ok [Std.ExtTreeMap.insert ∅ "v" (.ofU64 U64.one)] := by
    rw [decodeShard_toUTF8]
    rfl
  have hverify : salesCheck (salesRequest cid) = .ok () := rfl
  have hquery : salesQuery.validate = .ok () := by decide
  have hvalid : (salesRequest cid).query.validate = .ok () := hquery
  have hfew : (salesQuery.projectShard [Std.ExtTreeMap.insert ∅ "v" (.ofU64 U64.one)]).length ≤
      maxProjectionRows := by decide
  rw [serveMap_eq hverify hvalid rfl (by decide) hrows (fun _ => hfew)]
  trivial

/-- A shard of the dataset of the query is disclosed to its grantee. -/
theorem disclosure_authorised_iff_own_shard :
    Authorises (.sample [some "sales"]) .zero [] U64.zero (fun _ _ => false) (some .zero)
      (salesRequest "s0") "sales" := by
  have howner : ownerOf (salesRequest "s0").shard.cid = some "sales" := rfl
  exact (disclosure_authorised_iff howner (serve_sales "s0")).mpr (.inl rfl)

/-- A grant for the dataset "sales" opens a shard of the dataset "payroll". -/
theorem grant_opens_other_dataset :
    ownerOf (salesRequest "p0").shard.cid = some "payroll" ∧
      (serveMap .sample rowText rowStore salesCheck (salesRequest "p0")).Discloses ∧
      ¬Authorises (.sample [some "sales"]) .zero [] U64.zero (fun _ _ => false) (some .zero)
        (salesRequest "p0") "payroll" := by
  refine ⟨rfl, serve_sales "p0", ?_⟩
  rintro ⟨node, grant, hnode, hgrant, hverify⟩
  cases hnode
  cases hgrant
  exact absurd hverify (by decide)

end CeQuery
