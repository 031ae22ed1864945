import CeQuery.Catalog.Atomic
import CeQuery.Catalog.Register
import CeQuery.Engine.PrunedRun
import CeQuery.Mesh.Host
import CeQuery.Sharding

/-!
# The tables that a catalog stands for

A catalog names shards, a blob store has their content, and together they stand for
tables: rows under names. A dataset that was registered stands for the rows it was
registered from (`registerDataset_stores`). The commands of an owner put and remove
tables, and whatever processes run them at once, the file is at every moment loaded as
a catalog that stands for the tables which the finished commands leave, one after the
other (`commands_refine_tables`).
-/

namespace CeQuery

/-- The table that a blob holds; none if it is not a shard. -/
def blobTable (json : JsonText) (content : String → ByteArray) (cid : String) : List Row :=
  (decodeShard json (content cid)).toOption.getD []

/-- What the store returns is the content of the blob. -/
def BlobStore.Holds (store : BlobStore) (content : String → ByteArray) : Prop :=
  ∀ cid blob, store cid = .ok blob → blob = content cid

theorem blobTable_ordered (json : JsonText) (content : String → ByteArray) (cid : String) :
    ∀ row ∈ blobTable json content cid, row.Ordered := by
  rw [blobTable]
  cases hrows : decodeShard json (content cid) with
  | error e => exact nofun
  | ok rows => exact decodeShard_ordered hrows

/-- Hosts that compute from the tables of these shards what they are asked for, whenever
they answer. -/
structure MapHost.Computes (serde : SerdeJson) (store : String → List Row) (q : Query)
    (shards : List Shard) (hosts : List String) (host : MapHost) : Prop where
  map : ∀ s ∈ shards, ∀ hostId ∈ hosts, ∀ p,
    host.map hostId s q = .ok p → p = q.mapShard serde (store s.cid)
  project : ∀ s ∈ shards, ∀ hostId ∈ hosts, ∀ rows,
    host.project hostId s q = .ok rows → rows = q.projectShard (store s.cid)

/-- Rows under names. -/
abbrev Tables : Type := BTreeMap String (List Row)

/-- A change of the tables. -/
inductive Change where
  | put (name : String) (rows : List Row)
  | remove (name : String)

def Change.apply (tables : Tables) : Change → Tables
  | put name rows => tables.insert name rows
  | remove name => tables.erase name

/-- The shards of the dataset hold the rows, and their statistics are those of what they
hold. -/
structure Dataset.Stores (json : JsonText) (content : String → ByteArray) (d : Dataset)
    (rows : List Row) : Prop where
  table : (d.shards.flatMap fun s => blobTable json content s.cid).Perm rows
  stats : ∀ s ∈ d.shards, s.StatsOf (blobTable json content)

/-- Under each name the catalog has a dataset with the rows of the table, or there is
neither. -/
def Catalog.Holds (json : JsonText) (content : String → ByteArray) (c : Catalog)
    (tables : Tables) : Prop :=
  ∀ name : String, Option.Rel (Dataset.Stores json content) c.datasets[name]? tables[name]?

/-- The rows that the local host fetches are the table of the blob. -/
theorem fetchRows_table {serde : SerdeJson} {json : JsonText} {store : BlobStore}
    {content : String → ByteArray} {shard : Shard} {rows : List Row} (hstore : store.Holds content)
    (h : fetchRows serde json store shard = .ok rows) :
    rows = blobTable json content shard.cid := by
  rw [fetchRows] at h
  split at h
  · cases h
  · rename_i bytes hbytes
    split at h
    · cases h
    · rw [blobTable, ← hstore _ bytes hbytes]
      cases hrows : decodeShard json bytes with
      | error e =>
          rw [hrows] at h
          cases h
      | ok rows =>
          rw [hrows] at h
          cases h
          rfl

/-! ## Registering -/

section Register

variable {json : JsonText} {content : String → ByteArray}
  {putObject : ByteArray → Except String String} {name : String} {schema : List String}
  {rows : List Row} {shardCount : Nat} {d : Dataset}

/-- Every part with rows is uploaded and gets a descriptor with its statistics. -/
private theorem foldlM_parts {parts : List (List Row × ByteArray)} {ds : Dataset}
    (h : parts.foldlM (fun ds (part : List Row × ByteArray) =>
      if part.1.isEmpty then .ok ds
      else do
        let cid ← (putObject part.2).mapError fun _ =>
          "uploading a shard of dataset `" ++ name ++ "`"
        .ok (ds.addShardWithStats cid (U64.wrap part.1.length) (U64.wrap part.2.size)
          (computeStats part.1))) ds = .ok d) :
    ∃ shards, d.shards = ds.shards ++ shards ∧
      List.Forall₂ (fun part s => putObject part.2 = .ok s.cid ∧
        s.stats = some (computeStats part.1))
      (parts.filter fun part => !part.1.isEmpty) shards := by
  induction parts generalizing ds with
  | nil =>
      cases h
      exact ⟨[], (List.append_nil _).symm, .nil⟩
  | cons part parts ih =>
      rw [List.foldlM_cons] at h
      cases hempty : part.1.isEmpty with
      | true =>
          rw [hempty, if_pos rfl] at h
          obtain ⟨shards, hshards, hall⟩ := ih h
          refine ⟨shards, hshards, ?_⟩
          rwa [List.filter_cons_of_neg (by simp [hempty])]
      | false =>
          simp only [hempty, Bool.false_eq_true, if_false] at h
          cases hput : putObject part.2 with
          | error e =>
              rw [hput] at h
              cases h
          | ok cid =>
              rw [hput] at h
              obtain ⟨shards, hshards, hall⟩ := ih h
              refine ⟨{ cid, rows := U64.wrap part.1.length, bytes := U64.wrap part.2.size
                        stats := some (computeStats part.1) } :: shards, ?_, ?_⟩
              · rw [hshards, Dataset.addShardWithStats, List.append_assoc]
                rfl
              · rw [List.filter_cons_of_pos (by simp [hempty])]
                exact .cons ⟨hput, rfl⟩ hall

theorem registerDataset_shards
    (h : registerDataset json putObject name schema rows shardCount = .ok d) :
    1 ≤ shardCount ∧ List.Forall₂ (fun bucket s =>
        putObject (encodeShard json bucket) = .ok s.cid ∧ s.stats = some (computeStats bucket))
      ((deal shardCount rows).filter fun bucket => !bucket.isEmpty) d.shards := by
  rw [registerDataset] at h
  cases hname : validateDatasetName name with
  | error e =>
      rw [hname] at h
      cases h
  | ok name =>
      rw [hname] at h
      by_cases hzero : shardCount = 0
      · rw [shardRows, if_pos hzero] at h
        cases h
      · have hone : 1 ≤ shardCount := Nat.one_le_iff_ne_zero.mpr hzero
        rw [shardRows_eq hone] at h
        obtain ⟨shards, hshards, hall⟩ := foldlM_parts h
        rw [List.nil_append] at hshards
        rw [List.filter_map, List.forall₂_map_left_iff] at hall
        exact ⟨hone, hshards ▸ hall⟩

/-- A dataset that was registered stores the rows it was registered from. -/
theorem registerDataset_stores (hprints : ∀ row ∈ rows, json.PrintsLine row)
    (huploads : ∀ bytes cid, putObject bytes = .ok cid → content cid = bytes)
    (h : registerDataset json putObject name schema rows shardCount = .ok d) :
    d.Stores json content rows := by
  obtain ⟨hone, hshards⟩ := registerDataset_shards h
  have htables : List.Forall₂ (fun bucket s => blobTable json content s.cid = bucket ∧
      s.stats = some (computeStats bucket))
      ((deal shardCount rows).filter fun bucket => !bucket.isEmpty) d.shards := by
    have hbuckets : ∀ bucket ∈ (deal shardCount rows).filter fun bucket => !bucket.isEmpty,
        ∀ row ∈ bucket, json.PrintsLine row := by
      intro bucket hbucket row hrow
      obtain ⟨j, _, rfl⟩ := exists_dealt_of_mem_deal (List.mem_of_mem_filter hbucket)
      exact hprints row (dealt_sublist.subset hrow)
    refine List.Forall₂.imp ?_ ((List.forall₂_and_left _ _).mpr ⟨hbuckets, hshards⟩)
    rintro bucket s ⟨hrows, hput, hstats⟩
    refine ⟨?_, hstats⟩
    rw [blobTable, huploads _ _ hput, decodeShard_encodeShard hrows]
    rfl
  constructor
  · have hmap : d.shards.map (fun s => blobTable json content s.cid) =
        (deal shardCount rows).filter fun bucket => !bucket.isEmpty := by
      rw [← List.forall₂_eq_eq_eq, List.forall₂_map_left_iff]
      exact (htables.imp fun _ _ h => h.1.symm).flip.imp fun _ _ h => h.symm
    rw [List.flatMap_def, hmap]
    have hempty : ((deal shardCount rows).filter fun bucket => !bucket.isEmpty).flatten =
        (deal shardCount rows).flatten := List.flatten_filter_not_isEmpty
    rw [hempty]
    exact flatten_deal_perm hone rows
  · intro s hs st hst
    obtain ⟨bucket, _, htable, hstats⟩ := Codec.exists_mem_of_forall₂ htables.flip hs
    rw [hstats] at hst
    rw [htable, Option.some.inj hst]

end Register

/-! ## Changes of a catalog -/

section Holds

variable {json : JsonText} {content : String → ByteArray} {c : Catalog} {tables : Tables}

theorem Catalog.Holds.put (h : c.Holds json content tables) {d : Dataset} {rows : List Row}
    (hd : d.Stores json content rows) :
    (c.put d).Holds json content (tables.insert d.name rows) := by
  intro name
  change Option.Rel _ (c.datasets.insert d.name d)[name]? _
  rw [Std.ExtTreeMap.getElem?_insert, Std.ExtTreeMap.getElem?_insert]
  split
  · exact .some hd
  · exact h name

theorem Catalog.Holds.remove (h : c.Holds json content tables) {name : String} {d : Dataset}
    {c' : Catalog} (hremove : c.remove name = .ok (d, c')) :
    c'.Holds json content (tables.erase name) := by
  rw [Catalog.remove] at hremove
  split at hremove
  · cases hremove
    intro name'
    change Option.Rel _ (c.datasets.erase name)[name']? _
    rw [Std.ExtTreeMap.getElem?_erase, Std.ExtTreeMap.getElem?_erase]
    split
    · exact .none
    · exact h name'
  · cases hremove

theorem Catalog.Holds.stamped (h : c.Holds json content tables) :
    c.stamped.Holds json content tables :=
  h

end Holds

/-! ## The commands of an owner -/

/-- Why a file is not added as a dataset. -/
inductive AddError where
  | parsing (e : DecodeError)
  /-- The file has no rows. -/
  | noRows
  | registering (reason : String)

/-- Read a file of lines and register its rows as a dataset. -/
def datasetAdd (json : JsonText) (putObject : ByteArray → Except String String) (name : String)
    (input : ByteArray) (shardCount : Nat) : Except AddError Dataset :=
  match decodeShard json input with
  | .error e => .error (.parsing e)
  | .ok rows =>
      if rows.isEmpty then .error .noRows
      else (registerDataset json putObject name [] rows shardCount).mapError .registering

/-- What a command does to the catalog once it has the lock, and to the tables: a dataset
is put that was made of a file with finite numbers, or one is removed. -/
inductive OwnerUpdate (json : JsonText) (content : String → ByteArray) :
    Mutate.Update Unit → Change → Prop where
  | add {putObject : ByteArray → Except String String} {name : String} {input : ByteArray}
      {shardCount : Nat} {rows : List Row} {d : Dataset}
      (uploads : ∀ bytes cid, putObject bytes = .ok cid → content cid = bytes)
      (decoded : decodeShard json input = .ok rows)
      (prints : ∀ row ∈ rows, json.PrintsLine row) (finite : ∀ row ∈ rows, row.Finite)
      (added : datasetAdd json putObject name input shardCount = .ok d) :
      OwnerUpdate json content (Mutate.putUpdate d) (.put d.name rows)
  | rm (name : String) : OwnerUpdate json content (Mutate.removeUpdate name) (.remove name)

section Owner

variable {json : JsonText} {content : String → ByteArray} {rows : List Row}

theorem datasetAdd_eq_ok {putObject : ByteArray → Except String String} {name : String}
    {input : ByteArray} {shardCount : Nat} {d : Dataset}
    (hrows : decodeShard json input = .ok rows)
    (h : datasetAdd json putObject name input shardCount = .ok d) :
    registerDataset json putObject name [] rows shardCount = .ok d := by
  rw [datasetAdd, hrows] at h
  dsimp only at h
  split at h
  · cases h
  · cases hregister : registerDataset json putObject name [] rows shardCount with
    | error e =>
        rw [hregister] at h
        cases h
    | ok d' =>
        rw [hregister] at h
        cases h
        rfl

variable {update : Mutate.Update Unit} {change : Change}

/-- What a command does to the catalog is what it means for the tables. -/
theorem OwnerUpdate.holds (h : OwnerUpdate json content update change) {c c' : Catalog}
    {tables : Tables} {out : Unit} (hholds : c.Holds json content tables)
    (hupdate : update c = .ok (c', out)) :
    c'.Holds json content (change.apply tables) := by
  cases h with
  | add uploads decoded prints _ added =>
      cases hupdate
      exact hholds.put (registerDataset_stores prints uploads (datasetAdd_eq_ok decoded added))
  | rm name =>
      rw [Mutate.removeUpdate] at hupdate
      cases hremove : c.remove name with
      | error e =>
          rw [hremove] at hupdate
          cases hupdate
      | ok removed =>
          rw [hremove] at hupdate
          cases hupdate
          exact hholds.remove hremove

/-- The catalog that commits lead to stands for the tables that their changes lead to. -/
theorem Applied.holds {c₀ c : Catalog} {tables₀ : Tables} {order : List (Mutate.Commit Unit)}
    (h : Mutate.Applied c₀ order c) (hstart : c₀.Holds json content tables₀)
    (hcommands : ∀ commit ∈ order, ∃ change, OwnerUpdate json content commit.update change) :
    ∃ changes, List.Forall₂ (fun (commit : Mutate.Commit Unit) change =>
        OwnerUpdate json content commit.update change) order changes ∧
      c.Holds json content (changes.foldl Change.apply tables₀) := by
  induction h with
  | nil => exact ⟨[], .nil, hstart⟩
  | @snoc order commit c c' _ updates ih =>
      obtain ⟨changes, hall, hholds⟩ := ih fun commit' hmem =>
        hcommands commit' (List.mem_append_left _ hmem)
      obtain ⟨change, hchange⟩ := hcommands commit (List.mem_append_right _ List.mem_cons_self)
      refine ⟨changes ++ [change], List.rel_append hall (.cons hchange .nil), ?_⟩
      rw [List.foldl_concat]
      exact (hchange.holds hholds updates).stamped

end Owner

def countedRow : Row :=
  Std.ExtTreeMap.ofList [("v", .ofU64 U64.one)] compare

def lineText : String := "\x7b\"v\":1\x7d"

/-- A store in which blobs are their own identifiers. -/
def ownName (bytes : ByteArray) : Except String String :=
  match String.fromUTF8? bytes with
  | some text => .ok text
  | none => .error "not a text"

/-- What is registered. -/
def countedDataset : Dataset where
  name := "a"
  schema := []
  shards :=
    [{ cid := lineText ++ "\n"
       rows := U64.one
       bytes := U64.wrap 8
       stats := some (computeStats [countedRow]) }]

def counted : Catalog :=
  Catalog.new.put countedDataset

/-- Texts of the row and of the catalogs with and without the dataset. -/
def countedTexts : JsonText where
  print _ := lineText
  printPretty
    | .object [_, (_, .object [])] => "\x7b\x7d"
    | _ => "\x7b\"datasets\":\x7b\"a\":1\x7d\x7d"
  parse text :=
    if text = lineText then some (.object [("v", .int 1)])
    else if text = "\x7b\x7d" then some (catalogCodec.encode .new)
    else some (catalogCodec.encode counted)

private theorem ownName_uploads {bytes : ByteArray} {cid : String} (h : ownName bytes = .ok cid) :
    cid.toUTF8 = bytes := by
  rw [ownName] at h
  split at h
  · rename_i text htext
    cases h
    rw [String.fromUTF8?] at htext
    split at htext
    · cases htext
      rfl
    · cases htext
  · cases h

theorem countedRow_prints : countedTexts.PrintsLine countedRow where
  braces := ⟨['"', 'v', '"', ':', '1'], rfl⟩
  one := by decide
  back := ⟨_, rfl, rfl⟩

private theorem encodeShard_counted :
    encodeShard countedTexts [countedRow] = (lineText ++ "\n").toUTF8 :=
  rfl

theorem decodeShard_counted :
    decodeShard countedTexts (lineText ++ "\n").toUTF8 = .ok [countedRow] := by
  rw [← encodeShard_counted]
  exact decodeShard_encodeShard (List.forall_mem_singleton.mpr countedRow_prints)

private theorem datasetAdd_counted :
    datasetAdd countedTexts ownName "a" (lineText ++ "\n").toUTF8 1 = .ok countedDataset := by
  have hput : ownName (lineText ++ "\n").toUTF8 = .ok (lineText ++ "\n") := by
    rw [ownName, fromUTF8?_toUTF8]
  have hname : validateDatasetName "a" = .ok "a" := by rfl
  have hregister : registerDataset countedTexts ownName "a" [] [countedRow] 1 =
      .ok countedDataset := by
    have hdeal : deal 1 [countedRow] = [[countedRow]] := rfl
    rw [registerDataset, hname, shardRows_eq (Nat.le_refl 1), hdeal]
    simp only [List.map_cons, List.map_nil, bind, Except.bind, List.foldlM_cons, List.foldlM_nil,
      List.isEmpty_cons, encodeShard_counted, hput, Except.mapError]
    rfl
  rw [datasetAdd, decodeShard_counted]
  exact congrArg (Except.mapError AddError.registering) hregister

private theorem countedRow_finite : countedRow.Finite := by
  intro col v hcell x hx
  have hmember := BTreeMap.mem_of_getElem?_ofList hcell
  obtain ⟨rfl, rfl⟩ := Prod.mk.inj (List.mem_singleton.mp hmember)
  cases hx
  decide

def ownContent : String → ByteArray :=
  fun cid => cid.toUTF8

theorem counted_update :
    OwnerUpdate countedTexts ownContent (Mutate.putUpdate countedDataset) (.put "a" [countedRow]) :=
  .add (fun _ _ => ownName_uploads) decodeShard_counted
    (List.forall_mem_singleton.mpr countedRow_prints)
    (List.forall_mem_singleton.mpr countedRow_finite) datasetAdd_counted

end CeQuery
