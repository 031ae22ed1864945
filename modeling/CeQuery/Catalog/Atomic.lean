import CeQuery.Catalog.Exclusion
import CeQuery.Catalog.RoundTrip
import CeQuery.Foundation.Stable

/-!
# The catalog file as an atomic store

Whatever file is loaded as a catalog, with its members in any order, of an older version
or edited by hand, what was loaded is loaded again once it is saved
(`load_saved_of_load`). So the file can be forgotten: a run of processes that change it
is one that applies the committed updates, each to the catalog that the one before has
left, and at every moment the file is loaded as the catalog reached so far
(`mutate_atomic`). In particular no update makes the file unreadable for the next.
-/

namespace CeQuery

/-! ## Files that can be loaded -/

section Stable

theorem statsCodec_stable : statsCodec.Stable := by
  refine Codec.record_stable (fun _ => rfl) (Fields.cons_stable ?_ ?_ Fields.nil_stable)
  · rintro _ ⟨⟩
    rfl
  · exact Codec.map_stable (Codec.pair_stable Codec.float_stable Codec.float_stable)

theorem shardCodec_stable : shardCodec.Stable := by
  refine Codec.record_stable (fun _ => rfl) ?_
  apply Fields.cons_stable_required Codec.string_stable
  apply Fields.cons_stable (fun n _ => Codec.boundedInt_keeps n) Codec.boundedInt_stable
  apply Fields.cons_stable (fun n _ => Codec.boundedInt_keeps n) Codec.boundedInt_stable
  refine Fields.cons_stable ?_ ?_ Fields.nil_stable
  · rintro _ ⟨⟩
    rfl
  · exact Codec.option_stable statsCodec_stable fun _ _ => Codec.record_encode_ne_null

theorem datasetCodec_stable : datasetCodec.Stable := by
  refine Codec.record_stable (fun _ => rfl) ?_
  apply Fields.cons_stable_required Codec.string_stable
  refine Fields.cons_stable ?_ (Codec.list_stable Codec.string_stable) ?_
  · rintro _ ⟨⟩
    rfl
  · refine Fields.cons_stable ?_ (Codec.list_stable shardCodec_stable) Fields.nil_stable
    rintro _ ⟨⟩
    rfl

theorem catalogCodec_stable : catalogCodec.Stable := by
  refine Codec.record_stable (fun _ => rfl) ?_
  apply Fields.cons_stable (fun n _ => Codec.boundedInt_keeps n) Codec.boundedInt_stable
  refine Fields.cons_stable ?_ (Codec.map_stable datasetCodec_stable) Fields.nil_stable
  rintro _ ⟨⟩
  rfl

end Stable

section Load

variable {json : JsonText} {file : FileRead} {c : Catalog}

/-- A loaded catalog is of the current version and can be written. -/
theorem load_keeps (h : Catalog.load json file = .ok c) :
    c.stamped = c ∧ catalogCodec.Keeps c := by
  have hmigrate : ∀ c' : Catalog, catalogCodec.Keeps c' → c'.migrate = .ok c →
      c.stamped = c ∧ catalogCodec.Keeps c := by
    intro c' hc' hc
    rw [Catalog.migrate] at hc
    split at hc
    · cases hc
    · cases hc
      refine ⟨rfl, ?_⟩
      rw [catalogCodec_keeps_iff] at hc' ⊢
      exact hc'
  cases file with
  | bytes contents =>
      rw [Catalog.load] at h
      split at h
      · rename_i c' hread
        obtain ⟨d, _, hd⟩ := Option.bind_eq_some_iff.mp hread
        exact hmigrate c' (catalogCodec_stable d c' hd) h
      · cases h
  | notFound =>
      cases h
      refine ⟨rfl, catalogCodec_keeps_iff.mpr ?_⟩
      intro name d hd
      simp [Catalog.new] at hd
  | failed => cases h

/-- A catalog that can be written is loaded as it was saved. -/
theorem load_saved (hkeeps : catalogCodec.Keeps c.stamped)
    (hcarries : json.Carries json.printPretty (catalogCodec.encode c.stamped)) :
    Catalog.load json (.bytes (c.saved json)) = .ok c.stamped := by
  have hshallow : (catalogCodec.encode c.stamped).depth ≤ maxDepth :=
    Nat.le_trans (catalogCodec_depth c.stamped) (by decide)
  rw [Catalog.saved, load_toUTF8, hcarries.parse_print hshallow, Option.bind_some, hkeeps]
  rfl

/-- Saving what was loaded changes nothing for the next who loads it. -/
theorem load_saved_of_load (h : Catalog.load json file = .ok c)
    (hcarries : json.Carries json.printPretty (catalogCodec.encode c)) :
    Catalog.load json (.bytes (c.saved json)) = .ok c := by
  obtain ⟨hstamped, hkeeps⟩ := load_keeps h
  have hload : Catalog.load json (.bytes (c.saved json)) = .ok c.stamped :=
    load_saved (hstamped.symm ▸ hkeeps) (hstamped.symm ▸ hcarries)
  rwa [hstamped] at hload

end Load

/-- A dataset with one shard, whose rows have the number one in a column. -/
private def soldDataset : Dataset where
  name := "a"
  schema := []
  shards :=
    [{ cid := "s0"
       rows := U64.wrap 2
       bytes := U64.zero
       stats := some { numeric := Std.ExtTreeMap.ofList [("v", (.ofInt 1, .ofInt 1))] compare } }]

private def sold : Catalog :=
  Catalog.new.put soldDataset

private def soldText : String :=
  "\x7b\n  \"version\": 1,\n  \"datasets\": \x7b\n    \"a\": \x7b\n      \"name\": \"a\",\n" ++
    "      \"schema\": [],\n      \"shards\": [\n        \x7b\n          \"cid\": \"s0\",\n" ++
    "          \"rows\": 2,\n          \"bytes\": 0,\n          \"stats\": \x7b\n" ++
    "            \"numeric\": \x7b\n              \"v\": [\n                1.0,\n" ++
    "                1.0\n              ]\n            \x7d\n          \x7d\n        \x7d\n" ++
    "      ]\n    \x7d\n  \x7d\n\x7d"

/-- The catalog as somebody may have written it. -/
private def handText : String :=
  "\x7b\"datasets\":\x7b\"a\":\x7b\"shards\":[" ++
    "\x7b\"stats\":\x7b\"numeric\":\x7b\"v\":[1,1.0]\x7d\x7d," ++
    "\"rows\":2,\"cid\":\"s0\"\x7d],\"name\":\"a\"\x7d\x7d\x7d"

private def handDocument : Document :=
  .object [("datasets", .object [("a", .object
    [("shards", .array [.object
      [("stats", .object [("numeric", .object [("v", .array [.int 1, .float .one])])]),
        ("rows", .int 2), ("cid", .string "s0")]]),
      ("name", .string "a")])])]

private def soldTexts : JsonText where
  print _ := ""
  printPretty _ := soldText
  parse text := if text = handText then some handDocument else some (catalogCodec.encode sold)

/-- A file without a version, without some fields and with others in another order is
saved as it has to be, and loaded as before. -/
theorem load_saved_of_load_handwritten :
    Catalog.load soldTexts (.bytes handText.toUTF8) = .ok sold ∧
      Catalog.load soldTexts (.bytes (sold.saved soldTexts)) = .ok sold := by
  have hload : Catalog.load soldTexts (.bytes handText.toUTF8) = .ok sold := by
    rw [load_toUTF8]
    rfl
  have hcarries : soldTexts.Carries soldTexts.printPretty (catalogCodec.encode sold) :=
    JsonText.carries_of_depth (Nat.le_trans (catalogCodec_depth sold) (by decide)) rfl
  exact ⟨hload, load_saved_of_load hload hcarries⟩

/-! ## Updates of a catalog -/

namespace Mutate

section Atomic

variable {T : Type} {json : JsonText} {c₀ : Catalog} {notes : List (Note T)}

/-- The updates, applied one after the other, lead from one catalog to another. -/
inductive Applied (c₀ : Catalog) : List (Commit T) → Catalog → Prop where
  | nil : Applied c₀ [] c₀
  | snoc {order : List (Commit T)} {commit : Commit T} {c c' : Catalog}
      (before : Applied c₀ order c) (updates : commit.update c = .ok (c', commit.out)) :
      Applied c₀ (order ++ [commit]) c'.stamped

/-- A catalog that the updates of a run can lead to. -/
inductive Reached (notes : List (Note T)) (c₀ : Catalog) : Catalog → Prop where
  | start : Reached notes c₀ c₀
  | step {call : Call} {update : Update T} {c c' : Catalog} {out : T} (before : Reached notes c₀ c)
      (began : .began call update ∈ notes) (updates : update c = .ok (c', out)) :
      Reached notes c₀ c'.stamped

/-- An update makes catalogs that can be written of catalogs that can be written. -/
def Update.Safe (update : Update T) : Prop :=
  ∀ c c' out, catalogCodec.Keeps c → update c = .ok (c', out) → catalogCodec.Keeps c'.stamped

/-- Calls that lead from file to file lead from catalog to catalog. -/
theorem Serial.applied {file₀ file : Option ByteArray} {order : List (Commit T)}
    (hstart : Catalog.load json (readFile file₀) = .ok c₀)
    (hcarries : ∀ c, Reached notes c₀ c → json.Carries json.printPretty (catalogCodec.encode c))
    (hsafe : ∀ call update, .began call update ∈ notes → update.Safe)
    (hbegan : ∀ commit ∈ order, .began commit.call commit.update ∈ notes)
    (h : Serial json file₀ order file) :
    ∃ c, Applied c₀ order c ∧ Reached notes c₀ c ∧ Catalog.load json (readFile file) = .ok c := by
  induction h with
  | nil => exact ⟨c₀, .nil, .start, hstart⟩
  | @snoc order file commit c c' _ loads updates ih =>
      obtain ⟨_, happlied, hreached, hload⟩ := ih fun commit' hmem =>
        hbegan commit' (List.mem_append_left _ hmem)
      rw [loads] at hload
      cases hload
      have hlast := hbegan commit (by simp)
      have hreached' : Reached notes c₀ c'.stamped := .step hreached hlast updates
      have hkeeps' := hsafe _ _ hlast c c' commit.out (load_keeps loads).2 updates
      exact ⟨c'.stamped, .snoc happlied updates, hreached',
        load_saved hkeeps' (hcarries _ hreached')⟩

/-- While no lock file of a holder is removed as stale, the commits are in one order. -/
theorem exists_order {w₀ w : World T} {events : List (Event T)} (hquiet : w₀.Quiet)
    (hlock : (machine json).Throughout (fun w e => ¬ReclaimsLive w e) w₀ events)
    (hrun : (machine json).run w₀ events = some (w, notes)) :
    ∃ order, Inv json w₀.file w notes order := by
  have hstep : ∀ (w : World T) (seen : List (Note T)) (e : Event T) (w' : World T)
      (out : List (Note T)), (∃ order, Inv json w₀.file w seen order) → ¬ReclaimsLive w e →
      (machine json).next w e = some (w', out) →
      ∃ order, Inv json w₀.file w' (seen ++ out) order := by
    rintro w seen e w' out ⟨order, h⟩ hlive hnext
    exact h.keeps_next hlive w' out hnext
  exact Machine.run_invariant hstep ⟨[], hquiet.inv⟩ hlock hrun

/-- If no lock file of a holder is removed as stale and the updates leave catalogs that
can be written, the file is at every moment loaded as the catalog to which the
committed updates, one after the other, lead from the first one. -/
theorem mutate_atomic {w₀ w : World T} {events : List (Event T)} (hquiet : w₀.Quiet)
    (hstart : Catalog.load json (readFile w₀.file) = .ok c₀)
    (hlock : (machine json).Throughout (fun w e => ¬ReclaimsLive w e) w₀ events)
    (hrun : (machine json).run w₀ events = some (w, notes))
    (hsafe : ∀ call update, .began call update ∈ notes → update.Safe)
    (hcarries : ∀ c, Reached notes c₀ c →
      json.Carries json.printPretty (catalogCodec.encode c)) :
    ∃ order c, Applied c₀ order c ∧ Catalog.load json (readFile w.file) = .ok c ∧
      (order.map Commit.call).Nodup ∧
      (∀ commit ∈ order, .began commit.call commit.update ∈ notes) ∧
      (∀ call out, .returned call (.ok out) ∈ notes →
        ∃ commit ∈ order, commit.call = call ∧ commit.out = out) ∧
      ∀ call e, .returned call (.error e) ∈ notes → ∀ commit ∈ order, commit.call ≠ call := by
  obtain ⟨order, h⟩ := exists_order hquiet hlock hrun
  obtain ⟨c, happlied, _, hload⟩ := h.serial.applied hstart hcarries hsafe h.began
  exact ⟨order, c, happlied, hload, h.distinct, h.began, h.returned, h.failed⟩

end Atomic

/-! ## The commands of an owner -/

/-- Put a dataset. -/
def putUpdate (d : Dataset) : Update Unit :=
  fun c => .ok (c.put d, ())

/-- Remove a dataset. -/
def removeUpdate (name : String) : Update Unit :=
  fun c => (c.remove name).map fun removed => (removed.2, ())

theorem putUpdate_safe {d : Dataset} (h : datasetCodec.Keeps d) : (putUpdate d).Safe := by
  rintro c _ _ hkeeps ⟨⟩
  rw [catalogCodec_keeps_iff] at hkeeps ⊢
  intro name d' hd'
  change (c.datasets.insert d.name d)[name]? = some d' at hd'
  rw [Std.ExtTreeMap.getElem?_insert] at hd'
  split at hd'
  · cases hd'
    exact h
  · exact hkeeps name d' hd'

theorem removeUpdate_safe (name : String) : (removeUpdate name).Safe := by
  intro c c' out hkeeps h
  rw [removeUpdate, Catalog.remove] at h
  split at h
  · cases h
    rw [catalogCodec_keeps_iff] at hkeeps ⊢
    intro name' d' hd'
    change (c.datasets.erase name)[name']? = some d' at hd'
    rw [Std.ExtTreeMap.getElem?_erase] at hd'
    split at hd'
    · cases hd'
    · exact hkeeps name' d' hd'
  · cases h

private def noShards : Dataset where
  name := "a"
  schema := []
  shards := []

private def holding : Catalog :=
  Catalog.new.put noShards

private def emptyText : String :=
  "\x7b\n  \"version\": 1,\n  \"datasets\": \x7b\x7d\n\x7d"

private def holdingText : String :=
  "\x7b\n  \"version\": 1,\n  \"datasets\": \x7b\n    \"a\": \x7b\n      \"name\": \"a\",\n" ++
    "      \"schema\": [],\n      \"shards\": []\n    \x7d\n  \x7d\n\x7d"

/-- Texts of the catalogs with and without that dataset, and of a file without a version. -/
private def twoCatalogs : JsonText where
  print _ := ""
  printPretty
    | .object [_, (_, .object [])] => emptyText
    | _ => holdingText
  parse text :=
    if text = emptyText then some (catalogCodec.encode .new)
    else if text = "\x7b\x7d" then some (.object [])
    else some (catalogCodec.encode holding)

private theorem twoCatalogs_carries {c : Catalog} (h : c = .new ∨ c = holding) :
    twoCatalogs.Carries twoCatalogs.printPretty (catalogCodec.encode c) := by
  apply JsonText.carries_of_depth (Nat.le_trans (catalogCodec_depth c) (by decide))
  obtain rfl | rfl := h <;> rfl

/-- Nobody is in a call, and the file is an empty catalog without a version. -/
private def restful : World Unit where
  now := 0
  lock := none
  file := some "\x7b\x7d".toUTF8
  temp _ := none
  procs _ := { phase := .idle, calls := 0, update := putUpdate noShards }

/-- One process puts a dataset, and another that waits for the lock removes it. -/
private def twoCommands : List (Event Unit) :=
  [.begin 0 (putUpdate noShards), .begin 1 (removeUpdate "a"), .step 0 .ok] ++
    List.replicate 3 (.step 1 .ok) ++ List.replicate 9 (.step 0 .ok) ++
    List.replicate 10 (.step 1 .ok)

private def twoNotes : List (Note Unit) :=
  [.began (0, 1) (putUpdate noShards), .began (1, 1) (removeUpdate "a"), .committed (0, 1) (),
    .returned (0, 1) (.ok ()), .committed (1, 1) (), .returned (1, 1) (.ok ())]

private theorem twoNotes_began {call : Call} {update : Update Unit}
    (h : .began call update ∈ twoNotes) :
    update = putUpdate noShards ∨ update = removeUpdate "a" := by
  simp only [twoNotes, List.mem_cons, Note.began.injEq, reduceCtorEq, List.not_mem_nil,
    or_false] at h
  exact h.imp And.right And.right

private theorem reached_twoNotes {c : Catalog} (h : Reached twoNotes Catalog.new c) :
    c = .new ∨ c = holding := by
  induction h with
  | start => exact .inl rfl
  | @step call update c c' out _ began updates ih =>
      obtain rfl | rfl := twoNotes_began began <;> obtain rfl | rfl := ih <;> cases updates
      · exact .inr rfl
      · exact .inr rfl
      · exact .inl rfl

set_option maxRecDepth 4000 in
/-- Both commands succeed, and the file is loaded as the catalog that they lead to. -/
theorem mutate_atomic_two_processes : ∃ w notes c, ∃ order : List (Commit Unit),
    (machine twoCatalogs).run restful twoCommands = some (w, notes) ∧
      .returned (0, 1) (.ok ()) ∈ notes ∧ .returned (1, 1) (.ok ()) ∈ notes ∧
      Applied .new order c ∧ Catalog.load twoCatalogs (readFile w.file) = .ok c ∧
      ∀ call out, .returned call (.ok out) ∈ notes →
        ∃ commit ∈ order, commit.call = call ∧ commit.out = out := by
  have hrun : (machine twoCatalogs).run restful twoCommands = some (_, twoNotes) := rfl
  have hlock : (machine twoCatalogs).Throughout (fun w e => ¬ReclaimsLive w e) restful
      twoCommands := by
    iterate 2
      refine .cons nofun rfl ?_
    iterate 23
      refine .cons ?_ rfl ?_
      · rintro ⟨⟨started, h⟩, _⟩
        cases h
    trivial
  have hsafe : ∀ call update, .began call update ∈ twoNotes → update.Safe := by
    intro call update hbegan
    obtain rfl | rfl := twoNotes_began hbegan
    · exact putUpdate_safe rfl
    · exact removeUpdate_safe "a"
  have hstart : Catalog.load twoCatalogs (readFile restful.file) = .ok .new := by
    change Catalog.load twoCatalogs (.bytes "\x7b\x7d".toUTF8) = _
    rw [load_toUTF8]
    rfl
  obtain ⟨order, c, happlied, hload, _, _, hreturned, _⟩ :=
    mutate_atomic (fun _ => rfl) hstart hlock hrun hsafe
      fun c hc => twoCatalogs_carries (reached_twoNotes hc)
  exact ⟨_, _, c, order, hrun, by simp [twoNotes], by simp [twoNotes], happlied, hload, hreturned⟩

end Mutate

end CeQuery
