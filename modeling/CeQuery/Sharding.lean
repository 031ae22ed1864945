import CeQuery.Foundation.RoundRobin
import CeQuery.Shards
import Mathlib.Logic.Relation

/-!
# Sharding loses nothing

What a shard decodes to depends on the contents of its lines alone (`decodeLines_eq`),
and it decodes to rows only if each of these is an object. A row is printed as one
line, so the encoding of rows is decoded to these rows, and encodings can be put one
behind the other. Dealing the rows out to shards is undone by reading the shards in
turn (`Lossless`).
-/

namespace CeQuery

/-- The text is the JSON object of the row. -/
def JsonText.Reads (json : JsonText) (text : List Char) (row : Row) : Prop :=
  ∃ members, (json.parse (String.ofList text)).bind Value.ofDocument = some (.object members) ∧
    row = Std.ExtTreeMap.ofList members compare

/-- The row is printed as one line between braces, and the line is read back as the
row. -/
structure JsonText.PrintsLine (json : JsonText) (row : Row) : Prop where
  braces : ∃ members : List Char,
    (json.print (rowCodec.encode row)).toList = '\x7b' :: (members ++ ['\x7d'])
  one : ∀ c ∈ (json.print (rowCodec.encode row)).toList, c ≠ '\n' ∧ c ≠ '\r'
  back : json.Reads (json.print (rowCodec.encode row)).toList row

section Decode

variable {json : JsonText} {line line' : Nat} {text : List Char} {texts : List (List Char)}
  {rows : List Row} {bytes : ByteArray}

/-- The trimmed texts that are not blank. -/
def nonblank (texts : List (List Char)) : List (List Char) :=
  (texts.map Text.trim).filter fun text => text ≠ []

theorem nonblank_cons_blank (h : Text.trim text = []) :
    nonblank (text :: texts) = nonblank texts := by
  rw [nonblank, List.map_cons, List.filter_cons_of_neg (by simp [h]), nonblank]

theorem nonblank_cons (h : Text.trim text ≠ []) :
    nonblank (text :: texts) = Text.trim text :: nonblank texts := by
  rw [nonblank, List.map_cons, List.filter_cons_of_pos (by simpa using h), nonblank]

/-- Decoding reads the trimmed texts that are not blank, whatever their numbers. -/
theorem decodeLines_nonblank : (decodeLines json line texts).mapError DecodeError.unnumbered =
    (decodeLines json line' (nonblank texts)).mapError DecodeError.unnumbered := by
  induction texts generalizing line line' with
  | nil => rfl
  | cons text texts ih =>
      rw [decodeLines]
      by_cases hblank : Text.trim text = []
      · rw [if_pos hblank, nonblank_cons_blank hblank]
        exact ih
      · rw [if_neg hblank, nonblank_cons hblank, decodeLines, Text.trim_trim, if_neg hblank]
        cases (json.parse (String.ofList (Text.trim text))).bind Value.ofDocument with
        | none => rfl
        | some v =>
            cases v with
            | object members =>
                have hrest := @ih (line + 1) (line' + 1)
                dsimp only
                cases hone : decodeLines json (line + 1) texts <;>
                  cases hother : decodeLines json (line' + 1) (nonblank texts) <;>
                    rw [hone, hother] at hrest
                · exact hrest
                · cases hrest
                · cases hrest
                · cases hrest
                  rfl
            | _ => rfl

/-- Decoded rows are the objects in the texts, one after the other. -/
theorem decodeLines_eq_ok_iff : decodeLines json line texts = .ok rows ↔
    List.Forall₂ json.Reads (nonblank texts) rows := by
  induction texts generalizing line rows with
  | nil =>
      rw [decodeLines]
      constructor
      · intro h
        cases h
        exact .nil
      · intro h
        cases h
        rfl
  | cons text texts ih =>
      rw [decodeLines]
      by_cases hblank : Text.trim text = []
      · rw [if_pos hblank, nonblank_cons_blank hblank]
        exact ih
      · rw [if_neg hblank, nonblank_cons hblank]
        constructor
        · intro h
          split at h
          · cases h
          · rename_i members hread
            cases hrest : decodeLines json (line + 1) texts with
            | error e =>
                rw [hrest] at h
                cases h
            | ok more =>
                rw [hrest] at h
                cases h
                exact .cons ⟨members, hread, rfl⟩ (ih.mp hrest)
          · cases h
        · intro h
          cases h with
          | cons hrow hrest =>
              obtain ⟨members, hread, rfl⟩ := hrow
              rw [hread]
              dsimp only
              rw [ih.mpr hrest]
              rfl

theorem decodeShard_eq_ok_iff {text : String} : decodeShard json text.toUTF8 = .ok rows ↔
    List.Forall₂ json.Reads (Text.contents text.toList) rows := by
  rw [decodeShard_toUTF8]
  exact decodeLines_eq_ok_iff

/-- What was decoded is the objects in the lines of a text. -/
theorem decodeShard_reads (h : decodeShard json bytes = .ok rows) : ∃ text : String,
    bytes = text.toUTF8 ∧ List.Forall₂ json.Reads (Text.contents text.toList) rows := by
  rw [decodeShard] at h
  cases htext : String.fromUTF8? bytes with
  | none =>
      rw [htext] at h
      cases h
  | some text =>
      rw [htext] at h
      rw [String.fromUTF8?] at htext
      split at htext
      · cases htext
        exact ⟨_, rfl, decodeLines_eq_ok_iff.mp h⟩
      · cases htext

/-- Each of the texts is read as some row. -/
theorem exists_reads (h : List.Forall₂ json.Reads texts rows) (hmem : text ∈ texts) :
    ∃ row, json.Reads text row := by
  induction h with
  | nil => cases hmem
  | cons hrow _ ih =>
      rcases List.mem_cons.mp hmem with rfl | hmem
      · exact ⟨_, hrow⟩
      · exact ih hmem

theorem contents_of_reflow {cs ds : List Char} (h : Relation.ReflTransGen Text.Reflow cs ds) :
    Text.contents ds = Text.contents cs := by
  induction h with
  | refl => rfl
  | tail _ hstep ih => rw [hstep.contents, ih]

/-- Changing a text without changing its contents changes no more than the number of the
line in an error. -/
theorem decodeShard_reflow {text text' : String}
    (h : Relation.ReflTransGen Text.Reflow text.toList text'.toList) :
    (decodeShard json text'.toUTF8).mapError DecodeError.unnumbered =
      (decodeShard json text.toUTF8).mapError DecodeError.unnumbered := by
  have hcontents : nonblank (Text.lines text'.toList) = nonblank (Text.lines text.toList) :=
    contents_of_reflow h
  rw [decodeShard_toUTF8, decodeShard_toUTF8, @decodeLines_nonblank json 1 1,
    @decodeLines_nonblank json 1 1 (Text.lines text.toList), hcontents]

end Decode

section Encode

variable {json : JsonText} {row : Row} {rows xs ys : List Row}

/-- The text of encoded rows. -/
def shardText (json : JsonText) (rows : List Row) : List Char :=
  rows.flatMap fun row => (json.print (rowCodec.encode row)).toList ++ ['\n']

theorem encodeShard_append :
    encodeShard json (xs ++ ys) = encodeShard json xs ++ encodeShard json ys := by
  rw [encodeShard, List.flatMap_append, String.ofList_append]
  exact String.toByteArray_append

/-- A printed row has no whitespace at its ends. -/
theorem trim_print (h : json.PrintsLine row) :
    Text.trim (json.print (rowCodec.encode row)).toList =
      (json.print (rowCodec.encode row)).toList := by
  obtain ⟨members, hmembers⟩ := h.braces
  rw [hmembers]
  apply Text.trim_eq_self
  · intro c hc
    cases hc
    decide
  · intro c hc
    rw [← List.cons_append, List.getLast?_concat] at hc
    cases hc
    decide

/-- The contents of encoded rows are the printed rows. -/
theorem contents_shardText (h : ∀ row ∈ rows, json.PrintsLine row) :
    Text.contents (shardText json rows) =
      rows.map fun row => (json.print (rowCodec.encode row)).toList := by
  induction rows with
  | nil => rfl
  | cons row rows ih =>
      rw [List.forall_mem_cons] at h
      have hone : '\n' ∉ (json.print (rowCodec.encode row)).toList :=
        fun hmem => (h.1.one '\n' hmem).1 rfl
      have hsome : Text.trim (json.print (rowCodec.encode row)).toList ≠ [] := by
        obtain ⟨members, hmembers⟩ := h.1.braces
        rw [trim_print h.1, hmembers]
        exact List.cons_ne_nil _ _
      rw [shardText, List.flatMap_cons, ← shardText, ← List.append_cons, Text.contents_ended hone,
        if_neg hsome, trim_print h.1, ih h.2, List.map_cons]
      rfl

/-- Encoded rows are decoded to these rows. -/
theorem decodeShard_encodeShard (h : ∀ row ∈ rows, json.PrintsLine row) :
    decodeShard json (encodeShard json rows) = .ok rows := by
  rw [encodeShard, decodeShard_eq_ok_iff, String.toList_ofList]
  change List.Forall₂ json.Reads (Text.contents (shardText json rows)) rows
  rw [contents_shardText h, List.forall₂_map_left_iff, List.forall₂_same]
  exact fun row hrow => (h row hrow).back

end Encode

section Deal

variable {json : JsonText} {rows : List Row} {n : Nat}

/-- The shards are the buckets of the rows, each with its encoding. -/
theorem shardRows_eq (hn : 1 ≤ n) : shardRows json rows n =
    .ok ((deal n rows).map fun bucket => (bucket, encodeShard json bucket)) := by
  rw [shardRows, if_neg (by omega)]
  rfl

theorem getElem?_shards {j : Nat} (hj : j < n) :
    ((deal n rows).map fun bucket => (bucket, encodeShard json bucket))[j]? =
      some (dealt n j 0 rows, encodeShard json (dealt n j 0 rows)) := by
  rw [List.getElem?_map, getElem?_deal hj]
  rfl

/-- Each shard is decoded to its bucket. -/
theorem decodeShard_dealt {j : Nat} (hjson : ∀ row ∈ rows, json.PrintsLine row) :
    decodeShard json (encodeShard json (dealt n j 0 rows)) = .ok (dealt n j 0 rows) :=
  decodeShard_encodeShard fun row hrow => hjson row (dealt_sublist.subset hrow)

theorem exists_dealt_of_mem_deal {bucket : List Row} (h : bucket ∈ deal n rows) :
    ∃ j, j < n ∧ bucket = dealt n j 0 rows := by
  obtain ⟨j, hj, hbucket⟩ := List.mem_iff_getElem.mp h
  rw [length_deal] at hj
  refine ⟨j, hj, ?_⟩
  have hget : (deal n rows)[j]? = some (dealt n j 0 rows) := getElem?_deal hj
  rw [← hbucket, ← Option.some.injEq, ← hget, List.getElem?_eq_getElem]

end Deal

/-- What the shards are, and what can be read back from them. -/
structure Shards.Lossless (json : JsonText) (rows : List Row) (n : Nat)
    (shards : List (List Row × ByteArray)) : Prop where
  count : shards.length = n
  balanced : ∀ a ∈ shards, ∀ b ∈ shards, a.1.length ≤ b.1.length + 1
  /-- A shard is decoded to the rows at the positions congruent to its number. -/
  decoded : ∀ j, j < n → ∃ bytes, shards[j]? = some (dealt n j 0 rows, bytes) ∧
    decodeShard json bytes = .ok (dealt n j 0 rows)
  /-- Reading the decoded shards in turn gives the rows back. -/
  rebuilt : ∃ parts : List (List Row),
    shards.map (fun shard => decodeShard json shard.2) = parts.map .ok ∧
      ∀ i, rows[i]? = parts[i % n]?.bind fun part => part[i / n]?

/-- What the encoding of rows and the decoding of shards keep. -/
structure Lossless (json : JsonText) (rows : List Row) (n : Nat) : Prop where
  shards : ∃ shards, shardRows json rows n = .ok shards ∧ Shards.Lossless json rows n shards
  append : ∀ xs ys : List Row, (∀ row ∈ xs ++ ys, json.PrintsLine row) →
    decodeShard json (encodeShard json xs ++ encodeShard json ys) = .ok (xs ++ ys)
  /-- Blank lines and carriage returns at the line ends change nothing; only the line
  named in an error is counted with the blank ones. -/
  reflow : ∀ text text' : String, Relation.ReflTransGen Text.Reflow text.toList text'.toList →
    (decodeShard json text'.toUTF8).mapError DecodeError.unnumbered =
      (decodeShard json text.toUTF8).mapError DecodeError.unnumbered
  /-- A line that is neither blank nor an object is an error. -/
  strict : ∀ (text : String), ∀ line ∈ Text.lines text.toList, Text.trim line ≠ [] →
    (∀ row, ¬json.Reads (Text.trim line) row) → ∃ e, decodeShard json text.toUTF8 = .error e
  /-- Decoded rows are all the objects of the text. -/
  complete : ∀ (bytes : ByteArray) (rows' : List Row), decodeShard json bytes = .ok rows' →
    ∃ text : String, bytes = text.toUTF8 ∧
      List.Forall₂ json.Reads (Text.contents text.toList) rows'

section Lossless

variable {json : JsonText} {rows : List Row} {n : Nat}

theorem shards_lossless (hn : 1 ≤ n) (hjson : ∀ row ∈ rows, json.PrintsLine row) :
    Shards.Lossless json rows n
      ((deal n rows).map fun bucket => (bucket, encodeShard json bucket)) where
  count := by rw [List.length_map, length_deal]
  balanced a ha b hb := by
    obtain ⟨bucket, hbucket, rfl⟩ := List.mem_map.mp ha
    obtain ⟨bucket', hbucket', rfl⟩ := List.mem_map.mp hb
    obtain ⟨j, hj, rfl⟩ := exists_dealt_of_mem_deal hbucket
    obtain ⟨j', hj', rfl⟩ := exists_dealt_of_mem_deal hbucket'
    exact length_dealt_le hj hj'
  decoded j hj := ⟨_, getElem?_shards hj, decodeShard_dealt hjson⟩
  rebuilt := by
    refine ⟨deal n rows, ?_, fun i => getElem?_eq_bind_deal hn i⟩
    rw [List.map_map]
    apply List.map_congr_left
    intro bucket hbucket
    obtain ⟨j, hj, rfl⟩ := exists_dealt_of_mem_deal hbucket
    exact decodeShard_dealt hjson

/-- A line that no row can be read from is not skipped. -/
theorem decodeShard_strict {text : String} {line : List Char}
    (hline : line ∈ Text.lines text.toList) (hsome : Text.trim line ≠ [])
    (hbad : ∀ row, ¬json.Reads (Text.trim line) row) :
    ∃ e, decodeShard json text.toUTF8 = .error e := by
  cases hdecode : decodeShard json text.toUTF8 with
  | error e => exact ⟨e, rfl⟩
  | ok rows =>
      have hcontent : Text.trim line ∈ Text.contents text.toList :=
        List.mem_filter.mpr ⟨List.mem_map_of_mem hline, by simpa using hsome⟩
      obtain ⟨row, hrow⟩ := exists_reads (decodeShard_eq_ok_iff.mp hdecode) hcontent
      exact absurd hrow (hbad row)

end Lossless

/-- Sharding and the encoding of shards lose nothing. -/
theorem sharding_lossless (json : JsonText) (rows : List Row) (n : Nat) (hn : 1 ≤ n)
    (hjson : ∀ row ∈ rows, json.PrintsLine row) : Lossless json rows n where
  shards := ⟨_, shardRows_eq hn, shards_lossless hn hjson⟩
  append xs ys hxys := by
    rw [← encodeShard_append]
    exact decodeShard_encodeShard hxys
  reflow _ _ := decodeShard_reflow
  strict _ _ := decodeShard_strict
  complete _ _ := decodeShard_reads

private def digitLine (n : Nat) : String :=
  .ofList ['\x7b', '"', 'v', '"', ':', n.digitChar, '\x7d']

/-- Texts of JSON that hold rows with one digit. -/
private def digitText : JsonText where
  print
    | .object [("v", .int n)] => digitLine n.toNat
    | _ => ""
  printPretty _ := ""
  parse text :=
    ([1, 2, 3, 4, 5].find? fun n => text = digitLine n).map fun n => .object [("v", .int n)]

private def digitRow (n : Nat) : Row :=
  Std.ExtTreeMap.ofList [("v", .ofU64 (U64.wrap n))] compare

private theorem digitText_prints : ∀ n ∈ [1, 2, 3, 4, 5], digitText.PrintsLine (digitRow n) := by
  simp only [List.forall_mem_cons]
  refine ⟨?_, ?_, ?_, ?_, ?_, fun _ hmem => absurd hmem List.not_mem_nil⟩
  all_goals exact
    { braces := ⟨['"', 'v', '"', ':', _], rfl⟩
      one := by decide
      back := ⟨_, rfl, rfl⟩ }

/-- Five rows are dealt to two shards. -/
theorem sharding_lossless_five_rows :
    Lossless digitText ([1, 2, 3, 4, 5].map digitRow) 2 ∧
      deal 2 ([1, 2, 3, 4, 5].map digitRow) = [[1, 3, 5].map digitRow, [2, 4].map digitRow] := by
  refine ⟨sharding_lossless digitText ([1, 2, 3, 4, 5].map digitRow) 2 (by decide) ?_, rfl⟩
  intro row hrow
  obtain ⟨n, hn, rfl⟩ := List.mem_map.mp hrow
  exact digitText_prints n hn

end CeQuery
