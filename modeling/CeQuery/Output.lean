import CeQuery.Answers

/-!
# Printed groups

A group is printed as an object of its columns and its values, and a value replaces a
column of its name. Nothing checks that their names differ. Among all groups that fit the
query the object tells the group exactly if they do (`printing_faithful_iff`).
-/

namespace CeQuery

/-- A group of the query: a text for each name of a column, and a value for each
aggregate. -/
structure GroupResult.Fits (q : Query) (g : GroupResult) : Prop where
  texts : ∃ text : String → String, g.key = q.groupBy.map text
  values : ∀ name : String, name ∈ g.values ↔ ∃ agg ∈ q.aggregates, agg.outputName = name

/-! ## Members -/

section Members

variable {groupBy : List String} {g : GroupResult}

/-- Under a name stands the value of this name, or the text of the last column of it. -/
theorem getElem?_groupMembers (groupBy : List String) (g : GroupResult) (name : String) :
    (groupMembers groupBy g)[name]? = g.values[name]?.or
      ((groupBy.zipIdx.filter fun column => column.1 = name).getLast?.map fun column =>
        .string (g.key[column.2]?.getD "")) := by
  rw [groupMembers]
  generalize hcolumns : groupBy.zipIdx.foldl (fun (members : BTreeMap String Value) column =>
    members.insert column.1 (.string (g.key[column.2]?.getD ""))) ∅ = columns
  have hread : columns[name]? =
      ((groupBy.zipIdx.filter fun column => column.1 = name).getLast?.map fun column =>
        .string (g.key[column.2]?.getD "")) := by
    rw [← hcolumns, BTreeMap.getElem?_foldl_insert, Std.ExtTreeMap.getElem?_empty, Option.or_none]
  rw [← hread]
  cases hvalue : g.values[name]? with
  | none =>
      refine BTreeMap.foldl_miss (P := fun members : BTreeMap String Value =>
        members[name]? = columns[name]?) hvalue ?_ rfl
      intro members name' v hne hmembers
      rw [Std.ExtTreeMap.getElem?_insert, if_neg, hmembers]
      exact fun heq => hne (Std.LawfulEqOrd.eq_of_compare heq)
  | some v =>
      refine BTreeMap.foldl_hit (P := fun _ : BTreeMap String Value => True)
        (Q := fun members : BTreeMap String Value => members[name]? = some v) hvalue
        (fun _ _ _ _ _ => trivial) ?_ ?_ trivial
      · exact fun members _ => Std.ExtTreeMap.getElem?_insert_self
      · intro members name' v' hne hmembers
        rw [Std.ExtTreeMap.getElem?_insert, if_neg, hmembers]
        exact fun heq => hne (Std.LawfulEqOrd.eq_of_compare heq)

theorem groupObject_inj {g' : GroupResult} :
    groupObject groupBy g = groupObject groupBy g' ↔
      groupMembers groupBy g = groupMembers groupBy g' := by
  constructor
  · intro h
    have hlists : (groupMembers groupBy g).toList = (groupMembers groupBy g').toList :=
      Value.object.inj h
    rw [← BTreeMap.ofList_toList (groupMembers groupBy g), hlists, BTreeMap.ofList_toList]
  · intro h
    rw [groupObject, h, groupObject]

/-- Under the name of a column stands its text, if no value has this name. -/
theorem getElem?_groupMembers_column {text : String → String} (hkey : g.key = groupBy.map text)
    {c : String} (hc : c ∈ groupBy) (hvalue : g.values[c]? = none) :
    (groupMembers groupBy g)[c]? = some (.string (text c)) := by
  rw [getElem?_groupMembers, hvalue, Option.none_or]
  obtain ⟨i, hi, rfl⟩ := List.mem_iff_getElem.mp hc
  have hmem : (groupBy[i], i) ∈ groupBy.zipIdx.filter fun column => column.1 = groupBy[i] :=
    List.mem_filter.mpr ⟨List.mem_zipIdx_iff_getElem?.mpr (List.getElem?_eq_getElem hi), by simp⟩
  cases hlast : (groupBy.zipIdx.filter fun column => column.1 = groupBy[i]).getLast? with
  | none =>
      rw [List.getLast?_eq_none_iff.mp hlast] at hmem
      cases hmem
  | some column =>
      obtain ⟨hzip, hname⟩ := List.mem_filter.mp (List.mem_of_getLast? hlast)
      have hcolumn : groupBy[column.2]? = some groupBy[i] := by
        rw [List.mem_zipIdx_iff_getElem?.mp hzip]
        simpa using hname
      simp [hkey, hcolumn]

end Members

section Fits

variable {q : Query} {g g' : GroupResult}

theorem GroupResult.Fits.getElem?_eq_none (h : g.Fits q) {name : String}
    (hnone : ∀ agg ∈ q.aggregates, agg.outputName ≠ name) : g.values[name]? = none := by
  apply Std.ExtTreeMap.getElem?_eq_none
  rw [h.values]
  rintro ⟨agg, hagg, hname⟩
  exact hnone agg hagg hname

/-- If no value has the name of a column, a group can be read from its object. -/
theorem GroupResult.Fits.eq_of_object (h : g.Fits q) (h' : g'.Fits q)
    (hapart : ∀ agg ∈ q.aggregates, agg.outputName ∉ q.groupBy)
    (hobject : groupObject q.groupBy g = groupObject q.groupBy g') : g = g' := by
  have hmembers := groupObject_inj.mp hobject
  obtain ⟨text, htext⟩ := h.texts
  obtain ⟨text', htext'⟩ := h'.texts
  have hkey : g.key = g'.key := by
    rw [htext, htext']
    apply List.map_congr_left
    intro c hc
    have hfree : ∀ agg ∈ q.aggregates, agg.outputName ≠ c := by
      rintro agg hagg rfl
      exact hapart agg hagg hc
    have hcell := getElem?_groupMembers_column htext hc (h.getElem?_eq_none hfree)
    rw [hmembers, getElem?_groupMembers_column htext' hc (h'.getElem?_eq_none hfree)] at hcell
    exact (Value.string.inj (Option.some.inj hcell)).symm
  have hvalues : g.values = g'.values := by
    apply Std.ExtTreeMap.ext_getElem?
    intro name
    by_cases hname : ∃ agg ∈ q.aggregates, agg.outputName = name
    · obtain ⟨v, hv⟩ := Option.isSome_iff_exists.mp
        (Std.ExtTreeMap.mem_iff_isSome_getElem?.mp ((h.values name).mpr hname))
      obtain ⟨v', hv'⟩ := Option.isSome_iff_exists.mp
        (Std.ExtTreeMap.mem_iff_isSome_getElem?.mp ((h'.values name).mpr hname))
      have hmember := getElem?_groupMembers q.groupBy g name
      rw [hmembers, getElem?_groupMembers, hv, hv', Option.some_or, Option.some_or] at hmember
      rw [hv, hv', hmember]
    · have hnone : ∀ agg ∈ q.aggregates, agg.outputName ≠ name :=
        fun agg hagg heq => hname ⟨agg, hagg, heq⟩
      rw [h.getElem?_eq_none hnone, h'.getElem?_eq_none hnone]
  cases g
  cases g'
  cases hkey
  cases hvalues
  rfl

/-- The group with these texts and without values. -/
private def valueless (q : Query) (text : String → String) : GroupResult where
  key := q.groupBy.map text
  values := Std.ExtTreeMap.ofList (q.aggregates.map fun agg => (agg.outputName, .null)) compare

private theorem valueless_fits (q : Query) (text : String → String) :
    (valueless q text).Fits q where
  texts := ⟨text, rfl⟩
  values name := by
    simp [valueless, Std.ExtTreeMap.mem_ofList]

/-- If a value has the name of a column, what the column is does not show. -/
theorem exists_object_eq {agg : Agg} (hagg : agg ∈ q.aggregates)
    (hclash : agg.outputName ∈ q.groupBy) : ∃ g g' : GroupResult, g.Fits q ∧ g'.Fits q ∧
      groupObject q.groupBy g = groupObject q.groupBy g' ∧ g ≠ g' := by
  let text (c : String) : String := if c = agg.outputName then "x" else ""
  refine ⟨valueless q text, valueless q fun _ => "", valueless_fits q _, valueless_fits q _, ?_, ?_⟩
  · rw [groupObject_inj]
    apply Std.ExtTreeMap.ext_getElem?
    intro name
    rw [getElem?_groupMembers, getElem?_groupMembers]
    by_cases hname : name = agg.outputName
    · have hmem : name ∈ (valueless q text).values :=
        ((valueless_fits q text).values name).mpr ⟨agg, hagg, hname.symm⟩
      obtain ⟨v, hv⟩ := Option.isSome_iff_exists.mp (Std.ExtTreeMap.mem_iff_isSome_getElem?.mp hmem)
      have hv' : (valueless q fun _ => "").values[name]? = some v := hv
      rw [hv, hv', Option.some_or, Option.some_or]
    · refine congrArg (Option.or (valueless q text).values[name]?) ?_
      cases hlast : (q.groupBy.zipIdx.filter fun column => column.1 = name).getLast? with
      | none => rfl
      | some column =>
          obtain ⟨hzip, hcolumn⟩ := List.mem_filter.mp (List.mem_of_getLast? hlast)
          have hget : q.groupBy[column.2]? = some name := by
            rw [List.mem_zipIdx_iff_getElem?.mp hzip]
            simpa using hcolumn
          have htext : (valueless q text).key[column.2]? = some "" := by
            rw [valueless, List.getElem?_map, hget, Option.map_some]
            exact congrArg some (if_neg hname)
          have htext' : (valueless q fun _ => "").key[column.2]? = some "" := by
            rw [valueless, List.getElem?_map, hget, Option.map_some]
          rw [Option.map_some, Option.map_some, htext, htext']
  · intro heq
    have hkeys : q.groupBy.map text = q.groupBy.map fun _ => "" := congrArg GroupResult.key heq
    have htext : text agg.outputName = "" := List.map_inj_left.mp hkeys _ hclash
    simp [text] at htext

theorem shape_subperm (q : Query) (groups : List GroupResult) :
    (q.shape groups).Subperm groups := by
  have hperm : (orderRows groups q.groupBy q.orderBy).Perm groups := by
    rw [orderRows]
    split
    · exact .refl _
    · exact List.perm_insertionSort _ _
  unfold Query.shape applyLimit
  split
  · exact (List.take_sublist _ _).subperm.trans hperm.subperm
  · exact hperm.subperm

/-- The groups of a table are groups of the query, each with its own texts. -/
theorem Query.AggregatedAs.fits {serde : SerdeJson} {rows : List Row} {results : List GroupResult}
    (h : q.AggregatedAs serde rows results) :
    (results.map (·.key)).Nodup ∧ ∀ g ∈ results, g.Fits q := by
  obtain ⟨p, groups, hreference, hgroups, hlists, rfl⟩ := h
  constructor
  · obtain ⟨shaped, hperm, hsub⟩ := shape_subperm q groups
    exact (hperm.map _).nodup_iff.mp ((hsub.map _).nodup hlists.nodup)
  · intro g hg
    have hmem := mem_of_mem_shape hg
    obtain ⟨row, _, _, hkey⟩ := (hlists.keys g.key).mp (List.mem_map_of_mem hmem)
    obtain ⟨accs, haccs, hvalues⟩ := Partial.finalize_mem hgroups hmem
    have hdescribed := hreference.groups g.key
    rw [haccs] at hdescribed
    rw [hreference.aggregates] at hvalues
    refine ⟨⟨_, hkey.symm⟩, ?_⟩
    intro name
    rw [Std.ExtTreeMap.mem_iff_isSome_getElem?, isSome_finalizeAccs hvalues,
      ← hdescribed.2.length_eq, List.take_length]
    simp

end Fits

/-- The groups that a table is answered with are groups of the query, and what is printed
of groups tells them apart exactly if no value has the name of a column. Where a name
clashes, the two groups that are printed alike are any that fit the query, with null for
their values; whether a table has such groups is up to the filter and its rows. -/
theorem printing_faithful_iff (q : Query) :
    (∀ serde rows results, q.AggregatedAs serde rows results →
      (results.map (·.key)).Nodup ∧ ∀ g ∈ results, g.Fits q) ∧
    ((∀ g g' : GroupResult, g.Fits q → g'.Fits q →
        groupObject q.groupBy g = groupObject q.groupBy g' → g = g') ↔
      ∀ agg ∈ q.aggregates, agg.outputName ∉ q.groupBy) := by
  refine ⟨fun _ _ _ h => h.fits, ?_, ?_⟩
  · intro hinjective agg hagg hclash
    obtain ⟨g, g', hg, hg', hobject, hne⟩ := exists_object_eq hagg hclash
    exact hne (hinjective g g' hg hg' hobject)
  · exact fun hapart g g' hg hg' => hg.eq_of_object hg' hapart

end CeQuery
