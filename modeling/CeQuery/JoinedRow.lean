import CeQuery.Join

/-!
# The columns of a joined row

`mergeRows` stores a right column under its own name, or under the prefixed name
when its own is taken. Whether a name is taken does not depend on the cells: it is
a column of the left row, or the prefixed name of an earlier right column whose own
name is taken (`Taken`). So every right column has a name in the joined row that
can be told in advance (`storedName`), and the joined row is the left row with the
right cells inserted under these names.

Nothing checks that the prefixed name is free. A cell is lost exactly if it is a
column of the left row or an earlier right column (`keepsCells_iff`).
-/

namespace CeQuery

/-- The other name of a right column. -/
def prefixed (k : String) : String :=
  "right." ++ k

/-- The name of a right column is taken when the column is merged. -/
inductive Taken (left right : Row) : String → Prop
  | left {k : String} (h : k ∈ left) : Taken left right k
  | renamed {k : String} (hright : k ∈ right) (hbefore : compare k (prefixed k) = .lt)
      (h : Taken left right k) : Taken left right (prefixed k)

open Classical in
/-- The column of the joined row for a right column. -/
noncomputable def storedName (left right : Row) (k : String) : String :=
  if Taken left right k then prefixed k else k

variable {left right : Row} {k k' : String}

theorem prefixed_inj : prefixed k = prefixed k' ↔ k = k' := by
  refine ⟨fun h => ?_, congrArg prefixed⟩
  have hlists := congrArg String.toList h
  rw [prefixed, prefixed, String.toList_append, String.toList_append] at hlists
  exact String.toList_inj.mp (List.append_cancel_left hlists)

theorem prefixed_ne (k : String) : prefixed k ≠ k := by
  intro h
  have hlength := congrArg (fun s : String => s.toList.length) h
  simp only [prefixed, String.toList_append, List.length_append] at hlength
  have hprefix : "right.".toList.length = 6 := by decide
  omega

theorem storedName_of_taken (h : Taken left right k) : storedName left right k = prefixed k :=
  if_pos h

theorem storedName_of_not_taken (h : ¬Taken left right k) : storedName left right k = k :=
  if_neg h

/-- A name is taken if it is a left column or the stored name of an earlier right
column. -/
theorem taken_iff : Taken left right k ↔
    k ∈ left ∨ ∃ k' ∈ right, compare k' k = .lt ∧ storedName left right k' = k := by
  constructor
  · rintro (h | ⟨hright, hbefore, h⟩)
    · exact .inl h
    · exact .inr ⟨_, hright, hbefore, storedName_of_taken h⟩
  · rintro (h | ⟨k', hright, hbefore, hname⟩)
    · exact .left h
    · by_cases htaken : Taken left right k'
      · rw [storedName_of_taken htaken] at hname
        subst hname
        exact .renamed hright hbefore htaken
      · rw [storedName_of_not_taken htaken] at hname
        subst hname
        rw [Std.ReflOrd.compare_self] at hbefore
        cases hbefore

/-- The right cells under their names in the joined row. -/
noncomputable def storedCells (left right : Row) (cells : List (String × Value)) :
    List (String × Value) :=
  cells.map fun cell => (storedName left right cell.1, cell.2)

theorem mem_iff_exists_cell {row : Row} : k ∈ row ↔ ∃ cell ∈ row.toList, cell.1 = k := by
  rw [← Std.ExtTreeMap.mem_keys, ← Std.ExtTreeMap.map_fst_toList_eq_keys, List.mem_map]

/-- After the cells before it, a right column finds its name in the row exactly if
the name is taken. -/
theorem mem_insertMany_storedCells {cell : String × Value} {merged cells : List (String × Value)}
    (hcells : right.toList = merged ++ cell :: cells) :
    cell.1 ∈ left.insertMany (storedCells left right merged) ↔ Taken left right cell.1 := by
  have hordered := Std.ExtTreeMap.ordered_keys_toList (t := right)
  rw [hcells, List.pairwise_append, List.pairwise_cons] at hordered
  obtain ⟨_, ⟨hafter, _⟩, hbefore⟩ := hordered
  rw [taken_iff, Std.ExtTreeMap.mem_insertMany_list, List.contains_eq_mem, decide_eq_true_iff,
    storedCells, List.map_map, List.mem_map]
  apply or_congr_right
  constructor
  · rintro ⟨cell', hcell', hname⟩
    have hmem : cell' ∈ right.toList := hcells ▸ List.mem_append_left _ hcell'
    exact ⟨cell'.1, mem_iff_exists_cell.mpr ⟨cell', hmem, rfl⟩,
      hbefore cell' hcell' cell List.mem_cons_self, hname⟩
  · rintro ⟨k', hk', hlt, hname⟩
    obtain ⟨cell', hmem, rfl⟩ := mem_iff_exists_cell.mp hk'
    rw [hcells, List.mem_append, List.mem_cons] at hmem
    obtain hmerged | rfl | hlater := hmem
    · exact ⟨cell', hmerged, hname⟩
    · rw [Std.ReflOrd.compare_self] at hlt
      cases hlt
    · have hswap := Std.OrientedCmp.gt_of_lt (hafter cell' hlater)
      rw [hlt] at hswap
      cases hswap

theorem insertMany_storedCells_snoc (cell : String × Value) (merged : List (String × Value)) :
    left.insertMany (storedCells left right (merged ++ [cell])) =
      (left.insertMany (storedCells left right merged)).insert
        (storedName left right cell.1) cell.2 := by
  rw [storedCells, List.map_append, Std.ExtTreeMap.insertMany_append]
  rfl

/-- A joined row is the left row with the right cells under their stored names. -/
theorem mergeRows_eq_insertMany (left right : Row) :
    mergeRows left right = left.insertMany (storedCells left right right.toList) := by
  suffices hloop : ∀ cells merged, right.toList = merged ++ cells →
      cells.foldl (fun out cell =>
        if cell.1 ∈ out then out.insert ("right." ++ cell.1) cell.2
        else out.insert cell.1 cell.2) (left.insertMany (storedCells left right merged)) =
        left.insertMany (storedCells left right right.toList) by
    rw [mergeRows, Std.ExtTreeMap.foldl_eq_foldl_toList]
    exact hloop right.toList [] rfl
  intro cells
  induction cells with
  | nil =>
      intro merged hmerged
      rw [List.foldl_nil, hmerged, List.append_nil]
  | cons cell cells ih =>
      intro merged hmerged
      have hpresent : cell.1 ∈ left.insertMany (storedCells left right merged) ↔
          Taken left right cell.1 := mem_insertMany_storedCells hmerged
      rw [← ih (merged ++ [cell]) (by rw [hmerged, List.append_assoc, List.singleton_append]),
        List.foldl_cons, insertMany_storedCells_snoc]
      congr 1
      by_cases htaken : Taken left right cell.1
      · rw [if_pos (hpresent.mpr htaken), storedName_of_taken htaken, prefixed]
      · rw [if_neg (mt hpresent.mp htaken), storedName_of_not_taken htaken]

/-- Joining the two rows loses no cell: the left columns keep their values, every
right cell stands under its own name or its prefixed name, and no two share a
column. -/
structure KeepsCells (left right : Row) : Prop where
  keeps : ∀ (c : String) (v : Value), left[c]? = some v → (mergeRows left right)[c]? = some v
  stores : ∃ name : String → String, (∀ k ∈ right, name k = k ∨ name k = prefixed k) ∧
    (∀ k ∈ right, ∀ k' ∈ right, name k = name k' → k = k') ∧
    ∀ (k : String) (v : Value), right[k]? = some v → (mergeRows left right)[name k]? = some v
  columns : (mergeRows left right).size = left.size + right.size

/-- The prefixed name of a right column is no left column and no earlier right column. -/
def PrefixFree (left right : Row) (k : String) : Prop :=
  prefixed k ∉ left ∧ ¬(prefixed k ∈ right ∧ compare (prefixed k) k = .lt)

theorem map_fst_storedCells :
    (storedCells left right right.toList).map Prod.fst =
      right.keys.map (storedName left right) := by
  rw [storedCells, List.map_map, ← Std.ExtTreeMap.map_fst_toList_eq_keys, List.map_map]
  rfl

/-- The prefixed name of a right column that is not merged before it is taken only
as a left column. -/
theorem not_taken_prefixed (hleft : prefixed k ∉ left) (hlate : ¬compare k (prefixed k) = .lt) :
    ¬Taken left right (prefixed k) := by
  rw [taken_iff]
  rintro (h | ⟨k', _, hbefore, hname⟩)
  · exact hleft h
  · by_cases htaken : Taken left right k'
    · rw [storedName_of_taken htaken, prefixed_inj] at hname
      exact hlate (hname ▸ hbefore)
    · rw [storedName_of_not_taken htaken] at hname
      rw [hname, Std.ReflOrd.compare_self] at hbefore
      cases hbefore

/-- A free prefixed name is stored by no other right column. -/
theorem PrefixFree.taken (hfree : PrefixFree left right k) (hk : k ∈ right)
    (htaken : Taken left right k) (hprefixed : prefixed k ∈ right) :
    Taken left right (prefixed k) := by
  have hlate : ¬compare (prefixed k) k = .lt := fun hlt => hfree.2 ⟨hprefixed, hlt⟩
  refine .renamed hk ?_ htaken
  cases hcmp : compare k (prefixed k) with
  | lt => rfl
  | eq => exact absurd (Std.LawfulEqOrd.eq_of_compare hcmp).symm (prefixed_ne k)
  | gt => exact absurd (Std.OrientedCmp.lt_of_gt hcmp) hlate

theorem storedName_apart_iff :
    ((∀ k ∈ right, storedName left right k ∉ left) ∧
      ∀ k ∈ right, ∀ k' ∈ right, storedName left right k = storedName left right k' → k = k') ↔
        ∀ k ∈ right, Taken left right k → PrefixFree left right k := by
  constructor
  · rintro ⟨hnew, hinj⟩ k hk htaken
    have hleft : prefixed k ∉ left := storedName_of_taken htaken ▸ hnew k hk
    refine ⟨hleft, fun ⟨hprefixed, hearly⟩ => ?_⟩
    have hlate : ¬compare k (prefixed k) = .lt := by
      rw [Std.OrientedCmp.gt_of_lt hearly]
      nofun
    have hfresh : ¬Taken left right (prefixed k) := not_taken_prefixed hleft hlate
    have hsame : storedName left right (prefixed k) = storedName left right k := by
      rw [storedName_of_not_taken hfresh, storedName_of_taken htaken]
    exact prefixed_ne k (hinj (prefixed k) hprefixed k hk hsame)
  · intro hfree
    have hmixed : ∀ k ∈ right, ∀ k' ∈ right, Taken left right k → ¬Taken left right k' →
        prefixed k ≠ k' := by
      rintro k hk k' hk' htaken hfresh rfl
      exact hfresh ((hfree k hk htaken).taken hk htaken hk')
    refine ⟨fun k hk => ?_, fun k hk k' hk' hname => ?_⟩
    · by_cases htaken : Taken left right k
      · rw [storedName_of_taken htaken]
        exact (hfree k hk htaken).1
      · rw [storedName_of_not_taken htaken]
        exact fun hleft => htaken (.left hleft)
    · by_cases htaken : Taken left right k <;> by_cases htaken' : Taken left right k'
      · rwa [storedName_of_taken htaken, storedName_of_taken htaken', prefixed_inj] at hname
      · rw [storedName_of_taken htaken, storedName_of_not_taken htaken'] at hname
        exact absurd hname (hmixed k hk k' hk' htaken htaken')
      · rw [storedName_of_not_taken htaken, storedName_of_taken htaken'] at hname
        exact absurd hname.symm (hmixed k' hk' k hk htaken' htaken)
      · rwa [storedName_of_not_taken htaken, storedName_of_not_taken htaken'] at hname

theorem storedCells_apart_iff :
    ((∀ cell ∈ storedCells left right right.toList, cell.1 ∉ left) ∧
      ((storedCells left right right.toList).map Prod.fst).Nodup) ↔
        ∀ k ∈ right, Taken left right k → PrefixFree left right k := by
  have hcolumns : (∀ cell ∈ storedCells left right right.toList, cell.1 ∉ left) ↔
      ∀ c ∈ (storedCells left right right.toList).map Prod.fst, c ∉ left := by
    rw [List.forall_mem_map]
  rw [← storedName_apart_iff, hcolumns, map_fst_storedCells,
    List.nodup_map_iff_inj_on Std.ExtTreeMap.nodup_keys]
  simp only [List.forall_mem_map, Std.ExtTreeMap.mem_keys]

/-- No cell is lost exactly if the prefixed name of every right column whose own
name is taken is free. -/
theorem keepsCells_iff (left right : Row) :
    KeepsCells left right ↔ ∀ k ∈ right, Taken left right k → PrefixFree left right k := by
  have hlength : (storedCells left right right.toList).length = right.size := by
    rw [storedCells, List.length_map, Std.ExtTreeMap.length_toList]
  rw [← storedCells_apart_iff]
  constructor
  · intro h
    rw [← BTreeMap.size_insertMany_eq_iff, ← mergeRows_eq_insertMany, hlength]
    exact h.columns
  · intro hapart
    have hcolumns := (BTreeMap.size_insertMany_eq_iff _ _).mpr hapart
    rw [← mergeRows_eq_insertMany, hlength] at hcolumns
    obtain ⟨hnew, hdistinct⟩ := hapart
    refine ⟨?_, ⟨storedName left right, ?_, ?_, ?_⟩, hcolumns⟩
    · intro c v hget
      rw [mergeRows_eq_insertMany, Std.ExtTreeMap.getElem?_insertMany_list_of_contains_eq_false]
      · exact hget
      · rw [List.contains_eq_mem, decide_eq_false_iff_not, List.mem_map]
        rintro ⟨cell, hcell, rfl⟩
        exact hnew cell hcell (Std.ExtTreeMap.mem_iff_isSome_getElem?.mpr (by rw [hget]; rfl))
    · intro k _
      by_cases htaken : Taken left right k
      · exact .inr (storedName_of_taken htaken)
      · exact .inl (storedName_of_not_taken htaken)
    · rw [map_fst_storedCells, List.nodup_map_iff_inj_on Std.ExtTreeMap.nodup_keys] at hdistinct
      simpa only [Std.ExtTreeMap.mem_keys] using hdistinct
    · intro k v hget
      rw [mergeRows_eq_insertMany]
      apply Std.ExtTreeMap.getElem?_insertMany_list_of_mem Std.ReflOrd.compare_self
      · refine (List.pairwise_map.mp hdistinct).imp fun hne heq => hne ?_
        exact Std.LawfulEqOrd.eq_of_compare heq
      · exact List.mem_map.mpr
          ⟨(k, v), Std.ExtTreeMap.mem_toList_iff_getElem?_eq_some.mpr hget, rfl⟩

/-- A left row of an earlier join, with columns `right.x` and `x`. -/
private def joinedBefore : Row :=
  .ofList [("right.x", .string "b"), ("x", .string "a")] compare

private def joinedNow : Row :=
  .ofList [("x", .string "c")] compare

/-- The second join on a column `x` overwrites what the first one put aside. -/
theorem prefixed_overwritten :
    joinedBefore["right.x"]? = some (.string "b") ∧
      (mergeRows joinedBefore joinedNow)["right.x"]? = some (.string "c") ∧
      (mergeRows joinedBefore joinedNow).size = 2 ∧
      ¬∀ left right : Row, KeepsCells left right := by
  have hwritten : (mergeRows joinedBefore joinedNow)["right.x"]? = some (.string "c") := rfl
  refine ⟨rfl, hwritten, rfl, fun hall => ?_⟩
  have hkept := (hall joinedBefore joinedNow).keeps "right.x" (.string "b") rfl
  rw [hwritten] at hkept
  exact absurd hkept (by simp)

end CeQuery
