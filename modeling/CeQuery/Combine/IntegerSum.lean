import CeQuery.Combine.MapReduce

/-!
# Integer sums at the end of a query

The accumulator of a sum has 128 bits, the output format has 64. `NoOverflow`
says that no running total leaves the accumulator, neither while the rows of a
shard are folded nor while shards are merged, for one sharding and one order of
the merges. Then every group holds its exact total (`described_of_noOverflow`),
and `integer_sums_final_iff` states when the totals come out: exactly if each of
them is a JSON integer.
-/

namespace CeQuery

/-- The integer a JSON value stands for. -/
def Value.integer : Value → Option Int
  | number (.posInt n) => some n.val
  | number (.negInt n) => some n.val
  | _ => none

/-- The value an `i128` is converted to is the integer itself. -/
def SerdeJson.KeepsI128 (json : SerdeJson) : Prop :=
  ∀ (n : I128) (v : Value), json.ofI128 n = some v → v.integer = some n.val

theorem SerdeJson.sample_keepsI128 : sample.KeepsI128 := by
  intro n v h
  simp only [sample] at h
  split at h
  · cases h
    rfl
  · split at h
    · cases h
      rfl
    · cases h

namespace Query

/-- The cells of the sums of the query are integers. -/
def IntegerSums (q : Query) (rows : List Row) : Prop :=
  ∀ f, .sum f ∈ q.aggregates → ∀ num ∈ summands f rows, num.integer.isSome = true

/-- The totals of the sums over these rows fit the accumulator. -/
def FitsLane (q : Query) (rows : List Row) : Prop :=
  ∀ f, .sum f ∈ q.aggregates →
    -2 ^ 127 ≤ (integralCells f rows).sum ∧ (integralCells f rows).sum ≤ 2 ^ 127 - 1

/-- No running total of a group overflows: within a shard after each row, and
after each merge. -/
def NoOverflow (json : SerdeJson) (q : Query) (key : List String) :
    MergeTree (List Row) → Prop
  | .identity => True
  | .part rows => ∀ zs, zs <+: q.members json key rows → q.FitsLane zs
  | .merge left right => q.NoOverflow json key left ∧ q.NoOverflow json key right ∧
      q.FitsLane (q.members json key (left.parts.flatten ++ right.parts.flatten))

variable {json : SerdeJson} {q : Query} {rows xs ys : List Row} {key : List String}

theorem IntegerSums.sublist (h : q.IntegerSums ys) (hsub : xs.Sublist ys) : q.IntegerSums xs :=
  fun f hf num hnum => h f hf num ((hsub.filterMap _).subset hnum)

/-- Integer cells whose totals fit are carried by the lane. -/
theorem IntegerSums.carried (h : q.IntegerSums rows) (hfits : q.FitsLane rows) :
    ∀ agg ∈ q.aggregates, agg.Carried rows := by
  intro agg hagg
  cases agg with
  | sum f => exact ⟨h f hagg, hfits f hagg⟩
  | _ => trivial

/-- Along a sharding without overflow every group is described by its rows. -/
theorem described_of_noOverflow (tree : MergeTree (List Row))
    (hcells : q.IntegerSums tree.parts.flatten) (hlane : q.NoOverflow json key tree) :
    q.GroupDescribed (q.members json key tree.parts.flatten)
      (tree.eval (.empty q.aggregates) Partial.merge (q.mapShard json)).groups[key]? := by
  induction tree with
  | identity => rfl
  | part rows =>
      have hrows : (MergeTree.part rows).parts.flatten = rows := List.append_nil rows
      rw [hrows] at hcells ⊢
      apply mapShard_described
      intro zs hzs
      exact (hcells.sublist (hzs.sublist.trans List.filter_sublist)).carried (hlane zs hzs)
  | merge left right ihl ihr =>
      obtain ⟨hleft, hright, hboth⟩ := hlane
      rw [MergeTree.parts, List.flatten_append] at hcells ⊢
      rw [members_append] at hboth ⊢
      rw [MergeTree.eval, Partial.merge, BTreeMap.getElem?_absorb]
      refine GroupDescribed.merge ?_
        (ihl (hcells.sublist (List.sublist_append_left _ _)) hleft)
        (ihr (hcells.sublist (List.sublist_append_right _ _)) hright)
      refine IntegerSums.carried (hcells.sublist ?_) hboth
      exact List.filter_sublist.append List.filter_sublist

/-! ## Finalisation -/

/-- Only a sum over `f` is written under the name of such a sum. -/
theorem outputName_eq_sum {agg : Agg} {f : String} :
    agg.outputName = "sum_" ++ f ↔ agg = .sum f := by
  rw [← String.toList_inj, String.toList_append]
  cases agg <;> simp [Agg.outputName, String.toList_append, String.toList_inj]

/-- The output has, under the name of a sum, the total of the rows. -/
def Total (f : String) (rows : List Row) (values : BTreeMap String Value) : Prop :=
  ∃ v, values["sum_" ++ f]? = some v ∧ v.integer = some (integralCells f rows).sum

/-- The described accumulators of a group write its totals. A total that was
written stays. -/
theorem finalizeAccs_totals (hkeeps : json.KeepsI128) {aggs : List Agg} {accs : List Accum}
    (h : List.Forall₂ (fun agg acc => agg.Describes rows acc) aggs accs)
    {values out : BTreeMap String Value} (hout : finalizeAccs json aggs accs values = some out)
    (f : String) (hf : .sum f ∈ aggs ∨ Total f rows values) : Total f rows out := by
  induction h generalizing values with
  | nil =>
      cases hout
      exact hf.resolve_left List.not_mem_nil
  | @cons agg acc aggs accs hacc _ ih =>
      simp only [finalizeAccs, Option.bind_eq_bind, Option.bind_eq_some_iff] at hout
      obtain ⟨v, hv, hout⟩ := hout
      apply ih hout
      by_cases hagg : agg = .sum f
      · subst hagg
        right
        cases acc <;> simp only [Agg.Describes] at hacc
        rename_i n
        refine ⟨v, by simp [Agg.outputName], ?_⟩
        rw [hkeeps n v hv, hacc]
      · obtain hf | ⟨w, hw, hint⟩ := hf
        · exact .inl ((List.mem_cons.mp hf).resolve_left (Ne.symm hagg))
        · right
          refine ⟨w, ?_, hint⟩
          have hname : agg.outputName ≠ "sum_" ++ f := fun h => hagg (outputName_eq_sum.mp h)
          rw [Std.ExtTreeMap.getElem?_insert, if_neg, hw]
          exact fun h => hname (Std.LawfulEqOrd.eq_of_compare h)

theorem eval_aggregates (tree : MergeTree (List Row)) :
    (tree.eval (.empty q.aggregates) Partial.merge (q.mapShard json)).aggregates =
      q.aggregates := by
  induction tree with
  | identity => rfl
  | part rows => rfl
  | merge left right ihl _ => exact ihl

/-- Over a sharding in which no running total overflows, the query ends with the
exact totals exactly if each of them is a JSON integer. -/
theorem integer_sums_final_iff (hjson : json.ConvertsI128) (hkeeps : json.KeepsI128)
    (hcells : q.IntegerSums rows) (tree : MergeTree (List Row))
    (hdist : tree.parts.flatten.Perm rows) (hlane : ∀ key, q.NoOverflow json key tree) :
    (∃ out, (tree.eval (.empty q.aggregates) Partial.merge (q.mapShard json)).finalize json =
        some out ∧ ∀ row ∈ out, ∀ f, .sum f ∈ q.aggregates →
          Total f (q.members json row.key rows) row.values) ↔
      ∀ key f, .sum f ∈ q.aggregates →
        JsonInteger (integralCells f (q.members json key rows)).sum := by
  have hshards : q.IntegerSums tree.parts.flatten := fun f hf num hnum =>
    hcells f hf num ((summands_perm f hdist).subset hnum)
  have haggs : (tree.eval (.empty q.aggregates) Partial.merge (q.mapShard json)).aggregates =
      q.aggregates := eval_aggregates tree
  have hgroups : ∀ key, q.GroupDescribed (q.members json key rows)
      (tree.eval (.empty q.aggregates) Partial.merge (q.mapShard json)).groups[key]? :=
    fun key => (described_of_noOverflow tree hshards (hlane key)).perm (members_perm hdist)
  rw [← finalize_isSome_iff hjson haggs hgroups, Option.isSome_iff_exists]
  constructor
  · rintro ⟨out, hout, _⟩
    exact ⟨out, hout⟩
  · rintro ⟨out, hout⟩
    refine ⟨out, hout, ?_⟩
    intro row hrow f hf
    obtain ⟨accs, hget, hvalues⟩ := Partial.finalize_mem hout hrow
    have hgroup := hgroups row.key
    rw [hget] at hgroup
    rw [haggs] at hvalues
    exact finalizeAccs_totals hkeeps hgroup.2 hvalues f (.inl hf)

/-- Cells whose absolute values fit together do not overflow in any sharding. -/
theorem noOverflow_of_exactSums (tree : MergeTree (List Row))
    (h : q.ExactSums tree.parts.flatten) : q.NoOverflow json key tree := by
  have hfits : ∀ {xs ys : List Row}, q.ExactSums ys → xs.Sublist ys → q.FitsLane xs :=
    fun hys hsub f hf => ((hys f hf).sublist hsub).sum_range
  induction tree with
  | identity => trivial
  | part rows =>
      rw [MergeTree.parts, List.flatten_singleton] at h
      intro zs hzs
      exact hfits h (hzs.sublist.trans List.filter_sublist)
  | merge left right ihl ihr =>
      rw [MergeTree.parts, List.flatten_append] at h
      exact ⟨ihl (h.sublist (List.sublist_append_left _ _)),
        ihr (h.sublist (List.sublist_append_right _ _)), hfits h List.filter_sublist⟩

private def sumOf : Query where
  dataset := "t"
  aggregates := [.sum "v"]
  predicate := .true
  groupBy := []
  orderBy := []
  limit := none
  projection := none

private def amount (s : String) : Row :=
  .ofList [("v", Value.string s)]

private theorem sumOf_exact {rows : List Row} (h : ExactSum "v" rows) : sumOf.ExactSums rows := by
  intro f hf
  have hv : f = "v" := by simpa [sumOf] using hf
  rwa [hv]

private theorem sumOf_integer {rows : List Row} (h : ExactSum "v" rows) :
    sumOf.IntegerSums rows :=
  fun f hf => (sumOf_exact h f hf).integral

/-- Two amounts in two shards, one of them negative. -/
theorem integer_sums_final_iff_two_shards :
    ∃ out, ((MergeTree.leftFold [[amount "100"], [amount "-250"]]).eval (.empty sumOf.aggregates)
        Partial.merge (sumOf.mapShard .sample)).finalize .sample = some out ∧
      ∀ row ∈ out, ∀ f, .sum f ∈ sumOf.aggregates →
        Total f (sumOf.members .sample row.key [amount "100", amount "-250"]) row.values := by
  have hexact : ExactSum "v" [amount "100", amount "-250"] := by decide
  refine (integer_sums_final_iff SerdeJson.sample_convertsI128 SerdeJson.sample_keepsI128
    (sumOf_integer hexact) _ (.refl _) ?_).mpr ?_
  · intro key
    exact noOverflow_of_exactSums _ (sumOf_exact hexact)
  · intro key f hf
    have hv : f = "v" := by simpa [sumOf] using hf
    rw [hv]
    have hsmall : ((integralCells "v" [amount "100", amount "-250"]).map Int.natAbs).sum ≤
        2 ^ 63 - 1 := by decide
    exact ExactSum.jsonInteger_of_total hsmall List.filter_sublist

/-- One amount of a hundred units with 18 decimals is summed exactly, and then
cannot be written. -/
theorem amount_not_final :
    sumOf.IntegerSums [amount "100000000000000000000"] ∧
    (∀ key, sumOf.NoOverflow .sample key
      (MergeTree.leftFold [[amount "100000000000000000000"]])) ∧
    ((MergeTree.leftFold [[amount "100000000000000000000"]]).eval (.empty sumOf.aggregates)
      Partial.merge (sumOf.mapShard .sample)).finalize .sample = none := by
  have hexact : ExactSum "v" [amount "100000000000000000000"] := by decide
  refine ⟨sumOf_integer hexact, ?_, ?_⟩
  · intro key
    exact noOverflow_of_exactSums _ (sumOf_exact hexact)
  · rfl

end Query

end CeQuery
