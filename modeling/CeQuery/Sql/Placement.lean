import CeQuery.Sql.Grammar

/-!
# Neighbouring tokens in a derivation

The derivations of the parser's grammar and of the intended one differ in the words at
their leaves only. If no two neighbours stand wrong, each leaf of the former is one of
the latter, because the token before it is known (`Lexicon.Derives.placed`). Conversely
the parts of a derivation of the intended grammar are such that no two neighbours stand
wrong where they meet (`Closed`, `Lexicon.Derives.wellPlaced`).
-/

namespace CeQuery

namespace Sql

/-! ## From the words that the parser takes to bare words -/

/-- Part of a text with neighbours as in the grammar, without a star at its front. -/
structure Placed (us : List Tok) : Prop where
  chain : WellPlaced us
  head : us.head? ≠ some (.word "*")

section Placed

variable {t : Tok} {us vs : List Tok}

theorem Placed.left (h : Placed (us ++ vs)) : Placed us where
  chain := h.chain.left_of_append
  head := by
    cases us with
    | nil => simp
    | cons u us => exact h.head

theorem WellPlaced.tail (h : WellPlaced (t :: us)) : WellPlaced us :=
  List.IsChain.tail h

theorem WellPlaced.right (h : WellPlaced (us ++ vs)) : WellPlaced vs :=
  List.IsChain.right_of_append h

/-- What stands behind a token behind which no star may stand. -/
theorem WellPlaced.behind (h : WellPlaced (t :: us)) (ht : mayStar t = false) : Placed us where
  chain := List.IsChain.tail h
  head := by
    cases us with
    | nil => simp
    | cons u us =>
        intro hstar
        cases Option.some.inj hstar
        have hfollows := (List.isChain_cons_cons.mp h).1
        exact absurd (hfollows.2 rfl) (Bool.eq_false_iff.mp ht)

/-- The first word is no star. -/
theorem Placed.bare {w : String} (h : Placed (.word w :: us)) (hw : isOperator w = false) :
    Bare w := by
  refine bare_iff.mpr ⟨hw, ?_⟩
  rintro rfl
  exact h.head rfl

/-- What holds of the items of a list between commas, each of them placed, holds of the
list. -/
theorem placed_list {α : Type} {S S' : α → List Tok → Prop} {as : List α}
    (h : SepBy S isComma as us) (hitem : ∀ a us, S a us → Placed us → S' a us)
    (hus : Placed us) : SepBy S' isComma as us := by
  induction h with
  | last hS => exact .last (hitem _ _ hS hus)
  | more hS hs _ ih =>
      refine .more (hitem _ _ hS hus.left) hs (ih ?_)
      apply hus.chain.right.behind
      rw [eq_comma hs]
      decide

end Placed

namespace Lexicon

variable {us : List Tok}

theorem Literal.placed {value : Value} {op : CmpOp} {o : String} {t : Tok}
    (h : accepted.Literal value t) (ho : o ∈ opWords op) (hfollows : Follows (.word o) t) :
    intended.Literal value t := by
  have hall : ∀ o ∈ comparisons, .word o ∈ opening ∧ mayStar (.word o) = false := by decide
  obtain ⟨hopening, hstar⟩ := hall o (mem_comparisons ho)
  cases h with
  | quoted s => exact .quoted s
  | word _ hdenotes => exact .word (hfollows.bare hstar (hfollows.1 hopening)) hdenotes

theorem Term.placed {p : Predicate} (h : accepted.Term p us) (hus : Placed us) :
    intended.Term p us := by
  cases h with
  | cmp hname ho hliteral =>
      obtain ⟨_, hchain⟩ := List.isChain_cons_cons.mp hus.chain
      obtain ⟨hfollows, _⟩ := List.isChain_cons_cons.mp hchain
      exact .cmp (hus.bare hname) ho (hliteral.placed ho hfollows)
  | not hkw hname ho hliteral =>
      have hbehind := hus.chain.behind (mayStar_of_eqKeyword hkw (by decide))
      obtain ⟨_, hchain⟩ := List.isChain_cons_cons.mp hbehind.chain
      obtain ⟨hfollows, _⟩ := List.isChain_cons_cons.mp hchain
      exact .not hkw (hbehind.bare hname) ho (hliteral.placed ho hfollows)

theorem Chain.placed {p : Predicate} (h : accepted.Chain p us) (hus : Placed us) :
    intended.Chain p us := by
  induction h with
  | term hterm => exact .term (hterm.placed hus)
  | and _ hkw hright ih =>
      have hbehind := hus.chain.right.behind (mayStar_of_eqKeyword hkw (by decide))
      exact .and (ih hus.left) hkw (hright.placed hbehind)
  | or _ hkw hright ih =>
      have hbehind := hus.chain.right.behind (mayStar_of_eqKeyword hkw (by decide))
      exact .or (ih hus.left) hkw (hright.placed hbehind)

theorem Call.function {G : Lexicon} {agg : Agg} (h : G.Call agg us) :
    ∃ w ts, us = .word w :: ts ∧ Bare w := by
  cases h with
  | count hkw _ => exact ⟨_, _, rfl, bare_of_eqKeyword hkw (by decide)⟩
  | field _ hkw _ => exact ⟨_, _, rfl, bare_of_eqKeyword hkw (isWord_aggKeyword _)⟩

theorem Call.placed {agg : Agg} (h : accepted.Call agg us) (hus : Placed us) :
    intended.Call agg us := by
  have harg : ∀ {w arg : String}, Placed [.word w, .word "(", .word arg, .word ")"] →
      isOperator arg = false := by
    intro w arg hus
    obtain ⟨_, hchain⟩ := List.isChain_cons_cons.mp hus.chain
    exact (List.isChain_cons_cons.mp hchain).1.1 (by decide)
  cases h with
  | @count w arg hkw _ =>
      refine .count hkw ?_
      by_cases hstar : arg = "*"
      · exact .inl hstar
      · exact .inr (bare_iff.mpr ⟨harg hus, hstar⟩)
  | field hfield hkw hstar => exact .field hfield hkw (bare_iff.mpr ⟨harg hus, hstar⟩)

theorem Column.placed {col : String} (h : accepted.Column col us) (hus : Placed us) :
    intended.Column col us := by
  cases h with
  | name hname => exact .name (hus.bare hname)

theorem Key.placed {key : OrderKey} (h : accepted.Key key us) (hus : Placed us) :
    intended.Key key us := by
  cases h with
  | ascending hname => exact .ascending (hus.bare hname)
  | directed hname hkw => exact .directed (hus.bare hname) hkw

theorem Select.placed {q : Query} (h : accepted.Select q us) (hus : WellPlaced us) :
    intended.Select q us := by
  cases h with
  | aggregates hshape hlist =>
      refine .aggregates hshape (placed_list hlist (fun _ _ => Call.placed) ⟨hus, ?_⟩)
      obtain ⟨_, _, _, _, hcall, rfl, _⟩ := hlist.front
      obtain ⟨w, ts, rfl, hbare⟩ := hcall.function
      intro hstar
      cases Option.some.inj hstar
      exact absurd hbare (by decide)
  | star hshape => exact .star hshape
  | columns hshape hlist hfirst =>
      exact .columns hshape (placed_list hlist (fun _ _ => Column.placed) ⟨hus, hfirst⟩) hfirst

theorem Where.placed {p : Predicate} (h : accepted.Where p us) (hus : WellPlaced us) :
    intended.Where p us := by
  cases h with
  | absent => exact .absent
  | present hkw hchain =>
      have hbehind := hus.behind (mayStar_of_eqKeyword hkw (by decide))
      exact .present hkw (hchain.placed hbehind)

theorem ByClause.placed {α : Type} {first : String} {S S' : α → List Tok → Prop} {as : List α}
    (h : ByClause first S as us) (hitem : ∀ a us, S a us → Placed us → S' a us)
    (hus : WellPlaced us) : ByClause first S' as us := by
  cases h with
  | absent => exact .absent
  | present hkw hkw' hlist =>
      have hbehind := hus.tail.behind (mayStar_of_eqKeyword hkw' (by decide))
      exact .present hkw hkw' (placed_list hlist hitem hbehind)

theorem Limit.placed {limit : Option Usize} (h : accepted.Limit limit us) :
    intended.Limit limit us := by
  cases h with
  | absent => exact .absent
  | @present n w w' hkw hname hread =>
      refine .present hkw (bare_iff.mpr ⟨hname, ?_⟩) hread
      rintro rfl
      have hnone : Text.unsigned "*".toList = none := by decide
      rw [hnone] at hread
      cases hread

/-- Where no two neighbours stand wrong, the words that the parser took are those of the
grammar. -/
theorem Derives.placed {q : Query} (h : accepted.Derives q us) (hus : WellPlaced us) :
    intended.Derives q us := by
  cases h with
  | query hkw hselect hkw' hname hwhere hgroup horder hlimit =>
      have hlist : WellPlaced (_ ++ _) := hus.tail
      have hfrom := hlist.right
      have hdataset := hfrom.behind (mayStar_of_eqKeyword hkw' (by decide))
      have hclauses : WellPlaced (_ ++ _) := hfrom.tail.tail
      have hgroup' := hgroup.placed (fun _ _ => Column.placed) hclauses.right.left_of_append
      have horder' := horder.placed (fun _ _ => Key.placed) hclauses.right.right.left_of_append
      exact .query hkw (hselect.placed hlist.left_of_append) hkw' (hdataset.bare hname)
        (hwhere.placed hclauses.left_of_append) hgroup' horder' hlimit.placed

end Lexicon

/-! ## What is written by the grammar is well placed -/

/-- A part that is well placed between any others of this kind. -/
structure Closed (us : List Tok) : Prop extends Placed us where
  last : ∀ t ∈ us.getLast?, t ∉ opening

namespace Closed

variable {kw w : String} {t u : Tok} {us vs : List Tok}

theorem nil : Closed [] where
  chain := .nil
  head := by simp
  last := by simp

theorem single (ht : t ≠ .word "*") (hlast : t ∉ opening) : Closed [t] where
  chain := .singleton t
  head := by simpa using ht
  last := by simpa using hlast

theorem pair (ht : t ≠ .word "*") (hfollows : Follows t u) (hlast : u ∉ opening) :
    Closed [t, u] where
  chain := List.isChain_pair.mpr hfollows
  head := by simpa using ht
  last := by simpa using hlast

theorem append (hus : Closed us) (hvs : Closed vs) : Closed (us ++ vs) where
  chain := by
    refine List.isChain_append.mpr ⟨hus.chain, hvs.chain, fun t ht u hu => ⟨?_, ?_⟩⟩
    · exact fun hopening => absurd hopening (hus.last t ht)
    · rintro rfl
      exact absurd hu hvs.head
  head := by
    cases us with
    | nil => exact hvs.head
    | cons u us => exact hus.head
  last := by
    intro t ht
    rw [List.getLast?_append] at ht
    cases hlast : vs.getLast? with
    | none =>
        rw [hlast] at ht
        exact hus.last t ht
    | some u =>
        rw [hlast] at ht
        cases ht
        exact hvs.last _ hlast

theorem bare (h : Bare w) : Closed [.word w] := by
  have hopening : ∀ t ∈ opening, ∃ o ∈ operators, t = .word o := by decide
  refine single ?_ fun hmem => ?_
  · rintro ⟨⟩
    exact absurd h (by decide)
  · obtain ⟨o, ho, heq⟩ := hopening _ hmem
    cases heq
    exact h ho

theorem cons_bare (h : Bare w) (hus : Closed us) : Closed (.word w :: us) :=
  (bare h).append hus

theorem cons_kw (h : eqKeyword kw w = true) (hkw : IsWord kw.toList) (hus : Closed us) :
    Closed (.word w :: us) :=
  cons_bare (bare_of_eqKeyword h hkw) hus

theorem list {α : Type} {S : α → List Tok → Prop} {as : List α} (h : SepBy S isComma as us)
    (hitem : ∀ a us, S a us → Closed us) : Closed us := by
  induction h with
  | last hS => exact hitem _ _ hS
  | @more a as us vs s hS hs _ ih =>
      have hcomma : Closed [s] := by
        rw [eq_comma hs]
        exact single (by decide) (by decide)
      exact (hitem _ _ hS).append (hcomma.append ih)

end Closed

namespace Lexicon

variable {us : List Tok}

theorem Literal.closed {value : Value} {op : CmpOp} {o : String} {t : Tok}
    (h : intended.Literal value t) (ho : o ∈ opWords op) : Closed [.word o, t] := by
  have hall : ∀ o ∈ comparisons, (.word o : Tok) ≠ .word "*" := by decide
  have hstar := hall o (mem_comparisons ho)
  cases h with
  | quoted s =>
      refine .pair hstar ⟨fun _ => rfl, fun h => by cases h⟩ ?_
      simp [opening]
  | word hbare _ =>
      obtain ⟨hmark, hne⟩ := bare_iff.mp hbare
      refine .pair hstar ⟨fun _ => hmark, fun h => ?_⟩ ((Closed.bare hbare).last _ rfl)
      exact absurd (Tok.word.inj h) hne

theorem Term.closed {p : Predicate} (h : intended.Term p us) : Closed us := by
  cases h with
  | cmp hname ho hliteral => exact .cons_bare hname (hliteral.closed ho)
  | not hkw hname ho hliteral =>
      exact .cons_kw hkw (by decide) (.cons_bare hname (hliteral.closed ho))

theorem Chain.closed {p : Predicate} (h : intended.Chain p us) : Closed us := by
  induction h with
  | term hterm => exact hterm.closed
  | and _ hkw hright ih => exact ih.append (.cons_kw hkw (by decide) hright.closed)
  | or _ hkw hright ih => exact ih.append (.cons_kw hkw (by decide) hright.closed)

theorem Call.closed {agg : Agg} (h : intended.Call agg us) : Closed us := by
  have hcall : ∀ {w arg : String}, Bare w → arg = "*" ∨ Bare arg →
      Closed [.word w, .word "(", .word arg, .word ")"] := by
    intro w arg hw harg
    have hpair : Closed [.word "(", .word arg] := by
      obtain rfl | harg := harg
      · exact .pair (by decide) (by decide) (by decide)
      · obtain ⟨hmark, hne⟩ := bare_iff.mp harg
        refine .pair (by decide) ⟨fun _ => hmark, fun h => ?_⟩ ((Closed.bare harg).last _ rfl)
        exact absurd (Tok.word.inj h) hne
    exact .cons_bare hw (hpair.append (.single (by decide) (by decide)))
  cases h with
  | count hkw harg => exact hcall (bare_of_eqKeyword hkw (by decide)) harg
  | field _ hkw harg => exact hcall (bare_of_eqKeyword hkw (isWord_aggKeyword _)) (.inr harg)

theorem Column.closed {col : String} (h : intended.Column col us) : Closed us := by
  cases h with
  | name hname => exact .bare hname

theorem Key.closed {key : OrderKey} (h : intended.Key key us) : Closed us := by
  cases h with
  | ascending hname => exact .bare hname
  | @directed column w dir hname hkw =>
      have hdir : IsWord (dirKeyword dir).toList := by cases dir <;> decide
      exact .cons_bare hname (.bare (bare_of_eqKeyword hkw hdir))

theorem Select.closed {q : Query} {w : String} (h : intended.Select q us)
    (hkw : eqKeyword "SELECT" w = true) : Closed (.word w :: us) := by
  have hselect : Bare w := bare_of_eqKeyword hkw (by decide)
  cases h with
  | aggregates _ hlist => exact .cons_bare hselect (.list hlist fun _ _ => Call.closed)
  | star _ =>
      obtain ⟨_, hne⟩ := bare_iff.mp hselect
      refine .pair (fun h => absurd (Tok.word.inj h) hne) ⟨fun _ => by decide, fun _ => ?_⟩
        (by decide)
      rw [mayStar, isKw, hkw, Bool.or_true]
  | columns _ hlist _ => exact .cons_bare hselect (.list hlist fun _ _ => Column.closed)

theorem Where.closed {p : Predicate} (h : intended.Where p us) : Closed us := by
  cases h with
  | absent => exact .nil
  | present hkw hchain => exact .cons_kw hkw (by decide) hchain.closed

theorem ByClause.closed {α : Type} {first : String} {S : α → List Tok → Prop} {as : List α}
    (h : ByClause first S as us) (hfirst : IsWord first.toList)
    (hitem : ∀ a us, S a us → Closed us) : Closed us := by
  cases h with
  | absent => exact .nil
  | present hkw hkw' hlist =>
      exact .cons_kw hkw hfirst (.cons_kw hkw' (by decide) (.list hlist hitem))

theorem Limit.closed {limit : Option Usize} (h : intended.Limit limit us) : Closed us := by
  cases h with
  | absent => exact .nil
  | present hkw hname _ => exact .cons_kw hkw (by decide) (.bare hname)

/-- No two neighbours in a derivation stand wrong. -/
theorem Derives.wellPlaced {q : Query} (h : intended.Derives q us) : WellPlaced us := by
  cases h with
  | query hkw hselect hkw' hname hwhere hgroup horder hlimit =>
      have hgroup' := hgroup.closed (by decide) fun _ _ => Column.closed
      have horder' := horder.closed (by decide) fun _ _ => Key.closed
      have hclauses := hwhere.closed.append (hgroup'.append (horder'.append hlimit.closed))
      have hfrom := Closed.cons_kw hkw' (by decide) (.cons_bare hname hclauses)
      exact ((hselect.closed hkw).append hfrom).chain

end Lexicon

end Sql

end CeQuery
