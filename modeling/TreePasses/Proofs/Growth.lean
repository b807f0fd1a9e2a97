-- What a language accepts when it gets more clauses. A new clause makes more trees forms, so a
-- clause that repeats takes more items than before and may leave too few for the clauses after it.
-- Where lists repeat only at their end nothing comes after it, and whatever was accepted stays
-- accepted.
import TreePasses.Proofs.Derivation
import TreePasses.Proofs.SoundLanguages

namespace TreePasses

namespace Clause

/-! ## Terminals that hold for more trees -/

section

variable {holds holds' : String → Tree → Bool}

/-- Items that match a word match it also where its clauses fit more. -/
theorem Matched.mono {word : List Clause} {items : List Tree}
    (h : ∀ c ∈ word, ∀ t ∈ items, c.fits holds t = true → c.fits holds' t = true)
    (hm : Matched holds word items) : Matched holds' word items := by
  unfold Matched at *
  rw [List.forall₂_iff_zip] at *
  refine ⟨hm.1, ?_⟩
  intro c t hmem
  obtain ⟨hc, ht⟩ := List.of_mem_zip hmem
  exact h c hc t ht (hm.2 hmem)

/-- A tree keeps the shape of a clause whose lists repeat only at their end if its terminals come to
hold for more trees. -/
theorem fits_mono (h : ∀ name t, holds name t = true → holds' name t = true) {c : Clause}
    (hc : c.AllTailQuantified) {t : Tree} (hfits : c.fits holds t = true) :
    c.fits holds' t = true := by
  induction t generalizing c with
  | atom a =>
    cases c with
    | list body q => cases hfits
    | group body q => cases hfits
    | literal name q => exact hfits
    | terminal name q => exact h name _ hfits
  | list items ih =>
    cases c with
    | list body q =>
      obtain ⟨word, hword⟩ := fits_list_iff.mp hfits
      obtain ⟨hspells, hm⟩ := captures_explained hword
      -- The items match the same word as before, and a body that repeats only at its end finds it.
      have hm' : Matched holds' word items := by
        apply hm.mono
        intro d hd t ht hdt
        apply ih t ht _ hdt
        intro inner hinner
        exact hc inner (List.mem_cons_of_mem _ (spellsAll_listBodies hspells d hd hinner))
      have hbody : tailQuantified body = true := hc body (by simp [listBodies])
      exact fits_list_iff.mpr ⟨word, (captures_iff hbody).mpr ⟨hspells, hm'⟩⟩
    | group body q => cases hfits
    | literal name q => exact hfits
    | terminal name q => exact h name _ hfits

end

end Clause

namespace Language

/-! ## Languages with more clauses -/

/-- A language has all the clauses of another, and each name stands for the same. -/
structure Extends (l' l : Language) : Prop where
  terminals : l'.terminals = l.terminals
  entries : ∀ e ∈ l.entries, e ∈ l'.entries

namespace Extends

variable {l l' : Language} (h : l'.Extends l)
include h

theorem holdsGiven_mono {accepts accepts' : Tree → Bool}
    (haccepts : ∀ t, accepts t = true → accepts' t = true) (name : String) (t : Tree)
    (hholds : l.holdsGiven accepts name t = true) : l'.holdsGiven accepts' name t = true := by
  have hname : l'.terminal? name = l.terminal? name := by simp [terminal?, h.terminals]
  unfold holdsGiven at *
  rw [hname]
  cases hk : l.terminal? name with
  | none => simp [hk] at hholds
  | some k =>
    simp only [hk] at hholds ⊢
    cases k with
    | expression => exact haccepts t hholds
    | _ => exact hholds

/-- What is accepted by looking some levels down is accepted so by the language with more clauses.
-/
theorem acceptsWithin_mono (htail : l.TailQuantified) (depth : Nat) (t : Tree)
    (ht : l.acceptsWithin depth t = true) : l'.acceptsWithin depth t = true := by
  induction depth generalizing t with
  | zero => cases ht
  | succ depth ih =>
    simp only [acceptsWithin, List.any_eq_true] at ht ⊢
    obtain ⟨e, he, hfits⟩ := ht
    exact ⟨e, h.entries e he, Clause.fits_mono (h.holdsGiven_mono ih) (htail e he) hfits⟩

theorem accepts_mono (htail : l.TailQuantified) {t : Tree} (ht : l.accepts t = true) :
    l'.accepts t = true :=
  h.acceptsWithin_mono htail t.height t ht

end Extends

theorem extends_prepend {l l' : Language} {pattern : String} {verbatim : Bool} {id : ClauseId}
    {s s' : Supply} (h : (l.prepend pattern verbatim).run.run s = (.ok (id, l'), s')) :
    l'.Extends l := by
  obtain ⟨e, -, -, rfl⟩ := prepend_eq_ok h
  exact ⟨rfl, fun x hx => List.mem_cons_of_mem _ hx⟩

theorem extends_append {l l' : Language} {pattern : String} {verbatim : Bool} {s s' : Supply}
    (h : (l.append pattern verbatim).run.run s = (.ok l', s')) : l'.Extends l := by
  cases hc : l.admissible pattern with
  | error e =>
    rw [append_of_error verbatim hc s] at h
    cases h
  | ok c =>
    rw [append_of_ok verbatim hc s] at h
    cases h
    exact ⟨rfl, fun x hx => List.mem_append_left _ hx⟩

theorem extends_of_erase {l l' : Language} {pattern : String} {e : Entry}
    (h : l.erase pattern = .ok (e, l')) : l.Extends l' := by
  unfold erase at h
  cases he : l.entryFor pattern with
  | error cause =>
    rw [he] at h
    cases h
  | ok entry =>
    rw [he] at h
    cases h
    exact ⟨rfl, fun x hx => List.mem_of_mem_eraseP hx⟩

/-! ## The laws -/

/-- In a language whose lists repeat only at their end, a clause that is put in before or after the
others, verbatim or not, makes no tree rejected that was accepted, whatever its pattern. A clause
that is taken out makes no tree accepted that was rejected, if lists repeat only at their end in the
clauses that stay. -/
theorem more_clauses_accept_more_trees (l : Language) (pattern : String) :
    (l.TailQuantified → ∀ (verbatim : Bool) (s s' : Supply) (l' : Language),
      ((∃ id, (l.prepend pattern verbatim).run.run s = (.ok (id, l'), s')) ∨
        (l.append pattern verbatim).run.run s = (.ok l', s')) →
      ∀ t, l.accepts t = true → l'.accepts t = true) ∧
    ∀ (e : Entry) (l' : Language), l.erase pattern = .ok (e, l') → l'.TailQuantified →
      ∀ t, l.accepts t = false → l'.accepts t = false := by
  refine ⟨?_, ?_⟩
  · intro htail verbatim s s' l' hput t ht
    have hextends : l'.Extends l := by
      rcases hput with ⟨id, hput⟩ | hput
      · exact extends_prepend hput
      · exact extends_append hput
    exact hextends.accepts_mono htail ht
  · intro e l' herase htail t ht
    by_contra hnot
    have haccepts := (extends_of_erase herase).accepts_mono htail (by simpa using hnot)
    simp [ht] at haccepts

/-- Names, and nodes of one or more trees. -/
def nodes : Language :=
  ⟨"nodes",
    [⟨⟨0⟩, .terminal "s" .one, false⟩,
      ⟨⟨1⟩, .list [.literal "node" .one, .terminal "ε" .oneOrMore] .one, false⟩],
    [("s", .symbol)]⟩

/-- A node in a node. -/
def nestedNode : Tree :=
  .list [.symbol "node", .symbol "a", .list [.symbol "node", .symbol "b", .symbol "c"]]

/-- Beside leaves a node is still accepted, and without nodes an empty list is still rejected. -/
theorem nodes_with_leaves_and_without_nodes :
    nodes.TailQuantified ∧ nodes.accepts nestedNode = true ∧
      (∃ l', (nodes.prepend "('leaf ε*)" false).run.run ⟨2⟩ = (.ok (⟨2⟩, l'), ⟨3⟩) ∧
        l'.accepts nestedNode = true) ∧
      nodes.accepts (.list []) = false ∧
      ∃ e l', nodes.erase "('node ε+)" = .ok (e, l') ∧ l'.accepts (.list []) = false := by
  have htail : nodes.TailQuantified := by
    unfold TailQuantified Clause.AllTailQuantified
    decide
  have hnode : nodes.accepts nestedNode = true := by decide +kernel
  have hempty : nodes.accepts (.list []) = false := by decide +kernel
  have hleaf : nodes.admissible "('leaf ε*)" =
      .ok (.list [.literal "leaf" .one, .terminal "ε" .zeroOrMore] .one) := by decide +kernel
  have hprepend := prepend_of_ok false hleaf ⟨2⟩
  have herase : nodes.erase "('node ε+)" =
      .ok (⟨⟨1⟩, .list [.literal "node" .one, .terminal "ε" .oneOrMore] .one, false⟩,
        ⟨"nodes", [⟨⟨0⟩, .terminal "s" .one, false⟩], [("s", .symbol)]⟩) := by decide +kernel
  refine ⟨htail, hnode, ⟨_, hprepend, ?_⟩, hempty, _, _, herase, ?_⟩
  · exact (more_clauses_accept_more_trees nodes "('leaf ε*)").1 htail false ⟨2⟩ _ _
      (.inl ⟨_, hprepend⟩) nestedNode hnode
  · apply (more_clauses_accept_more_trees nodes "('node ε+)").2 _ _ herase _ _ hempty
    intro e he
    exact htail e (by simp_all [nodes])

-- Where forms may repeat before the end, the clause for `b` makes a form of the mark that was to
-- follow the forms.
example :
    let marked : Language := ⟨"marked", [⟨⟨0⟩, .literal "a" .one, false⟩,
      ⟨⟨1⟩, .list [.terminal "ε" .zeroOrMore, .literal "b" .one] .one, false⟩], []⟩
    marked.accepts (.list [.symbol "a", .symbol "b"]) = true ∧
      Language.accepts { marked with entries := ⟨⟨2⟩, .literal "b" .one, false⟩ :: marked.entries }
        (.list [.symbol "a", .symbol "b"]) = false := by
  decide +kernel

end Language

end TreePasses
