-- When a pass can be trusted: if each clause of the source language is kept or has a rule into
-- the target language, and lists repeat only at their end, then every form of the source
-- language becomes a form of the target language.
import TreePasses.Language.Membership
import TreePasses.Pass.Pipeline
import TreePasses.Proofs.TailQuantified

namespace TreePasses

namespace Clause

/-! ## The bodies of lists inside a clause -/

mutual

/-- The bodies of all lists in a clause, at any depth. -/
def listBodies : Clause → List (List Clause)
  | .list body _ => body :: listBodiesIn body
  | .group body _ => listBodiesIn body
  | .literal _ _ => []
  | .terminal _ _ => []

/-- The bodies of all lists in the clauses of a body. -/
def listBodiesIn : List Clause → List (List Clause)
  | [] => []
  | c :: cs => c.listBodies ++ listBodiesIn cs

end

theorem spellsAll_listBodies_of {body : List Clause}
    (hb : ∀ c ∈ body, ∀ word, c.Spells word → ∀ d ∈ word, d.listBodies ⊆ c.listBodies)
    {word : List Clause} (h : SpellsAll body word) :
    ∀ d ∈ word, d.listBodies ⊆ listBodiesIn body := by
  induction body generalizing word with
  | nil =>
    cases h
    simp
  | cons c cs ih =>
    obtain ⟨first, others, h1, h2, rfl⟩ := h
    intro d hd
    rw [listBodiesIn]
    rcases List.mem_append.mp hd with hd | hd
    · exact fun b hmem => List.mem_append_left _ (hb c (by simp) first h1 d hd hmem)
    · exact fun b hmem =>
        List.mem_append_right _ (ih (fun e he => hb e (by simp [he])) h2 d hd hmem)

theorem spells_listBodies {c : Clause} {word : List Clause} (h : c.Spells word) :
    ∀ d ∈ word, d.listBodies ⊆ c.listBodies := by
  induction c generalizing word with
  | group body q ih =>
    obtain ⟨chunks, -, hwords, rfl⟩ := h
    intro d hd
    obtain ⟨chunk, hchunk, hd⟩ := List.mem_flatten.mp hd
    exact spellsAll_listBodies_of (fun c hc word hw => ih c hc hw) (hwords chunk hchunk) d hd
  | list body q _ =>
    obtain ⟨n, -, rfl⟩ := h
    intro d hd
    rw [List.eq_of_mem_replicate hd]
    exact fun _ hb => hb
  | literal name q =>
    obtain ⟨n, -, rfl⟩ := h
    intro d hd
    simp [List.eq_of_mem_replicate hd, listBodies]
  | terminal name q =>
    obtain ⟨n, -, rfl⟩ := h
    intro d hd
    simp [List.eq_of_mem_replicate hd, listBodies]

/-- Whatever takes an item has no lists in it that are not in the body. -/
theorem spellsAll_listBodies {body word : List Clause} (h : SpellsAll body word) :
    ∀ d ∈ word, d.listBodies ⊆ listBodiesIn body :=
  spellsAll_listBodies_of (fun _ _ _ hw => spells_listBodies hw) h

/-! ## The terminals that a clause asks about -/

theorem takeAll_congr_names_of {holds holds' : String → Tree → Bool} {body : List Clause}
    (hb : ∀ c ∈ body, (∀ name ∈ c.terminalNames, holds name = holds' name) →
      c.take holds = c.take holds')
    (h : ∀ name ∈ bodyTerminalNames body, holds name = holds' name) :
    takeAll holds body = takeAll holds' body := by
  induction body with
  | nil => rfl
  | cons c cs ih =>
    simp only [bodyTerminalNames, List.mem_append] at h
    have hc := hb c (by simp) fun name hn => h name (.inl hn)
    have hcs := ih (fun d hd => hb d (by simp [hd])) fun name hn => h name (.inr hn)
    funext items
    rw [takeAll, takeAll, hc, hcs]

theorem take_congr_names {holds holds' : String → Tree → Bool} {c : Clause}
    (h : ∀ name ∈ c.terminalNames, holds name = holds' name) : c.take holds = c.take holds' := by
  induction c with
  | list body q ih =>
    funext items
    simp only [take, takeAll_congr_names_of ih h]
  | group body q ih =>
    funext items
    simp only [take, takeAll_congr_names_of ih h]
  | literal name q => rfl
  | terminal name q =>
    funext items
    simp only [take, h name (by simp [terminalNames])]

/-- Whether a tree has the shape of a clause depends on the terminals that the clause names. -/
theorem fits_congr_names {holds holds' : String → Tree → Bool} {c : Clause}
    (h : ∀ name ∈ c.terminalNames, holds name = holds' name) (t : Tree) :
    c.fits holds t = c.fits holds' t := by
  cases c with
  | list body q =>
    simp only [fits, takeAll_congr_names_of (fun _ _ => take_congr_names) h]
  | group body q => rfl
  | literal name q => rfl
  | terminal name q => simp only [fits, h name (by simp [terminalNames])]

/-- All lists in a clause, at any depth, repeat only at their end. -/
def AllTailQuantified (c : Clause) : Prop := ∀ body ∈ c.listBodies, tailQuantified body = true

end Clause

/-! ## Well-typed passes -/

namespace Pass

/-- What makes a pass lead from its source language into its target language: the terminals
mean the same in both, and each clause of the source language is kept, or has a rule that makes
a form of the target language out of whatever has the shape of the clause there. -/
structure WellTyped (p : Pass) : Prop where
  source_grounded : p.source.Grounded
  target_grounded : p.target.Grounded
  same_terminals : ∀ name, p.source.terminal? name = p.target.terminal? name
  tail_quantified : ∀ e ∈ p.source.entries, e.clause.AllTailQuantified
  verbatim_closed : ∀ e ∈ p.source.entries, e.verbatim = true →
    ∀ name ∈ e.clause.terminalNames, p.source.terminal? name ≠ some .expression
  kept_or_ruled : ∀ e ∈ p.source.entries,
    (p.rules.get? e.id = none ∧ e ∈ p.target.entries) ∨
      ∃ rule, p.rules.get? e.id = some rule ∧
        ∀ u, p.target.fits e.clause u = true → p.target.accepts (rule u) = true

variable {p : Pass}

theorem WellTyped.holds_eq (h : p.WellTyped) {name : String}
    (hn : p.source.terminal? name ≠ some .expression) :
    p.source.holds name = p.target.holds name := by
  funext t
  unfold Language.holds Language.holdsGiven
  rw [← h.same_terminals name]
  rcases hx : p.source.terminal? name with _ | terminal
  · rfl
  · cases terminal with
    | expression => exact absurd hx hn
    | _ => rfl

/-- A clause that names no form has the same trees in both languages. -/
theorem WellTyped.fits_eq (h : p.WellTyped) {c : Clause}
    (hc : ∀ name ∈ c.terminalNames, p.source.terminal? name ≠ some .expression) (t : Tree) :
    p.source.fits c t = p.target.fits c t := by
  apply Clause.fits_congr_names
  intro name hn
  exact h.holds_eq (hc name hn)

/-- Only what a list clause takes is rebuilt. -/
theorem rebuild_of_not_isList (l : Language) {c : Clause} (hc : c.isList = false) (t : Tree)
    (items : List Clause → List Tree) : l.rebuild c t items = t := by
  cases t with
  | atom a => rfl
  | list old => cases c <;> simp_all [Clause.isList, Language.rebuild, Language.captures,
      Clause.captures]

/-- In the target language, a tree whose items have been transformed has the shape of each list
clause that the tree before had in the source language. -/
def RebuildsInto (p : Pass) (t : Tree) (items : List Clause → List Tree) : Prop :=
  ∀ body q, (Clause.list body q).AllTailQuantified → p.source.fits (.list body q) t = true →
    p.target.fits (.list body q) (p.source.rebuild (.list body q) t items) = true

theorem WellTyped.fits_rebuild (h : p.WellTyped) {e : Entry} (he : e ∈ p.source.entries)
    {t : Tree} {items : List Clause → List Tree} (hr : p.RebuildsInto t items)
    (hf : p.source.fits e.clause t = true) :
    p.target.fits e.clause (p.source.rebuild e.clause t items) = true := by
  have htail := h.tail_quantified e he
  have hground := h.source_grounded e he
  cases hc : e.clause with
  | list body q =>
    rw [hc] at htail hf
    exact hr body q htail hf
  | group body q =>
    rw [hc] at hf
    simp [Language.fits, Clause.fits] at hf
  | literal name q =>
    rw [hc] at hf
    rw [rebuild_of_not_isList p.source rfl]
    exact hf
  | terminal name q =>
    rw [hc] at hf hground
    rw [rebuild_of_not_isList p.source rfl, ← h.fits_eq _ t]
    · exact hf
    · simpa [Clause.terminalNames, Language.isLeftRecursive] using hground

/-- Before its rule is applied, a form has the shape of its clause in the target language. -/
theorem WellTyped.fits_before_rule (h : p.WellTyped) {t : Tree} {e : Entry}
    (he : p.source.entryOf? t = some e) {items : List Clause → List Tree}
    (hr : p.RebuildsInto t items) :
    p.target.fits e.clause (if e.verbatim then t else p.source.rebuild e.clause t items) =
      true := by
  obtain ⟨hmem, hf⟩ := Language.entryOf?_spec he
  split
  · rename_i hv
    rw [← h.fits_eq (h.verbatim_closed e hmem hv)]
    exact hf
  · exact h.fits_rebuild hmem hr hf

/-- What becomes of a form of the source language is a form of the target language. -/
theorem WellTyped.accepts_convertForm (h : p.WellTyped) {t : Tree} {e : Entry}
    (he : p.source.entryOf? t = some e) {items : List Clause → List Tree}
    (hr : p.RebuildsInto t items) :
    p.target.accepts (p.source.convertForm p.rules e t items) = true := by
  have hfit := h.fits_before_rule he hr
  unfold Language.convertForm RuleTable.apply
  rcases h.kept_or_ruled e (Language.entryOf?_spec he).1 with
    ⟨hrule, hkept⟩ | ⟨rule, hrule, hinto⟩
  · rw [hrule, Language.accepts_eq_any h.target_grounded]
    exact List.any_eq_true.mpr ⟨e, hkept, hfit⟩
  · rw [hrule]
    exact hinto _ hfit

theorem WellTyped.fits_convertTaken (h : p.WellTyped) {t : Tree}
    {items : List Clause → List Tree} (hr : p.RebuildsInto t items) {c : Clause}
    (hc : c.AllTailQuantified) (hf : p.source.fits c t = true) :
    p.target.fits c (p.source.convertTaken p.rules c t items) = true := by
  cases c with
  | list body q => exact hr body q hc hf
  | group body q => simp [Language.fits, Clause.fits] at hf
  | literal name q => exact hf
  | terminal name q =>
    unfold Language.convertTaken
    simp only
    split
    · rename_i hx
      have hsource : p.source.accepts t = true := by
        simpa [Language.fits, Clause.fits, Language.holds, Language.holdsGiven, hx,
          Terminal.holds] using hf
      rw [Language.accepts_eq_isSome h.source_grounded] at hsource
      obtain ⟨e, he⟩ := Option.isSome_iff_exists.mp hsource
      have htarget := h.accepts_convertForm he hr
      rw [h.same_terminals] at hx
      simpa [Language.fits, Clause.fits, Language.holds, Language.holdsGiven, hx,
        Terminal.holds, he] using htarget
    · rename_i hx
      rw [← h.fits_eq (by simpa [Clause.terminalNames] using hx)]
      exact hf

/-! ## Transformation, from the inside out -/

/-- Items that match a word in the source language match it in the target language once they
are transformed. -/
theorem matched_transformAll {word : List Clause} {items : List Tree}
    (hm : Clause.Matched p.source.holds word items) (hw : ∀ c ∈ word, c.AllTailQuantified)
    (hi : ∀ t ∈ items, ∀ c : Clause, c.AllTailQuantified → p.source.fits c t = true →
      p.target.fits c (p.source.transform p.rules t c) = true) :
    Clause.Matched p.target.holds word (p.source.transformAll p.rules items word) := by
  induction hm with
  | nil => exact .nil
  | @cons c t cs ts hct _ ih =>
    rw [Language.transformAll]
    refine .cons (hi t (by simp) c (hw c (by simp)) hct) ?_
    apply ih
    · intro d hd
      exact hw d (by simp [hd])
    · intro u hu
      exact hi u (by simp [hu])

theorem rebuildsInto_list {items : List Tree}
    (hi : ∀ t ∈ items, ∀ c : Clause, c.AllTailQuantified → p.source.fits c t = true →
      p.target.fits c (p.source.transform p.rules t c) = true) :
    p.RebuildsInto (.list items) (p.source.transformAll p.rules items) := by
  intro body q hb hf
  obtain ⟨word, hword⟩ := Clause.fits_list_iff.mp hf
  obtain ⟨hspells, hm⟩ := Clause.captures_explained hword
  have htail : Clause.tailQuantified body = true := hb body (by simp [Clause.listBodies])
  have hwords : ∀ c ∈ word, c.AllTailQuantified := by
    intro c hc b hmem
    have hinside := Clause.spellsAll_listBodies hspells c hc hmem
    apply hb
    simpa [Clause.listBodies] using .inr hinside
  have hm' := matched_transformAll hm hwords hi
  have hcapt : p.source.captures (.list body q) items = some word := hword
  simp only [Language.rebuild, hcapt]
  refine Clause.fits_list_iff.mpr ⟨word, Clause.captures_eq_some_iff.mpr ?_⟩
  exact Clause.takeAll_of_tailQuantified htail hspells hm'

theorem rebuildsInto_atom (a : Atom) (items : List Clause → List Tree) :
    p.RebuildsInto (.atom a) items := by
  intro body q _ hf
  simp [Language.fits, Clause.fits, Clause.coversTree] at hf

/-- Whatever a clause took in the source language has the shape of the clause in the target
language once it is transformed. -/
theorem WellTyped.fits_transform (h : p.WellTyped) {t : Tree} {c : Clause}
    (hc : c.AllTailQuantified) (hf : p.source.fits c t = true) :
    p.target.fits c (p.source.transform p.rules t c) = true := by
  induction t generalizing c with
  | atom a => exact h.fits_convertTaken (rebuildsInto_atom a _) hc hf
  | list items ih =>
    exact h.fits_convertTaken (rebuildsInto_list fun t ht c hc hf => ih t ht hc hf) hc hf

theorem WellTyped.rebuildsInto (h : p.WellTyped) (t : Tree) :
    p.RebuildsInto t (p.source.transformItems p.rules t) := by
  cases t with
  | atom a => exact rebuildsInto_atom a _
  | list items => exact rebuildsInto_list fun t _ c hc hf => h.fits_transform hc hf

/-- A form without a rule of its own keeps the shape of its clause. -/
theorem WellTyped.fits_transformForm (h : p.WellTyped) {t : Tree} {e : Entry}
    (he : p.source.entryOf? t = some e) (hrule : p.rules.get? e.id = none) :
    p.target.fits e.clause (p.source.transformForm p.rules e t) = true := by
  have hfit := h.fits_before_rule he (h.rebuildsInto t)
  unfold Language.transformForm Language.convertForm RuleTable.apply
  rw [hrule]
  exact hfit

theorem WellTyped.accepts_transformForm (h : p.WellTyped) {t : Tree} {e : Entry}
    (he : p.source.entryOf? t = some e) :
    p.target.accepts (p.source.transformForm p.rules e t) = true :=
  h.accepts_convertForm he (h.rebuildsInto t)

/-! ## Passes in a row -/

/-- Well-typed passes, each from the language that the one before leads to. -/
def Chained : Language → List Pass → Prop
  | _, [] => True
  | l, p :: ps => p.source = l ∧ p.WellTyped ∧ Chained p.target ps

/-- Passes in a row never fail on a tree of the first language. -/
theorem Chained.foldlM_run {l : Language} {ps : List Pass} (h : Chained l ps) {t : Tree}
    (ht : l.accepts t = true) :
    ∃ u, ps.foldlM (fun t p => p.run t) t = .ok u ∧
      ((ps.getLast?.map (·.target)).getD l).accepts u = true := by
  induction ps generalizing l t with
  | nil => exact ⟨t, rfl, ht⟩
  | cons p ps ih =>
    obtain ⟨rfl, hp, hps⟩ := h
    rw [Language.accepts_eq_isSome hp.source_grounded] at ht
    obtain ⟨e, he⟩ := Option.isSome_iff_exists.mp ht
    have hrun : p.run t = .ok (p.source.transformForm p.rules e t) := by
      unfold run
      rw [he]
    obtain ⟨u, hu, hacc⟩ := ih hps (hp.accepts_transformForm he)
    refine ⟨u, ?_, ?_⟩
    · rw [List.foldlM_cons, hrun]
      exact hu
    · cases hlast : ps.getLast? <;> simpa [List.getLast?_cons, hlast] using hacc

end Pass

namespace Pipeline

open Pass (Chained)

/-- Passes in a row give a tree of the last language. -/
theorem run_of_accepts {p : Pipeline} (h : Chained p.base p.passes) {t : Tree}
    (ht : p.base.accepts t = true) : ∃ u, p.run t = .ok u ∧ p.current.accepts u = true := by
  obtain ⟨u, hu, hacc⟩ := h.foldlM_run ht
  refine ⟨u, ?_, hacc⟩
  unfold run checkOutput
  rw [hu]
  cases hlast : p.passes.getLast? with
  | none => rfl
  | some last =>
    have htarget : last.target.accepts u = true := by simpa [hlast] using hacc
    exact if_pos htarget

/-- What is not in the base language fails at the first pass. -/
theorem run_of_not_accepts {p : Pipeline} {first : Pass} {rest : List Pass}
    (hp : p.passes = first :: rest) (hg : first.source.Grounded) {t : Tree}
    (ht : first.source.accepts t = false) : p.run t = .error (.inputMismatch first.name t) := by
  rw [Language.accepts_eq_isSome hg, Option.isSome_eq_false_iff, Option.isNone_iff_eq_none] at ht
  have hrun : first.run t = .error (.inputMismatch first.name t) := by
    unfold Pass.run
    rw [ht]
  unfold run
  rw [hp, List.foldlM_cons, hrun]
  rfl

end Pipeline

end TreePasses
