-- The laws of what the compiler takes: well-typed passes never lose a form, the passes of the
-- compiler are well typed, and so the compiler takes the whole surface language and refuses
-- everything else at its first pass.
import TreePasses.Proofs.Conversion
import TreePasses.Proofs.PassTyping

namespace TreePasses.Surface

/-! ## The rules make forms of the target language -/

section

variable {n : Nat} {g : Stage}

theorem accepts_of_mem_wrapBody {body : List Tree}
    (h : ∀ t ∈ body, (g.language n).accepts t = true) :
    ∀ t ∈ wrapBody body, (g.language n).accepts t = true := by
  intro t ht
  rcases mem_wrapBody ht with ht | rfl
  · exact h t ht
  · exact accepts_list (by simp) (List.forall_mem_cons.mpr ⟨accepts_atom _, h⟩)

theorem accepts_append_nil {u : Tree}
    (h : (Stage.twoArmed.language n).fits ifThen u = true) :
    (Stage.twoArmed.language n).accepts (Tree.append (.symbol "nil") u) = true := by
  cases u with
  | atom a => cases h
  | list items =>
    obtain ⟨word, hword⟩ := Clause.fits_list_iff.mp h
    obtain ⟨a, b, ha, hb, rfl, -⟩ := captures_ifThen_iff.mp hword
    apply accepts_list (by simp)
    intro t ht
    simp only [List.cons_append, List.nil_append, List.mem_cons, List.not_mem_nil, or_false] at ht
    rcases ht with rfl | rfl | rfl | rfl
    · exact accepts_atom _
    · exact ha
    · exact hb
    · exact accepts_atom _

theorem accepts_groupBody_let {u : Tree} (h : (Stage.singleLet.language n).fits letForm u = true) :
    (Stage.singleLet.language n).accepts (groupBody u) = true := by
  cases u with
  | atom a => cases h
  | list items =>
    obtain ⟨word, hword⟩ := Clause.fits_list_iff.mp h
    obtain ⟨bs, body, hbs, values, hbody, forms, rfl, -⟩ := captures_let_iff.mp hword
    have hne : body ≠ [] := ne_nil_of_allows (q := .oneOrMore) nofun hbody
    rw [groupBody_eq]
    exact accepts_letTree hbs (wrapBody_ne_nil hne) values (accepts_of_mem_wrapBody forms)
      fun _ => length_wrapBody hne

theorem accepts_groupBody_fn {u : Tree} (h : (Stage.singleFn.language n).fits fnForm u = true) :
    (Stage.singleFn.language n).accepts (groupBody u) = true := by
  cases u with
  | atom a => cases h
  | list items =>
    obtain ⟨word, hword⟩ := Clause.fits_list_iff.mp h
    obtain ⟨ps, body, hbody, forms, rfl, -⟩ := captures_fn_iff.mp hword
    have hne : body ≠ [] := ne_nil_of_allows (q := .oneOrMore) nofun hbody
    rw [groupBody_eq]
    exact accepts_fnTree (wrapBody_ne_nil hne) (accepts_of_mem_wrapBody forms)
      fun _ => length_wrapBody hne

end

/-! ## The passes are well typed -/

/-- On the way, no list repeats but at its end. -/
theorem allTailQuantified {n : Nat} {g : Stage} {e : Entry} (he : e ∈ g.entries n) :
    e.clause.AllTailQuantified := by
  have hall : ((g.entries n).all fun e => e.clause.listBodies.all Clause.tailQuantified) =
      true := by
    cases g <;> rfl
  exact fun body hb => List.all_eq_true.mp (List.all_eq_true.mp hall e he) body hb

namespace Step

variable (n : Nat) (k : Step)

theorem accepts_rule {u : Tree} (h : (k.target.language n).fits k.ruledClause u = true) :
    (k.target.language n).accepts (k.rule u) = true := by
  cases k with
  | ifs => exact accepts_append_nil h
  | lets => exact accepts_groupBody_let h
  | fns => exact accepts_groupBody_fn h

theorem wellTyped : (k.pass n).WellTyped where
  source_grounded := grounded
  target_grounded := grounded
  same_terminals := fun _ => rfl
  tail_quantified := fun _ he => allTailQuantified he
  verbatim_closed := by
    have hall : ((k.source.entries n).all fun e => !e.verbatim || e.clause.terminalNames.all
        fun name => (k.source.language n).terminal? name ≠ some .expression) = true := by
      cases k <;> rfl
    intro e he hv name hname
    have hnames := List.all_eq_true.mp hall e he
    simp only [hv, Bool.not_true, Bool.false_or] at hnames
    exact of_decide_eq_true (List.all_eq_true.mp hnames name hname)
  kept_or_ruled := by
    intro e he
    have hget := get?_eq he
    by_cases hc : e.clause = k.ruledClause
    · rw [if_pos hc] at hget
      exact .inr ⟨k.rule, hget, fun u hu => k.accepts_rule n (hc ▸ hu)⟩
    · rw [if_neg hc] at hget
      exact .inl ⟨hget, mem_target he hc⟩

end Step

theorem pipeline_chained (n : Nat) : Pass.Chained (pipeline n).base (pipeline n).passes :=
  ⟨rfl, Step.ifs.wellTyped n, rfl, Step.lets.wellTyped n, rfl, Step.fns.wellTyped n, trivial⟩

end TreePasses.Surface

/-! ## The laws -/

namespace TreePasses

/-- A well-typed pass takes every form of its source language, and gives a form of its target
language for it. -/
theorem Pass.a_well_typed_pass_leads_into_its_target (p : Pass) (h : p.WellTyped) (t : Tree)
    (ht : p.source.accepts t = true) :
    ∃ u, p.run t = .ok u ∧ p.target.accepts u = true := by
  rw [Language.accepts_eq_isSome h.source_grounded] at ht
  obtain ⟨e, he⟩ := Option.isSome_iff_exists.mp ht
  refine ⟨p.source.transformForm p.rules e t, ?_, h.accepts_transformForm he⟩
  unfold run
  rw [he]

namespace Surface

/-- A `let` in a binding of another `let`, each with two forms in its body. -/
def nestedLets : Tree :=
  letTree [("x", letTree [("y", .symbol "z")] [.symbol "y", .symbol "y"])]
    [.symbol "x", fnTree [] [.symbol "x"]]

theorem the_pass_for_let_takes_nested_lets :
    (Step.lets.pass 0).WellTyped ∧ (Step.lets.pass 0).source.accepts nestedLets = true ∧
      ∃ u, (Step.lets.pass 0).run nestedLets = .ok u ∧
        (Step.lets.pass 0).target.accepts u = true := by
  have ht : (Step.lets.pass 0).source.accepts nestedLets = true := by decide +kernel
  exact ⟨Step.lets.wellTyped 0, ht,
    Pass.a_well_typed_pass_leads_into_its_target _ (Step.lets.wellTyped 0) nestedLets ht⟩

/-- The compiler is always built. It takes exactly the trees of the surface language, and what
comes out is in the language of its last pass. Any other tree fails at the first pass, so no tree
fails later. -/
theorem the_compiler_takes_exactly_the_surface_language (s s' : Supply) :
    ∃ l p, (language.run.run s).1 = .ok l ∧ (compiler.run.run s').1 = .ok p ∧
      ∀ t, ((∃ u, p.run t = .ok u) ↔ l.accepts t = true) ∧
        (∀ u, p.run t = .ok u → p.current.accepts u = true) ∧
        (l.accepts t = false → p.run t = .error (.inputMismatch "remove-one-armed-if" t)) ∧
        ∀ err, p.run t = .error err → err = .inputMismatch "remove-one-armed-if" t ∧
          err.message = "pass `remove-one-armed-if`: tree does not belong to this pass's grammar: "
            ++ t.text := by
  refine ⟨_, _, by rw [language_run], by rw [compiler_run], ?_⟩
  intro t
  have hsame : (Stage.surface.language s.created).accepts t =
      (Stage.surface.language s'.created).accepts t := by
    rw [Bool.eq_iff_iff, surface_accepts_iff, surface_accepts_iff]
  rw [hsame]
  cases hacc : (Stage.surface.language s'.created).accepts t with
  | true =>
    obtain ⟨u, hu, hcurrent⟩ := Pipeline.run_of_accepts (pipeline_chained s'.created) hacc
    refine ⟨⟨fun _ => rfl, fun _ => ⟨u, hu⟩⟩, ?_, nofun, ?_⟩
    · intro v hv
      rw [hu] at hv
      cases hv
      exact hcurrent
    · intro err herr
      rw [hu] at herr
      cases herr
  | false =>
    have hpasses : (pipeline s'.created).passes = Step.ifs.pass s'.created ::
        [Step.lets.pass s'.created, Step.fns.pass s'.created] := rfl
    have hrun : (pipeline s'.created).run t = .error (.inputMismatch "remove-one-armed-if" t) :=
      Pipeline.run_of_not_accepts hpasses grounded hacc
    have hnone : ∀ u, (pipeline s'.created).run t ≠ .ok u := by
      intro u hu
      rw [hrun] at hu
      cases hu
    refine ⟨⟨?_, nofun⟩, ?_, fun _ => hrun, ?_⟩
    · rintro ⟨u, hu⟩
      exact absurd hu (hnone u)
    · intro u hu
      exact absurd hu (hnone u)
    · intro err herr
      rw [hrun] at herr
      cases herr
      exact ⟨rfl, rfl⟩

end Surface

end TreePasses
