-- What a pass does to the atoms of a tree. A list is put together again from all its items in their
-- order, so as long as no rule loses, doubles or moves an atom, no pass does. The compiler only
-- puts in the two symbols that its rules are for.
import TreePasses.Proofs.Desugaring
import TreePasses.Proofs.RuleCalls
import TreePasses.Proofs.TreeText

namespace TreePasses

/-! ## Lists with something put in -/

/-- The second list is the first with elements put in anywhere, all of them of one kind. -/
inductive Padded {α : Type} (extra : α → Prop) : List α → List α → Prop where
  | nil : Padded extra [] []
  | keep {a : α} {as bs : List α} (h : Padded extra as bs) : Padded extra (a :: as) (a :: bs)
  | put {a : α} {as bs : List α} (ha : extra a) (h : Padded extra as bs) : Padded extra as (a :: bs)

namespace Padded

variable {α : Type} {extra : α → Prop} {as bs cs ds : List α}

theorem refl (as : List α) : Padded extra as as := by
  induction as with
  | nil => exact .nil
  | cons a as ih => exact .keep ih

theorem append (h : Padded extra as bs) (h' : Padded extra cs ds) :
    Padded extra (as ++ cs) (bs ++ ds) := by
  induction h with
  | nil => exact h'
  | keep _ ih => exact .keep ih
  | put ha _ ih => exact .put ha ih

theorem trans (h : Padded extra as bs) (h' : Padded extra bs cs) : Padded extra as cs := by
  induction h' generalizing as with
  | nil => exact h
  | put ha _ ih => exact .put ha (ih h)
  | keep _ ih =>
    cases h with
    | keep h => exact .keep (ih h)
    | put ha h => exact .put ha (ih h)

/-- If anything may be put in, the first list is any sublist. -/
theorem true_iff_sublist : Padded (fun _ => True) as bs ↔ as.Sublist bs := by
  constructor
  · intro h
    induction h with
    | nil => exact .slnil
    | keep _ ih => exact .cons_cons _ ih
    | put _ _ ih => exact .cons _ ih
  · intro h
    induction h with
    | slnil => exact .nil
    | cons _ _ ih => exact .put trivial ih
    | cons_cons _ _ ih => exact .keep ih

end Padded

/-! ## Passes -/

/-- The rules only put in atoms of one kind. -/
def RuleTable.Pads (rules : RuleTable) (extra : Atom → Prop) : Prop :=
  ∀ id rule, rules.get? id = some rule → ∀ t : Tree, Padded extra t.atoms (rule t).atoms

variable {extra : Atom → Prop}

theorem RuleTable.Pads.apply {rules : RuleTable} (h : rules.Pads extra) (id : ClauseId) (t : Tree) :
    Padded extra t.atoms (rules.apply id t).atoms := by
  unfold RuleTable.apply
  cases hrule : rules.get? id with
  | none => exact .refl _
  | some rule => exact h id rule hrule t

namespace Language

variable {l : Language} {rules : RuleTable}

/-- A list that is put together from as many clauses as it has items loses none of them. -/
theorem padded_transformAll {items : List Tree} {word : List Clause}
    (hlength : word.length = items.length)
    (h : ∀ t ∈ items, ∀ c, Padded extra t.atoms (l.transform rules t c).atoms) :
    Padded extra (Tree.allAtoms items) (Tree.allAtoms (l.transformAll rules items word)) := by
  induction items generalizing word with
  | nil => exact .nil
  | cons t ts ih =>
    obtain ⟨ht, hts⟩ := List.forall_mem_cons.mp h
    cases word with
    | nil => cases hlength
    | cons c cs => exact (ht c).append (ih (Nat.succ.inj hlength) hts)

section

variable {t : Tree}
  (hlist : ∀ body q, Padded extra t.atoms (l.transform rules t (.list body q)).atoms)

include hlist

theorem padded_transformForm (hrules : rules.Pads extra) (e : Entry) :
    Padded extra t.atoms (l.transformForm rules e t).atoms := by
  have hready : Padded extra t.atoms (l.ready rules e t).atoms := by
    cases hv : e.verbatim with
    | true =>
      rw [ready_of_verbatim hv]
      exact .refl _
    | false =>
      cases hc : e.clause with
      | list body q =>
        rw [ready_of_list hv hc]
        exact hlist body q
      | _ =>
        rw [ready_of_not_isList (by rw [hc]; rfl)]
        exact .refl _
  rw [transformForm_eq]
  exact hready.trans (hrules.apply _ _)

theorem padded_transform_of_list (hrules : rules.Pads extra) (c : Clause) :
    Padded extra t.atoms (l.transform rules t c).atoms := by
  have hself : l.transform rules t c = t → Padded extra t.atoms (l.transform rules t c).atoms := by
    intro h
    rw [h]
    exact .refl _
  cases c with
  | list body q => exact hlist body q
  | group body q => exact hself (by cases t <;> rfl)
  | literal name q => exact hself (by cases t <;> rfl)
  | terminal name q =>
    by_cases hname : l.terminal? name = some .expression
    · cases he : l.entryOf? t with
      | none => exact hself (by cases t <;> simp [transform, convertTaken, he])
      | some e =>
        rw [transform_expression hname q he]
        exact padded_transformForm hlist hrules e
    · exact hself (by cases t <;> simp [transform, convertTaken, hname])

end

/-- Whatever takes a tree, transforming it puts in no more than the rules do. -/
theorem padded_transform (hrules : rules.Pads extra) (t : Tree) (c : Clause) :
    Padded extra t.atoms (l.transform rules t c).atoms := by
  induction t generalizing c with
  | atom a => exact padded_transform_of_list (fun _ _ => .refl _) hrules c
  | list items ih =>
    refine padded_transform_of_list (fun body q => ?_) hrules c
    cases hword : l.captures (.list body q) items with
    | none =>
      rw [transform_not_captured hword]
      exact .refl _
    | some word =>
      rw [transform_captured hword]
      exact padded_transformAll (length_of_captures hword) fun t ht c => ih t ht c

end Language

namespace Pass

theorem padded_run {p : Pass} (hrules : p.rules.Pads extra) {t u : Tree} (h : p.run t = .ok u) :
    Padded extra t.atoms u.atoms := by
  obtain ⟨e, he⟩ := (p.source.accepts_iff_entryOf? t).mp (accepts_of_run h)
  rw [run, he] at h
  cases h
  exact Language.padded_transformForm (fun _ _ => Language.padded_transform hrules t _) hrules e

theorem Leads.padded {ps : List Pass} {t : Tree} {us : List Tree} (h : Leads ps t us)
    (hrules : ∀ p ∈ ps, p.rules.Pads extra) : Padded extra t.atoms (us.getLastD t).atoms := by
  induction h with
  | nil t => exact .refl _
  | cons hrun _ ih =>
    obtain ⟨hp, hps⟩ := List.forall_mem_cons.mp hrules
    rw [List.getLastD_cons]
    exact (padded_run hp hrun).trans (ih hps)

end Pass

theorem Pipeline.padded_run {p : Pipeline} (hrules : ∀ pass ∈ p.passes, pass.rules.Pads extra)
    {t u : Tree} (h : p.run t = .ok u) : Padded extra t.atoms u.atoms := by
  obtain ⟨us, hus, rfl, -⟩ := Pipeline.run_eq_ok_iff.mp h
  exact hus.padded hrules

/-! ## The compiler -/

namespace Surface

/-- The symbols that the passes of the compiler put in. -/
def IsPutIn (a : Atom) : Prop := a = .symbol "nil" ∨ a = .symbol "do"

theorem padded_append_nil (t : Tree) :
    Padded IsPutIn t.atoms (Tree.append (.symbol "nil") t).atoms := by
  cases t with
  | atom a => exact .refl _
  | list items =>
    have hnil : Padded IsPutIn [] [.symbol "nil"] := .put (.inl rfl) .nil
    have hatoms := (Padded.refl (Tree.allAtoms items)).append hnil
    rw [List.append_nil] at hatoms
    rwa [Tree.append, Tree.mapItems, Tree.atoms, Tree.atoms, Tree.allAtoms_append]

theorem padded_groupBody (t : Tree) : Padded IsPutIn t.atoms (groupBody t).atoms := by
  cases t with
  | atom a => exact .refl _
  | list items =>
    match items with
    | [] => exact .refl _
    | [_] => exact .refl _
    | [_, _] => exact .refl _
    | [_, _, _] => exact .refl _
    | head :: bindings :: first :: second :: rest =>
      have hbody : Padded IsPutIn (Tree.allAtoms (first :: second :: rest))
          (Tree.allAtoms [.list (.symbol "do" :: first :: second :: rest)]) := by
        rw [Tree.allAtoms_singleton]
        exact .put (.inr rfl) (.refl _)
      exact (Padded.refl head.atoms).append ((Padded.refl bindings.atoms).append hbody)

theorem Step.pads (n : Nat) (k : Step) : (k.pass n).rules.Pads IsPutIn := by
  intro id rule hrule t
  have hrule : rule = k.rule := by
    unfold RuleTable.get? Step.pass at hrule
    rw [List.lookup_cons, List.lookup_nil] at hrule
    split at hrule
    · exact (Option.some.inj hrule).symm
    · cases hrule
  subst hrule
  cases k with
  | ifs => exact padded_append_nil t
  | lets => exact padded_groupBody t
  | fns => exact padded_groupBody t

end Surface

/-! ## The laws -/

/-- No atom is lost, doubled or moved. The atoms of a program are those of what the compiler makes
of it without some of the symbols `nil` and `do`; and if no rule of a pass loses, doubles or moves
an atom, no run of the pass does, whatever its language and its rules are. -/
theorem Surface.compiling_keeps_the_atoms_in_order :
    (∀ (s : Supply) (p : Pipeline), (compiler.run.run s).1 = .ok p →
      ∀ t, p.base.accepts t = true →
        ∃ u, p.run t = .ok u ∧ Padded IsPutIn t.atoms u.atoms) ∧
    ∀ p : Pass, (∀ id rule, p.rules.get? id = some rule →
        ∀ t : Tree, t.atoms.Sublist (rule t).atoms) →
      ∀ t, p.source.accepts t = true → ∃ u, p.run t = .ok u ∧ t.atoms.Sublist u.atoms := by
  constructor
  · intro s p hp t ht
    rw [compiler_run] at hp
    cases hp
    have hrun : (pipeline s.created).run t = .ok (compiled s.created t) := by
      rw [pipeline_run_eq]
      exact if_pos ht
    have hpads : ∀ pass ∈ (pipeline s.created).passes, pass.rules.Pads IsPutIn := by
      intro pass hpass
      simp only [pipeline, List.mem_cons, List.not_mem_nil, or_false] at hpass
      rcases hpass with rfl | rfl | rfl
      · exact Step.pads _ _
      · exact Step.pads _ _
      · exact Step.pads _ _
    exact ⟨_, hrun, Pipeline.padded_run hpads hrun⟩
  · intro p hrules t ht
    have hpads : p.rules.Pads fun _ => True := by
      intro id rule hrule t
      exact Padded.true_iff_sublist.mpr (hrules id rule hrule t)
    cases hrun : p.run t with
    | error err =>
      rw [(Pass.run_eq_error_iff.mp hrun).1] at ht
      cases ht
    | ok u => exact ⟨u, rfl, Padded.true_iff_sublist.mp (Pass.padded_run hpads hrun)⟩

/-- Puts each conditional into a list after a mark. -/
def Pass.marking : Pass where
  name := "marking"
  source := conditionals
  target := conditionals
  rules := ⟨[(⟨2⟩, Tree.wrap (.symbol "mark"))]⟩

/-- A `let` that is none at first loses nothing on the way, and neither do conditionals in one
another. -/
theorem Surface.a_loose_let_and_marked_conditionals_keep_their_atoms :
    ((compiler.run.run ⟨0⟩).1 = .ok (pipeline 0) ∧ (pipeline 0).base.accepts looseLet = true ∧
      (pipeline 0).run looseLet = .ok tightLet ∧ Padded IsPutIn looseLet.atoms tightLet.atoms) ∧
    (∀ id rule, Pass.marking.rules.get? id = some rule →
      ∀ t : Tree, t.atoms.Sublist (rule t).atoms) ∧
    Pass.marking.source.accepts Pass.nested = true ∧
    ∃ u, Pass.marking.run Pass.nested = .ok u ∧ Pass.nested.atoms.Sublist u.atoms := by
  have hp : (compiler.run.run ⟨0⟩).1 = .ok (pipeline 0) := by rw [compiler_run]
  have hlet : (pipeline 0).base.accepts looseLet = true := by decide +kernel
  have hrun : (pipeline 0).run looseLet = .ok tightLet := by decide +kernel
  have hrules : ∀ id rule, Pass.marking.rules.get? id = some rule →
      ∀ t : Tree, t.atoms.Sublist (rule t).atoms := by
    intro id rule hrule t
    unfold RuleTable.get? Pass.marking at hrule
    rw [List.lookup_cons, List.lookup_nil] at hrule
    split at hrule
    · cases hrule
      simp [Tree.wrap, Tree.atoms, Tree.allAtoms]
    · cases hrule
  have hnested : Pass.marking.source.accepts Pass.nested = true := by decide +kernel
  obtain ⟨u, hu, hpadded⟩ := compiling_keeps_the_atoms_in_order.1 ⟨0⟩ (pipeline 0) hp looseLet hlet
  cases hu.symm.trans hrun
  exact ⟨⟨hp, hlet, hrun, hpadded⟩, hrules, hnested,
    compiling_keeps_the_atoms_in_order.2 Pass.marking hrules Pass.nested hnested⟩

end TreePasses
