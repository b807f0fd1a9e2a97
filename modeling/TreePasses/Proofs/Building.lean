-- What building does, step by step: a clause that nothing keeps out goes into a language under
-- the next id, a clause that is there comes out, and a pass is made of such steps.
import TreePasses.Pass.Pipeline
import Mathlib.Data.List.Forall2

namespace TreePasses

namespace Build

/-- A step that goes well hands its result and the ids left over to the next one. -/
theorem run_bind_of_ok {α β : Type} {x : Build α} {f : α → Build β} {s s' : Supply} {a : α}
    (h : x.run.run s = (.ok a, s')) : (x >>= f).run.run s = (f a).run.run s' := by
  have hx : x s = (.ok a, s') := h
  simp only [bind, ExceptT.bind, ExceptT.mk, ExceptT.run, StateT.run, StateT.bind, hx]
  rfl

/-- A step that fails ends the building, and the ids that it has spent stay spent. -/
theorem run_bind_of_error {α β : Type} {x : Build α} {f : α → Build β} {s s' : Supply}
    {e : GrammarError} (h : x.run.run s = (.error e, s')) :
    (x >>= f).run.run s = (.error e, s') := by
  have hx : x s = (.error e, s') := h
  simp only [bind, ExceptT.bind, ExceptT.mk, ExceptT.run, StateT.run, StateT.bind, hx]
  rfl

theorem run_map_of_ok {α β : Type} {x : Build α} {f : α → β} {s s' : Supply} {a : α}
    (h : x.run.run s = (.ok a, s')) : (f <$> x).run.run s = (.ok (f a), s') :=
  run_bind_of_ok h

theorem run_ofExcept {α : Type} (a : α) (s : Supply) :
    (Build.ofExcept (.ok a)).run.run s = (.ok a, s) := rfl

end Build

namespace Clause

theorem signature_eq_iff {c d : Clause} : c.signature = d.signature ↔ c.chars = d.chars := by
  unfold signature
  constructor
  · intro h
    simpa using congrArg String.toList h
  · intro h
    rw [h]

end Clause

namespace Language

/-- The clauses of a language, in order. -/
def clauses (l : Language) : List Clause := l.entries.map (·.clause)

/-- Whether a clause may be put beside others: each name in it stands for something, it is no
name alone that stands for any form, and none of the others reads the same. -/
def admits (l : Language) (others : List Clause) (c : Clause) : Bool :=
  c.terminalNames.all (fun name => (l.terminal? name).isSome) && !l.isLeftRecursive c &&
    others.all (fun d => d.chars ≠ c.chars)

/-- Nothing keeps a clause out if each name in it stands for something, it is no name alone that
stands for any form, and its signature is new. -/
theorem objection?_eq_none_iff {l : Language} {c : Clause} :
    l.objection? c = none ↔ (∀ name ∈ c.terminalNames, (l.terminal? name).isSome = true) ∧
      l.isLeftRecursive c = false ∧ c.signature ∉ l.signatures := by
  have hfind : c.terminalNames.find? (fun name => l.terminal? name = none) = none ↔
      ∀ name ∈ c.terminalNames, (l.terminal? name).isSome = true := by
    simp [Option.isSome_iff_ne_none]
  unfold objection?
  rw [← hfind]
  cases c.terminalNames.find? (fun name => l.terminal? name = none) with
  | some name => simp
  | none => cases l.isLeftRecursive c <;> simp

theorem objection?_eq_none {l : Language} {c : Clause} (h : l.admits l.clauses c = true) :
    l.objection? c = none := by
  simp only [admits, Bool.and_eq_true, Bool.not_eq_true', List.all_eq_true,
    decide_eq_true_eq] at h
  obtain ⟨⟨hnames, hrec⟩, hothers⟩ := h
  have hfresh : c.signature ∉ l.signatures := by
    intro hmem
    obtain ⟨e, he, heq⟩ := List.mem_map.mp hmem
    exact hothers e.clause (List.mem_map.mpr ⟨e, he, rfl⟩) (Clause.signature_eq_iff.mp heq)
  exact objection?_eq_none_iff.mpr ⟨hnames, hrec, hfresh⟩

theorem admissible_eq_ok_iff {l : Language} {pattern : String} {c : Clause} :
    l.admissible pattern = .ok c ↔ clauseOf pattern = .ok c ∧ l.objection? c = none := by
  unfold admissible
  cases clauseOf pattern with
  | error e => simp [bind, Except.bind]
  | ok d =>
    simp only [bind, Except.bind, Except.ok.injEq]
    constructor
    · intro h
      split at h
      · cases h
      · rename_i hnone
        cases h
        exact ⟨rfl, hnone⟩
    · rintro ⟨rfl, hnone⟩
      rw [hnone]

section

variable {l : Language} {pattern : String} {c : Clause} (verbatim : Bool)

theorem newEntry_of_ok (h : l.admissible pattern = .ok c) (s : Supply) :
    (l.newEntry pattern verbatim).run.run s = (.ok ⟨s.next, c, verbatim⟩, s.spend) := by
  unfold newEntry
  rw [h]
  rfl

theorem newEntry_of_error {e : GrammarError} (h : l.admissible pattern = .error e) (s : Supply) :
    (l.newEntry pattern verbatim).run.run s = (.error e, s) := by
  unfold newEntry
  rw [h]
  rfl

/-- A clause that nothing keeps out goes in before all others, under the next id. -/
theorem prepend_of_ok (h : l.admissible pattern = .ok c) (s : Supply) :
    (l.prepend pattern verbatim).run.run s =
      (.ok (s.next, { l with entries := ⟨s.next, c, verbatim⟩ :: l.entries }), s.spend) := by
  unfold prepend
  rw [Build.run_bind_of_ok (newEntry_of_ok verbatim h s)]
  rfl

theorem prepend_of_error {e : GrammarError} (h : l.admissible pattern = .error e) (s : Supply) :
    (l.prepend pattern verbatim).run.run s = (.error e, s) :=
  Build.run_bind_of_error (newEntry_of_error verbatim h s)

/-- A clause that nothing keeps out goes in after all others, under the next id. -/
theorem append_of_ok (h : l.admissible pattern = .ok c) (s : Supply) :
    (l.append pattern verbatim).run.run s =
      (.ok { l with entries := l.entries ++ [⟨s.next, c, verbatim⟩] }, s.spend) := by
  unfold append
  rw [Build.run_bind_of_ok (newEntry_of_ok verbatim h s)]
  rfl

theorem append_of_error {e : GrammarError} (h : l.admissible pattern = .error e) (s : Supply) :
    (l.append pattern verbatim).run.run s = (.error e, s) :=
  Build.run_bind_of_error (newEntry_of_error verbatim h s)

end

theorem admissible_of_admits {l : Language} {pattern : String} {c : Clause}
    (hread : clauseOf pattern = .ok c) (hc : l.admits l.clauses c = true) :
    l.admissible pattern = .ok c :=
  admissible_eq_ok_iff.mpr ⟨hread, objection?_eq_none hc⟩

/-! ## Clauses that are there -/

theorem signature_ne_of_all {before : List Entry} {e : Entry}
    (hb : before.all (fun x => x.clause.chars ≠ e.clause.chars) = true) :
    ∀ x ∈ before, x.signature ≠ e.signature := by
  intro x hx
  have hchars := List.all_eq_true.mp hb x hx
  unfold Entry.signature
  rw [Ne, Clause.signature_eq_iff]
  exact of_decide_eq_true hchars

/-- A pattern stands for the first entry that reads like it. -/
theorem entryFor_eq_ok (l : Language) {pattern : String} (before : List Entry) (e : Entry)
    (after : List Entry) (hread : clauseOf pattern = .ok e.clause)
    (hl : l.entries = before ++ e :: after)
    (hb : before.all (fun x => x.clause.chars ≠ e.clause.chars) = true) :
    l.entryFor pattern = .ok e := by
  have hnone : before.find? (fun x => x.signature = e.clause.signature) = none := by
    rw [List.find?_eq_none]
    intro x hx hsame
    exact signature_ne_of_all hb x hx (of_decide_eq_true hsame)
  simp only [entryFor, hread, bind, Except.bind, hl, List.find?_append, hnone]
  simp [Entry.signature]

/-- Taking out a clause leaves all others in their order. -/
theorem erase_eq_ok (l : Language) {pattern : String} (before : List Entry) (e : Entry)
    (after : List Entry) (hread : clauseOf pattern = .ok e.clause)
    (hl : l.entries = before ++ e :: after)
    (hb : before.all (fun x => x.clause.chars ≠ e.clause.chars) = true) :
    l.erase pattern = .ok (e, { l with entries := before ++ after }) := by
  have hdiff := signature_ne_of_all hb
  simp only [erase, entryFor_eq_ok l before e after hread hl hb, bind, Except.bind, pure,
    Except.pure, hl]
  rw [List.eraseP_append_right _ (by simpa using hdiff)]
  simp

/-! ## Many clauses -/

/-- Whether clauses may be put beside others one after the other. -/
def admitsAll (l : Language) : List Clause → List Clause → Bool
  | _, [] => true
  | others, c :: cs => l.admits others c && l.admitsAll (others ++ [c]) cs

/-- The clauses that are there already play no part in what names stand for. -/
theorem admitsAll_with_entries (l : Language) (entries : List Entry)
    (others clauses : List Clause) :
    admitsAll { l with entries } others clauses = l.admitsAll others clauses := by
  induction clauses generalizing others with
  | nil => rfl
  | cons c cs ih =>
    rw [admitsAll, admitsAll, ih]
    rfl

/-- Entries for clauses, under the ids from a number of spent ids on. -/
def numbered : Nat → List (Clause × Bool) → List Entry
  | _, [] => []
  | n, (clause, verbatim) :: rows => ⟨⟨n.toUInt32⟩, clause, verbatim⟩ :: numbered (n + 1) rows

/-- Clauses that nothing keeps out go in one after the other, under the next ids. -/
theorem append_all_run {rows : List (String × Bool)} {clauses : List Clause}
    (hread : List.Forall₂ (fun row c => clauseOf row.1 = .ok c) rows clauses) (l : Language)
    (hc : l.admitsAll l.clauses clauses = true) (s : Supply) :
    (rows.foldlM (fun l row => l.append row.1 row.2) l : Build Language).run.run s =
      (.ok { l with entries := l.entries ++ numbered s.created (clauses.zip (rows.map (·.2))) },
        ⟨s.created + rows.length⟩) := by
  induction hread generalizing l s with
  | nil =>
    rw [List.foldlM_nil]
    simp [numbered]
    rfl
  | @cons row c rows clauses hrow _ ih =>
    simp only [admitsAll, Bool.and_eq_true] at hc
    rw [List.foldlM_cons,
      Build.run_bind_of_ok (append_of_ok row.2 (admissible_of_admits hrow hc.1) s), ih]
    · simp [numbered, Supply.next, Supply.spend, Nat.add_right_comm, Nat.add_assoc]
    · rw [admitsAll_with_entries]
      simpa [Language.clauses] using hc.2

end Language

/-! ## Passes -/

namespace PassDefinition

theorem pass_run {d : PassDefinition} {source target : Language} {rules : RuleTable}
    {s s' : Supply} (hr : d.table source = .ok rules)
    (ht : (d.target source).run.run s = (.ok target, s')) :
    (d.pass source).run.run s = (.ok ⟨d.name, source, target, rules⟩, s') := by
  unfold pass
  rw [hr, Build.run_bind_of_ok (Build.run_ofExcept rules s), Build.run_bind_of_ok ht]
  rfl

/-- A definition with one rule has that rule under the id of its clause. -/
theorem table_eq_ok {d : PassDefinition} {source : Language} {pattern : String} {rule : Rule}
    {e : Entry} (hd : d.rules = [(pattern, rule)]) (he : source.entryFor pattern = .ok e) :
    d.table source = .ok ⟨[(e.id, rule)]⟩ := by
  unfold table insertRule
  rw [hd]
  simp [he, RuleTable.contains, RuleTable.get?, RuleTable.insert, RuleTable.empty, bind,
    Except.bind, pure, Except.pure]

section

variable {d : PassDefinition} {pattern : String} {rule : Rule}
variable (source : Language) (before : List Entry) (e : Entry) (after : List Entry)

/-- A pass that takes out the clause that it has a rule for. -/
theorem pass_run_of_removal (hrules : d.rules = [(pattern, rule)])
    (hremovals : d.removals = [pattern]) (hadditions : d.additions = [])
    (hread : Language.clauseOf pattern = .ok e.clause)
    (hl : source.entries = before ++ e :: after)
    (hb : before.all (fun x => x.clause.chars ≠ e.clause.chars) = true) (s : Supply) :
    (d.pass source).run.run s =
      (.ok ⟨d.name, source, { source with name := d.name, entries := before ++ after },
        ⟨[(e.id, rule)]⟩⟩, s) := by
  have herase := Language.erase_eq_ok (source.renamed d.name) before e after hread hl hb
  have hentry := Language.entryFor_eq_ok source before e after hread hl hb
  refine pass_run (table_eq_ok hrules hentry) ?_
  unfold target
  simp only [hremovals, hadditions, List.foldlM_cons, List.foldlM_nil, List.reverse_nil, herase]
  rfl

/-- A pass that puts another clause in place of the one that it has a rule for. -/
theorem pass_run_of_exchange {added : String} {verbatim : Bool} (c : Clause)
    (hrules : d.rules = [(pattern, rule)]) (hremovals : d.removals = [pattern])
    (hadditions : d.additions = [(added, verbatim)])
    (hread : Language.clauseOf pattern = .ok e.clause)
    (hl : source.entries = before ++ e :: after)
    (hb : before.all (fun x => x.clause.chars ≠ e.clause.chars) = true)
    (hadd : Language.clauseOf added = .ok c)
    (hc : source.admits ((before ++ after).map (·.clause)) c = true) (s : Supply) :
    (d.pass source).run.run s =
      (.ok ⟨d.name, source, { source with
          name := d.name, entries := ⟨s.next, c, verbatim⟩ :: (before ++ after) },
        ⟨[(e.id, rule)]⟩⟩, s.spend) := by
  have herase := Language.erase_eq_ok (source.renamed d.name) before e after hread hl hb
  have hkept : d.removals.foldlM (fun l pattern => (·.2) <$> l.erase pattern)
      (source.renamed d.name) = .ok { source.renamed d.name with entries := before ++ after } := by
    rw [hremovals, List.foldlM_cons, herase]
    rfl
  have hentry := Language.entryFor_eq_ok source before e after hread hl hb
  refine pass_run (table_eq_ok hrules hentry) ?_
  unfold target
  rw [hkept, Build.run_bind_of_ok (Build.run_ofExcept _ s), hadditions, List.reverse_singleton,
    List.foldlM_cons, Build.run_bind_of_ok (Build.run_map_of_ok
      (Language.prepend_of_ok verbatim (Language.admissible_of_admits hadd hc) s))]
  rfl

end

end PassDefinition

theorem Pipeline.add_run {p : Pipeline} {d : PassDefinition} {pass : Pass} {s s' : Supply}
    (h : (d.pass p.current).run.run s = (.ok pass, s')) :
    (p.add d).run.run s = (.ok { p with passes := p.passes ++ [pass] }, s') := by
  unfold add
  rw [Build.run_bind_of_ok h]
  rfl

end TreePasses
