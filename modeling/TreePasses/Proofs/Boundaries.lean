-- The boundaries of a pipeline: each pass starts from the language that the one before leads to,
-- however the pipeline came about. A pass refuses what is not in its source language, so only the
-- last boundary needs a check of its own, and a run that fails names the boundary where it failed.
import TreePasses.Language.Membership
import TreePasses.Proofs.Building
import TreePasses.Tree.Edit

namespace TreePasses

/-! ## Membership in any language -/

namespace Language

/-- A name alone that stands for any form fits the forms. -/
theorem fits_of_isLeftRecursive {l : Language} {c : Clause} (hc : l.isLeftRecursive c = true)
    (accepts : Tree → Bool) (t : Tree) : c.fits (l.holdsGiven accepts) t = accepts t := by
  cases c with
  | terminal name q =>
    have hname : l.terminal? name = some .expression := of_decide_eq_true hc
    simp [Clause.fits, holdsGiven, hname, Terminal.holds]
  | _ => cases hc

/-- One level more than enough changes nothing: a clause that is a name alone for any form only
repeats what has been found one level before. -/
theorem acceptsWithin_succ_iff {l : Language} {depth : Nat} {t : Tree}
    (h : ∀ u, u.height < t.height → l.acceptsWithin (depth + 1) u = l.acceptsWithin depth u) :
    l.acceptsWithin (depth + 2) t = true ↔ l.acceptsWithin (depth + 1) t = true := by
  constructor
  · intro hacc
    obtain ⟨e, he, hfits⟩ := List.any_eq_true.mp hacc
    by_cases hrec : l.isLeftRecursive e.clause = true
    · rwa [fits_of_isLeftRecursive hrec] at hfits
    · rw [fits_holdsGiven_congr l (eq_false_of_ne_true hrec) h] at hfits
      exact List.any_eq_true.mpr ⟨e, he, hfits⟩
  · intro hacc
    obtain ⟨e, he, hfits⟩ := List.any_eq_true.mp hacc
    refine List.any_eq_true.mpr ⟨e, he, ?_⟩
    by_cases hrec : l.isLeftRecursive e.clause = true
    · rwa [fits_of_isLeftRecursive hrec]
    · rwa [fits_holdsGiven_congr l (eq_false_of_ne_true hrec) h]

theorem acceptsWithin_of_height_le (l : Language) {depth : Nat} {t : Tree}
    (h : t.height ≤ depth) : l.acceptsWithin depth t = l.accepts t := by
  induction depth using Nat.strongRecOn generalizing t with
  | ind depth ih =>
    rcases Nat.eq_or_lt_of_le h with heq | hlt
    · rw [← heq, accepts]
    · have hpos := t.height_pos
      obtain ⟨d, rfl⟩ : ∃ d, depth = d + 2 := ⟨depth - 2, by omega⟩
      rw [← ih (d + 1) (by omega) (by omega), Bool.eq_iff_iff]
      apply acceptsWithin_succ_iff
      intro u hu
      rw [ih (d + 1) (by omega) (by omega), ih d (by omega) (by omega)]

/-- A tree belongs to a language, whichever it is, if some entry says what form it is. -/
theorem accepts_iff_entryOf? (l : Language) (t : Tree) :
    l.accepts t = true ↔ ∃ e, l.entryOf? t = some e := by
  rw [← acceptsWithin_of_height_le l (Nat.le_succ t.height), ← Option.isSome_iff_exists, entryOf?,
    List.isSome_find?, ← Bool.eq_iff_iff]
  refine any_entry_congr fun e _ => ?_
  by_cases hrec : l.isLeftRecursive e.clause = true
  · rw [fits, holds, fits_of_isLeftRecursive hrec, fits_of_isLeftRecursive hrec, accepts]
  · exact fits_holdsGiven_congr l (eq_false_of_ne_true hrec) fun u hu =>
      acceptsWithin_of_height_le l (Nat.le_of_lt hu)

end Language

/-! ## Passes in turn -/

namespace Pass

theorem run_eq_error_iff {p : Pass} {t : Tree} {err : RunError} :
    p.run t = .error err ↔ p.source.accepts t = false ∧ err = .inputMismatch p.name t := by
  rw [← Bool.not_eq_true, Language.accepts_iff_entryOf?]
  unfold run
  cases p.source.entryOf? t with
  | none => simp [eq_comm]
  | some e => simp

/-- What a pass takes is in its source language. -/
theorem accepts_of_run {p : Pass} {t u : Tree} (h : p.run t = .ok u) :
    p.source.accepts t = true := by
  by_contra hacc
  rw [run_eq_error_iff.mpr ⟨eq_false_of_ne_true hacc, rfl⟩] at h
  cases h

/-- Passes take a tree in turn, each the result of the one before. What each of them gives is
listed. -/
inductive Leads : List Pass → Tree → List Tree → Prop where
  | nil (t : Tree) : Leads [] t []
  | cons {p : Pass} {ps : List Pass} {t u : Tree} {us : List Tree} (h : p.run t = .ok u)
      (hs : Leads ps u us) : Leads (p :: ps) t (u :: us)

theorem foldlM_run_eq_ok_iff {ps : List Pass} {t u : Tree} :
    ps.foldlM (fun t p => p.run t) t = .ok u ↔ ∃ us, Leads ps t us ∧ us.getLastD t = u := by
  induction ps generalizing t with
  | nil =>
    constructor
    · intro h
      cases h
      exact ⟨[], .nil _, rfl⟩
    · rintro ⟨us, hus, rfl⟩
      cases hus
      rfl
  | cons p ps ih =>
    rw [List.foldlM_cons]
    constructor
    · intro h
      cases hrun : p.run t with
      | error err =>
        rw [hrun] at h
        cases h
      | ok v =>
        rw [hrun] at h
        obtain ⟨us, hus, hlast⟩ := ih.mp h
        exact ⟨v :: us, .cons hrun hus, by rwa [List.getLastD_cons]⟩
    · rintro ⟨us, hus, hlast⟩
      cases hus with
      | cons hrun hus =>
        rw [hrun]
        exact ih.mpr ⟨_, hus, by rwa [List.getLastD_cons] at hlast⟩

/-- Passes in turn fail where one of them refuses what those before it gave. -/
theorem foldlM_run_eq_error_iff {ps : List Pass} {t : Tree} {err : RunError} :
    ps.foldlM (fun t p => p.run t) t = .error err ↔ ∃ before p after us,
      ps = before ++ p :: after ∧ Leads before t us ∧ p.run (us.getLastD t) = .error err := by
  induction ps generalizing t with
  | nil =>
    constructor
    · intro h
      cases h
    · rintro ⟨before, p, after, us, hps, -⟩
      cases before <;> cases hps
  | cons p ps ih =>
    rw [List.foldlM_cons]
    constructor
    · intro h
      cases hrun : p.run t with
      | error other =>
        rw [hrun] at h
        cases h
        exact ⟨[], p, ps, [], rfl, .nil t, hrun⟩
      | ok v =>
        rw [hrun] at h
        obtain ⟨before, q, after, us, rfl, hus, herr⟩ := ih.mp h
        exact ⟨p :: before, q, after, v :: us, rfl, .cons hrun hus, by rwa [List.getLastD_cons]⟩
    · rintro ⟨before, q, after, us, hps, hus, herr⟩
      cases hus with
      | nil =>
        cases hps
        rw [List.getLastD_nil] at herr
        rw [herr]
        rfl
      | cons hrun hus =>
        cases hps
        rw [hrun]
        exact ih.mpr ⟨_, q, after, _, rfl, hus, by rwa [List.getLastD_cons] at herr⟩

end Pass

/-! ## Links -/

namespace Pipeline

theorem current_cons (base : Language) (pass : Pass) (passes : List Pass) :
    current ⟨base, pass :: passes⟩ = current ⟨pass.target, passes⟩ := by
  cases hlast : passes.getLast? <;> simp [current, List.getLast?_cons, hlast]

/-- Each pass starts from the language that the one before leads to, and the first one from the
base language. -/
def Linked : Language → List Pass → Prop
  | _, [] => True
  | base, pass :: passes => pass.source = base ∧ Linked pass.target passes

theorem linked_append_iff {base : Language} {before after : List Pass} :
    Linked base (before ++ after) ↔
      Linked base before ∧ Linked (current ⟨base, before⟩) after := by
  induction before generalizing base with
  | nil => simp [Linked, current]
  | cons pass before ih => rw [List.cons_append, Linked, Linked, ih, current_cons, and_assoc]

theorem Linked.source_eq {base : Language} {before after : List Pass} {pass : Pass}
    (h : Linked base (before ++ pass :: after)) : pass.source = current ⟨base, before⟩ :=
  (linked_append_iff.mp h).2.1

/-- A pass that comes about starts from the language that it was defined over. -/
theorem source_of_pass_run {d : PassDefinition} {source : Language} {pass : Pass} {s s' : Supply}
    (h : (d.pass source).run.run s = (.ok pass, s')) : pass.source = source := by
  unfold PassDefinition.pass at h
  cases htable : d.table source with
  | error e =>
    rw [htable] at h
    cases h
  | ok rules =>
    rw [htable, Build.run_bind_of_ok (Build.run_ofExcept rules s)] at h
    rcases htarget : (d.target source).run.run s with ⟨e | target, s''⟩
    · rw [Build.run_bind_of_error htarget] at h
      cases h
    · rw [Build.run_bind_of_ok htarget] at h
      cases h
      rfl

/-- Adding a pass puts it after all others, and it starts from the current language. -/
theorem add_eq_ok {p p' : Pipeline} {d : PassDefinition} {s s' : Supply}
    (h : (p.add d).run.run s = (.ok p', s')) :
    ∃ pass, pass.source = p.current ∧ p' = ⟨p.base, p.passes ++ [pass]⟩ := by
  unfold add at h
  rcases hpass : (d.pass p.current).run.run s with ⟨e | pass, s''⟩
  · rw [Build.run_bind_of_error hpass] at h
    cases h
  · rw [Build.run_bind_of_ok hpass] at h
    cases h
    exact ⟨pass, source_of_pass_run hpass, rfl⟩

/-- A pipeline after an attempt to add a pass, given the ids that are left at that time. If the
pass does not come about, the pipeline stays as it is. -/
def attempt (p : Pipeline) (call : PassDefinition × Supply) : Pipeline :=
  match (p.add call.1).run.run call.2 with
  | (.ok p', _) => p'
  | (.error _, _) => p

/-- A pipeline over a base language after attempts to add passes, one after the other. -/
def afterAttempts (base : Language) (calls : List (PassDefinition × Supply)) : Pipeline :=
  calls.foldl attempt (.empty base)

/-- A pipeline over a base language, with each pass from where the one before leads to. -/
structure LinkedFrom (base : Language) (p : Pipeline) : Prop where
  base_eq : p.base = base
  linked : Linked base p.passes

theorem LinkedFrom.attempt {base : Language} {p : Pipeline} (h : p.LinkedFrom base)
    (call : PassDefinition × Supply) : (p.attempt call).LinkedFrom base := by
  obtain ⟨rfl, hlinked⟩ := h
  unfold Pipeline.attempt
  rcases hadd : (p.add call.1).run.run call.2 with ⟨e | p', s⟩
  · exact ⟨rfl, hlinked⟩
  · obtain ⟨pass, hsource, rfl⟩ := add_eq_ok hadd
    exact ⟨rfl, linked_append_iff.mpr ⟨hlinked, hsource, trivial⟩⟩

theorem linkedFrom_afterAttempts (base : Language) (calls : List (PassDefinition × Supply)) :
    (afterAttempts base calls).LinkedFrom base := by
  unfold afterAttempts
  have hstart : (empty base).LinkedFrom base := ⟨rfl, trivial⟩
  generalize empty base = p at hstart
  induction calls generalizing p with
  | nil => exact hstart
  | cons call calls ih => exact ih _ (hstart.attempt call)

/-! ## Passes added in place -/

/-- Building over a pipeline that is changed in place. What fails leaves the pipeline as it has made
it by then, and the ids that it has spent stay spent. -/
abbrev InPlace := ExceptT GrammarError (StateM (Pipeline × Supply))

/-- A step of building that leaves the pipeline alone. -/
def InPlace.ofBuild {α : Type} (x : Build α) : InPlace α :=
  ExceptT.mk fun (p, s) =>
    let (result, left) := x.run.run s
    (result, p, left)

/-- Adds a pass in place: first the pass is made, with its rules and its target language, and the
pipeline gets it in the last step. -/
def addInPlace (d : PassDefinition) : InPlace Unit := do
  let source := (← get).1.current
  let pass ← InPlace.ofBuild (d.pass source)
  modify fun kept => ({ kept.1 with passes := kept.1.passes ++ [pass] }, kept.2)

theorem InPlace.run_bind_of_ok {α β : Type} {x : Build α} {s s' : Supply} {a : α}
    (h : x.run.run s = (.ok a, s')) (f : α → InPlace β) (p : Pipeline) :
    (ofBuild x >>= f).run.run (p, s) = (f a).run.run (p, s') := by
  change ExceptT.bindCont f (x.run.run s).1 (p, (x.run.run s).2) = _
  rw [h]
  rfl

theorem InPlace.run_bind_of_error {α β : Type} {x : Build α} {s s' : Supply} {e : GrammarError}
    (h : x.run.run s = (.error e, s')) (f : α → InPlace β) (p : Pipeline) :
    (ofBuild x >>= f).run.run (p, s) = (.error e, (p, s')) := by
  change ExceptT.bindCont f (x.run.run s).1 (p, (x.run.run s).2) = _
  rw [h]
  rfl

/-- Adding a pass in place says whether the pass comes about, and makes of the pipeline what the
attempt to add the pass makes of it. -/
theorem addInPlace_run (p : Pipeline) (d : PassDefinition) (s : Supply) :
    (addInPlace d).run.run (p, s) =
      (((p.add d).run.run s).1.map fun _ => (), p.attempt (d, s), ((p.add d).run.run s).2) := by
  have hread : (addInPlace d).run.run (p, s) =
      (InPlace.ofBuild (d.pass p.current) >>= fun pass =>
        modify fun kept => ({ kept.1 with passes := kept.1.passes ++ [pass] }, kept.2)).run.run
        (p, s) := rfl
  rw [hread, attempt]
  rcases hpass : (d.pass p.current).run.run s with ⟨e | pass, left⟩
  · have hadd : (p.add d).run.run s = (.error e, left) := Build.run_bind_of_error hpass
    rw [InPlace.run_bind_of_error hpass, hadd]
    rfl
  · rw [InPlace.run_bind_of_ok hpass, add_run hpass]
    rfl

/-- Whatever passes are added in place, one after the other, the pipeline is the one after the
attempts to add them. -/
theorem foldl_addInPlace (base : Language) (calls : List (PassDefinition × Supply)) :
    calls.foldl (fun p call => ((addInPlace call.1).run.run (p, call.2)).2.1) (.empty base) =
      afterAttempts base calls := by
  have hstep : (fun (p : Pipeline) (call : PassDefinition × Supply) =>
      ((addInPlace call.1).run.run (p, call.2)).2.1) = attempt := by
    funext p call
    rw [addInPlace_run]
  rw [hstep, afterAttempts]

/-! ## Runs -/

/-- Where each pass starts from what the one before leads to, every tree on the way is in its
language as soon as the last one is. -/
theorem Linked.accepts_all {base : Language} {passes : List Pass} {t : Tree} {us : List Tree}
    (hlinked : Linked base passes) (hleads : Pass.Leads passes t us)
    (hlast : (current ⟨base, passes⟩).accepts (us.getLastD t) = true) :
    base.accepts t = true ∧
      List.Forall₂ (fun pass u => pass.target.accepts u = true) passes us := by
  induction hleads generalizing base with
  | nil t => exact ⟨hlast, .nil⟩
  | @cons pass passes t u us hrun _ ih =>
    obtain ⟨rfl, hlinked⟩ := hlinked
    rw [current_cons, List.getLastD_cons] at hlast
    obtain ⟨hu, hus⟩ := ih hlinked hlast
    exact ⟨Pass.accepts_of_run hrun, .cons hu hus⟩

theorem accepts_last {base : Language} {passes : List Pass} {t : Tree} {us : List Tree}
    (ht : base.accepts t = true)
    (hus : List.Forall₂ (fun pass u => pass.target.accepts u = true) passes us) :
    (current ⟨base, passes⟩).accepts (us.getLastD t) = true := by
  induction hus generalizing base t with
  | nil => exact ht
  | cons hu _ ih =>
    rw [current_cons, List.getLastD_cons]
    exact ih hu

theorem checkOutput_eq_ok_iff {p : Pipeline} {t u : Tree} :
    p.checkOutput t = .ok u ↔ t = u ∧ (p.passes = [] ∨ p.current.accepts t = true) := by
  unfold checkOutput current
  cases hlast : p.passes.getLast? with
  | none => simp [List.getLast?_eq_none_iff.mp hlast]
  | some last =>
    have hne : p.passes ≠ [] := by
      intro hnil
      simp [hnil] at hlast
    by_cases hacc : last.target.accepts t = true <;> simp [hacc, hne]

theorem checkOutput_eq_error_iff {p : Pipeline} {t : Tree} {err : RunError} :
    p.checkOutput t = .error err ↔ ∃ last, p.passes.getLast? = some last ∧
      last.target.accepts t = false ∧ err = .outputMismatch last.name t := by
  unfold checkOutput
  cases p.passes.getLast? with
  | none => simp
  | some last =>
    by_cases hacc : last.target.accepts t = true
    · simp [hacc]
    · simp [hacc, eq_comm (a := err)]

theorem run_eq_ok_iff {p : Pipeline} {t u : Tree} :
    p.run t = .ok u ↔ ∃ us, Pass.Leads p.passes t us ∧ us.getLastD t = u ∧
      (p.passes = [] ∨ p.current.accepts u = true) := by
  unfold run
  constructor
  · intro h
    cases hfold : p.passes.foldlM (fun t pass => pass.run t) t with
    | error err =>
      rw [hfold] at h
      cases h
    | ok v =>
      rw [hfold] at h
      obtain ⟨rfl, hacc⟩ := checkOutput_eq_ok_iff.mp h
      obtain ⟨us, hus, rfl⟩ := Pass.foldlM_run_eq_ok_iff.mp hfold
      exact ⟨us, hus, rfl, hacc⟩
  · rintro ⟨us, hus, hlast, hacc⟩
    rw [Pass.foldlM_run_eq_ok_iff.mpr ⟨us, hus, hlast⟩]
    exact checkOutput_eq_ok_iff.mpr ⟨rfl, hacc⟩

/-- A run fails where a pass refuses what those before it gave, or at the check of the output. -/
theorem run_eq_error_iff {p : Pipeline} {t : Tree} {err : RunError} :
    p.run t = .error err ↔
      (∃ before pass after us, p.passes = before ++ pass :: after ∧ Pass.Leads before t us ∧
        pass.run (us.getLastD t) = .error err) ∨
      ∃ us, Pass.Leads p.passes t us ∧ p.checkOutput (us.getLastD t) = .error err := by
  unfold run
  rw [← Pass.foldlM_run_eq_error_iff]
  constructor
  · intro h
    cases hfold : p.passes.foldlM (fun t pass => pass.run t) t with
    | error other =>
      rw [hfold] at h
      cases h
      exact .inl rfl
    | ok v =>
      rw [hfold] at h
      obtain ⟨us, hus, rfl⟩ := Pass.foldlM_run_eq_ok_iff.mp hfold
      exact .inr ⟨us, hus, h⟩
  · rintro (hfold | ⟨us, hus, hcheck⟩)
    · rw [hfold]
      rfl
    · rw [Pass.foldlM_run_eq_ok_iff.mpr ⟨us, hus, rfl⟩]
      exact hcheck

section

variable {base : Language} {p : Pipeline} (h : p.LinkedFrom base)
include h

theorem LinkedFrom.source_eq {before after : List Pass} {pass : Pass}
    (hpasses : p.passes = before ++ pass :: after) : pass.source = current ⟨base, before⟩ :=
  Linked.source_eq (hpasses ▸ h.linked)

theorem LinkedFrom.current_eq : p.current = current ⟨base, p.passes⟩ := by
  rw [← h.base_eq]

theorem LinkedFrom.run_eq_ok_iff {t u : Tree} :
    p.run t = .ok u ↔ ∃ us, Pass.Leads p.passes t us ∧ us.getLastD t = u ∧
      (p.passes = [] ∨ base.accepts t = true ∧
        List.Forall₂ (fun pass v => pass.target.accepts v = true) p.passes us) := by
  rw [Pipeline.run_eq_ok_iff]
  refine exists_congr fun us => and_congr_right fun hus => and_congr_right ?_
  rintro rfl
  rw [h.current_eq]
  exact or_congr_right ⟨h.linked.accepts_all hus, fun hall => accepts_last hall.1 hall.2⟩

/-- A pass refuses a tree that is not in the language that the passes before it lead to. -/
theorem LinkedFrom.run_eq_inputMismatch_iff {t u : Tree} {name : String} :
    p.run t = .error (.inputMismatch name u) ↔ ∃ before pass after us,
      p.passes = before ++ pass :: after ∧ pass.name = name ∧ Pass.Leads before t us ∧
      us.getLastD t = u ∧ (current ⟨base, before⟩).accepts u = false := by
  constructor
  · intro hrun
    rcases run_eq_error_iff.mp hrun with ⟨before, pass, after, us, hpasses, hus, herr⟩ |
      ⟨us, hus, hcheck⟩
    · obtain ⟨hrejected, hsame⟩ := Pass.run_eq_error_iff.mp herr
      cases hsame
      exact ⟨before, pass, after, us, hpasses, rfl, hus, rfl, h.source_eq hpasses ▸ hrejected⟩
    · obtain ⟨last, -, -, hsame⟩ := checkOutput_eq_error_iff.mp hcheck
      cases hsame
  · rintro ⟨before, pass, after, us, hpasses, rfl, hus, rfl, hrejected⟩
    rw [← h.source_eq hpasses] at hrejected
    exact run_eq_error_iff.mpr (.inl ⟨before, pass, after, us, hpasses, hus,
      Pass.run_eq_error_iff.mpr ⟨hrejected, rfl⟩⟩)

end

/-- Only the check after all passes refuses the output. -/
theorem run_eq_outputMismatch_iff {p : Pipeline} {t u : Tree} {name : String} :
    p.run t = .error (.outputMismatch name u) ↔ ∃ passes last us,
      p.passes = passes ++ [last] ∧ last.name = name ∧ Pass.Leads p.passes t us ∧
      us.getLastD t = u ∧ last.target.accepts u = false := by
  constructor
  · intro hrun
    rcases run_eq_error_iff.mp hrun with ⟨before, pass, after, us, -, -, herr⟩ |
      ⟨us, hus, hcheck⟩
    · cases (Pass.run_eq_error_iff.mp herr).2
    · obtain ⟨last, hlast, hrejected, hsame⟩ := checkOutput_eq_error_iff.mp hcheck
      obtain ⟨passes, hpasses⟩ := List.getLast?_eq_some_iff.mp hlast
      cases hsame
      exact ⟨passes, last, us, hpasses, rfl, hus, rfl, hrejected⟩
  · rintro ⟨passes, last, us, hpasses, rfl, hus, rfl, hrejected⟩
    have hlast : p.passes.getLast? = some last := by simp [hpasses]
    exact run_eq_error_iff.mpr (.inr ⟨us, hus,
      checkOutput_eq_error_iff.mpr ⟨last, hlast, hrejected, rfl⟩⟩)

/-! ## The laws -/

/-- However passes were added to a base language, by attempts of which some failed, each pass starts
from the language that the one before leads to. So a run that succeeds goes through trees that are
all in their languages, the first one in the base language. A pass refuses a tree exactly if the
tree that those before it gave is not in the language that they lead to, and the output is refused
exactly if the last tree is not in the last language. Either message ends with the tree. -/
theorem every_boundary_is_checked (base : Language) (calls : List (PassDefinition × Supply))
    (p : Pipeline) (hp : p = afterAttempts base calls) :
    (p.base = base ∧
      (∀ pass passes, p.passes = pass :: passes → pass.source = base) ∧
      (∀ before pass next after, p.passes = before ++ pass :: next :: after →
        next.source = pass.target) ∧
      (p.passes = [] → p.current = base) ∧
      ∀ passes last, p.passes = passes ++ [last] → p.current = last.target) ∧
    ∀ t, (∀ u, p.run t = .ok u ↔ ∃ us, Pass.Leads p.passes t us ∧ us.getLastD t = u ∧
        (p.passes = [] ∨ base.accepts t = true ∧
          List.Forall₂ (fun pass v => pass.target.accepts v = true) p.passes us)) ∧
      (∀ name u, p.run t = .error (.inputMismatch name u) ↔ ∃ before pass after us,
        p.passes = before ++ pass :: after ∧ pass.name = name ∧ Pass.Leads before t us ∧
        us.getLastD t = u ∧ (current ⟨base, before⟩).accepts u = false) ∧
      (∀ name u, p.run t = .error (.outputMismatch name u) ↔ ∃ passes last us,
        p.passes = passes ++ [last] ∧ last.name = name ∧ Pass.Leads p.passes t us ∧
        us.getLastD t = u ∧ last.target.accepts u = false) ∧
      ∀ name u,
        (RunError.inputMismatch name u).message = "pass " ++ GrammarError.marked name ++
          ": tree does not belong to this pass's grammar: " ++ u.text ∧
        (RunError.outputMismatch name u).message = "pass " ++ GrammarError.marked name ++
          ": output does not belong to the final grammar: " ++ u.text := by
  have h : p.LinkedFrom base := hp ▸ linkedFrom_afterAttempts base calls
  refine ⟨⟨h.base_eq, ?_, ?_, ?_, ?_⟩, fun t => ⟨fun u => h.run_eq_ok_iff,
    fun name u => h.run_eq_inputMismatch_iff, fun name u => run_eq_outputMismatch_iff,
    fun name u => ⟨rfl, rfl⟩⟩⟩
  · intro pass passes hpasses
    have hsplit : p.passes = [] ++ pass :: passes := hpasses
    exact h.source_eq hsplit
  · intro before pass next after hpasses
    have hsplit : p.passes = (before ++ [pass]) ++ next :: after := by simp [hpasses]
    rw [h.source_eq hsplit]
    simp [current]
  · intro hpasses
    rw [h.current_eq, hpasses]
    rfl
  · intro passes last hpasses
    simp [current, hpasses]

/-- Symbols, and lists of symbols after an `a`. -/
def marks : Language :=
  ⟨"marks", [⟨⟨0⟩, .list [.literal "a" .one, .terminal "s" .zeroOrMore] .one, false⟩,
    ⟨⟨1⟩, .terminal "s" .one, false⟩], [("s", .symbol)]⟩

/-- Three attempts. The first one takes out a clause that is not there; the second one puts a `b`
for each `a`; and the third one leaves nothing of a list. -/
def markings : List (PassDefinition × Supply) :=
  [(⟨"lost", [], ["('c s)"], []⟩, ⟨2⟩),
    (⟨"moved", [("('b s*)", false)], ["('a s*)"],
      [("('a s*)", Tree.replaceHead (.symbol "b"))]⟩, ⟨2⟩),
    (⟨"emptied", [], [], [("('b s*)", fun _ => .list [])]⟩, ⟨3⟩)]

/-- What the second pass leaves of a list is refused at the last boundary, and a list that the first
one makes is refused at the first. -/
theorem a_list_of_marks_is_refused_at_the_end :
    ∃ p moved emptied, p = afterAttempts marks markings ∧ p.passes = [moved, emptied] ∧
      moved.source = marks ∧ emptied.source = moved.target ∧
      p.run (.symbol "x") = .ok (.symbol "x") ∧ marks.accepts (.symbol "x") = true ∧
      p.run (.list [.symbol "a", .symbol "x"]) = .error (.outputMismatch "emptied" (.list [])) ∧
      emptied.target.accepts (.list []) = false ∧
      p.run (.list [.symbol "b", .symbol "x"]) =
        .error (.inputMismatch "moved" (.list [.symbol "b", .symbol "x"])) := by
  obtain ⟨⟨-, hfirst, hnext, -, -⟩, hrun⟩ := every_boundary_is_checked marks markings _ rfl
  have hnames : (afterAttempts marks markings).passes.map (·.name) = ["moved", "emptied"] := by
    decide +kernel
  obtain ⟨moved, _, hpasses, hmoved, hrest⟩ := List.map_eq_cons_iff.mp hnames
  obtain ⟨emptied, _, rfl, -, hnil⟩ := List.map_eq_cons_iff.mp hrest
  cases List.map_eq_nil_iff.mp hnil
  have hok : (afterAttempts marks markings).run (.symbol "x") = .ok (.symbol "x") := by
    decide +kernel
  have hend : (afterAttempts marks markings).run (.list [.symbol "a", .symbol "x"]) =
      .error (.outputMismatch "emptied" (.list [])) := by decide +kernel
  refine ⟨_, moved, emptied, rfl, hpasses, hfirst _ _ hpasses, hnext [] _ _ [] hpasses, hok, ?_,
    hend, ?_, ?_⟩
  · obtain ⟨us, -, -, hnone | hall⟩ := ((hrun _).1 _).mp hok
    · simp [hpasses] at hnone
    · exact hall.1
  · obtain ⟨passes, last, us, hlast, -, -, -, hrejected⟩ := ((hrun _).2.2.1 _ _).mp hend
    have hsame : last = emptied := by
      simpa [hpasses] using congrArg List.getLast? hlast.symm
    exact hsame ▸ hrejected
  · exact ((hrun _).2.1 _ _).mpr ⟨[], moved, [emptied], [], hpasses, hmoved, .nil _, rfl,
      by decide +kernel⟩

end Pipeline

end TreePasses
