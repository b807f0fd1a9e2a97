-- The trees of the four languages, in four rules. The first three languages have the same trees;
-- in the last one, a function without parameters has one form in its body.
import TreePasses.Proofs.Programs

namespace TreePasses.Surface

/-- The trees of the last language: programs in which a function without parameters has one form in
its body. -/
inductive CoreProgram : Tree → Prop where
  | atom (a : Atom) : CoreProgram (.atom a)
  | quoted (d : Tree) : CoreProgram (quoteTree d)
  | thunk {t : Tree} (h : CoreProgram t) : CoreProgram (fnTree [] [t])
  | items {ts : List Tree} (hne : ts ≠ []) (h : ∀ t ∈ ts, CoreProgram t) : CoreProgram (.list ts)

theorem CoreProgram.program {t : Tree} (h : CoreProgram t) : Program t := by
  induction h with
  | atom a => exact .atom a
  | quoted d => exact .quoted d
  | thunk _ ih => exact .thunk (by simp) (by simpa using ih)
  | items hne _ ih => exact .items hne ih

section

variable {n : Nat} {g : Stage}

/-- As long as the body of a function may have more forms than one, a language accepts every
program. -/
theorem Program.accepts {t : Tree} (h : Program t) (hg : g.oneInFn = false) :
    (g.language n).accepts t = true := by
  induction h with
  | atom a => exact accepts_atom a
  | quoted d => exact accepts_quoteTree d
  | thunk hne _ ih => exact accepts_fnTree hne ih (by simp [hg])
  | items hne _ ih => exact accepts_list hne ih

theorem accepts_iff_program {t : Tree} (hg : g.oneInFn = false) :
    (g.language n).accepts t = true ↔ Program t :=
  ⟨program_of_accepts, fun h => h.accepts hg⟩

theorem CoreProgram.accepts {t : Tree} (h : CoreProgram t) : (g.language n).accepts t = true := by
  induction h with
  | atom a => exact accepts_atom a
  | quoted d => exact accepts_quoteTree d
  | thunk _ ih => exact accepts_fnTree (by simp) (by simpa using ih) fun _ => rfl
  | items hne _ ih => exact accepts_list hne ih

theorem core_of_accepts {t : Tree} (h : (Stage.singleFn.language n).accepts t = true) :
    CoreProgram t := by
  induction t with
  | atom a => exact .atom a
  | list items ih =>
    rcases accepts_items_cases h with ⟨d, rfl⟩ | ⟨body, -, single, hbody, heq⟩ | ⟨hne, hitems⟩
    · exact .quoted d
    · cases heq
      obtain ⟨t, rfl⟩ := List.length_eq_one_iff.mp (single rfl)
      exact .thunk (ih t (by simp) (hbody t (by simp)))
    · exact .items hne fun t ht => ih t ht (hitems t ht)

theorem accepts_iff_core {t : Tree} :
    (Stage.singleFn.language n).accepts t = true ↔ CoreProgram t :=
  ⟨core_of_accepts, CoreProgram.accepts⟩

end

/-! ## The laws -/

/-- The surface language and the targets of the first two passes accept the programs, and nothing
else. The language of the last pass accepts those programs in which a function without parameters
has one form in its body. -/
theorem each_language_accepts_the_trees_of_four_rules (s s' : Supply) :
    ∃ base p ifs lets fns, (language.run.run s).1 = .ok base ∧ (compiler.run.run s').1 = .ok p ∧
      p.passes = [ifs, lets, fns] ∧ ifs.name = "remove-one-armed-if" ∧
      lets.name = "explicit-do-in-let" ∧ fns.name = "explicit-do-in-fn" ∧
      ∀ t, (base.accepts t = true ↔ Program t) ∧ (p.base.accepts t = true ↔ Program t) ∧
        (ifs.target.accepts t = true ↔ Program t) ∧ (lets.target.accepts t = true ↔ Program t) ∧
        (fns.target.accepts t = true ↔ CoreProgram t) ∧
        (fns.target.accepts t = true → base.accepts t = true) := by
  refine ⟨_, _, Step.ifs.pass s'.created, Step.lets.pass s'.created, Step.fns.pass s'.created,
    by rw [language_run], by rw [compiler_run], rfl, rfl, rfl, rfl, fun t => ?_⟩
  have hbase : (Stage.surface.language s.created).accepts t = true ↔ Program t :=
    accepts_iff_program rfl
  have hcore : (Stage.singleFn.language s'.created).accepts t = true ↔ CoreProgram t :=
    accepts_iff_core
  refine ⟨hbase, accepts_iff_program rfl, accepts_iff_program rfl, accepts_iff_program rfl, hcore,
    ?_⟩
  intro h
  exact hbase.mpr (hcore.mp h).program

end TreePasses.Surface
