-- What a language accepts does not depend on the order of its clauses, although the first one that
-- fits says what form a tree is. Names, ids, and which entries are verbatim play no part either.
import TreePasses.Language.Membership
import TreePasses.Proofs.SurfaceShapes

namespace TreePasses

namespace Language

/-- Two languages have the same clauses, in any order, and each name stands for the same. -/
structure Reorders (l l' : Language) : Prop where
  terminals : ∀ name, l.terminals.lookup name = l'.terminals.lookup name
  clauses : l.clauses.Perm l'.clauses

namespace Reorders

variable {l l' : Language} (h : l.Reorders l')
include h

theorem terminal?_eq (name : String) : l.terminal? name = l'.terminal? name := by
  unfold terminal?
  rw [h.terminals]

theorem holdsGiven_eq (accepts : Tree → Bool) : l.holdsGiven accepts = l'.holdsGiven accepts := by
  funext name t
  unfold holdsGiven
  rw [h.terminal?_eq]

/-- Some entry passes a test of its clause in both languages or in neither. -/
theorem any_entries_eq (test : Clause → Bool) :
    (l.entries.any fun e => test e.clause) = l'.entries.any fun e => test e.clause := by
  have hany := h.clauses.any_eq (f := test)
  rwa [Language.clauses, Language.clauses, List.any_map, List.any_map] at hany

/-- The two languages are asked about the same trees, one level after the other. -/
theorem acceptsWithin_eq (depth : Nat) : l.acceptsWithin depth = l'.acceptsWithin depth := by
  induction depth with
  | zero => rfl
  | succ depth ih =>
    funext t
    rw [acceptsWithin, acceptsWithin, ih, h.holdsGiven_eq]
    exact h.any_entries_eq fun c => c.fits (l'.holdsGiven (l'.acceptsWithin depth)) t

theorem accepts_eq : l.accepts = l'.accepts := by
  funext t
  rw [accepts, accepts, h.acceptsWithin_eq]

theorem holds_eq : l.holds = l'.holds := by
  rw [holds, holds, h.accepts_eq, h.holdsGiven_eq]

end Reorders

/-! ## The laws -/

/-- Two languages with the same clauses in any order, and with the same terminals, accept the same
trees, and each clause fits the same trees and takes the same items in the same way. -/
theorem acceptance_does_not_depend_on_the_order (l l' : Language)
    (hterminals : ∀ name, l.terminals.lookup name = l'.terminals.lookup name)
    (hclauses : l.clauses.Perm l'.clauses) :
    (∀ t, l.accepts t = l'.accepts t ∧ (l.entryOf? t).isSome = (l'.entryOf? t).isSome) ∧
      (∀ c t, l.fits c t = l'.fits c t) ∧
      ∀ c items, l.captures c items = l'.captures c items := by
  have h : l.Reorders l' := ⟨hterminals, hclauses⟩
  have hfits : ∀ c t, l.fits c t = l'.fits c t := by
    intro c t
    rw [fits, fits, h.holds_eq]
  refine ⟨fun t => ⟨congrFun h.accepts_eq t, ?_⟩, hfits, ?_⟩
  · simp only [entryOf?, List.isSome_find?, hfits]
    exact h.any_entries_eq fun c => l'.fits c t
  · intro c items
    rw [captures, captures, h.holds_eq]

end Language

namespace Surface

/-- The surface language from back to front, with other ids, and verbatim where it is not. -/
def backwards : Language :=
  ⟨"backwards", (Stage.surface.entries 0).reverse.map fun e =>
    ⟨⟨e.id.index + 20⟩, e.clause, !e.verbatim⟩, terminals.reverse⟩

/-- A `let` is another form when the clauses are tried from back to front, and still a form. -/
theorem the_surface_language_accepts_a_let_backwards :
    (∀ name, (Stage.surface.language 0).terminals.lookup name = backwards.terminals.lookup name) ∧
      (Stage.surface.language 0).clauses.Perm backwards.clauses ∧
      ∃ t, ((Stage.surface.language 0).entryOf? t).map (·.clause) = some letForm ∧
        (backwards.entryOf? t).map (·.clause) = some application ∧
        (Stage.surface.language 0).accepts t = true ∧ backwards.accepts t = true := by
  have hclauses : (Stage.surface.language 0).clauses.Perm backwards.clauses := by
    have hreverse : backwards.clauses = (Stage.surface.language 0).clauses.reverse := by
      simp [backwards, Language.clauses, Stage.language, Function.comp_def]
    rw [hreverse]
    exact (List.reverse_perm _).symm
  obtain ⟨hsame, -⟩ := Language.acceptance_does_not_depend_on_the_order
    (Stage.surface.language 0) backwards (fun _ => rfl) hclauses
  have hacc : (Stage.surface.language 0).accepts (letTree [("x", .symbol "y")] [.symbol "x"]) =
      true := by decide +kernel
  exact ⟨fun _ => rfl, hclauses, _, by decide +kernel, by decide +kernel, hacc,
    (hsame _).1 ▸ hacc⟩

end Surface

end TreePasses
