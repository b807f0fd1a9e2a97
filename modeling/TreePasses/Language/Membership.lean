-- Membership by one clause: a tree belongs to a language if it has the shape of one of the
-- clauses, where the forms inside it belong to the language in the same way.
import TreePasses.Clause.Taking
import TreePasses.Language.Editing

namespace TreePasses.Language

/-- No clause is a name alone that stands for any form. -/
def Grounded (l : Language) : Prop := ∀ e ∈ l.entries, l.isLeftRecursive e.clause = false

theorem holdsGiven_congr (l : Language) {accepts accepts' : Tree → Bool} (name : String)
    {t : Tree} (h : accepts t = accepts' t) :
    l.holdsGiven accepts name t = l.holdsGiven accepts' name t := by
  simp only [holdsGiven]
  split
  · rename_i terminal _
    cases terminal <;> simp [Terminal.holds, h]
  · rfl

/-- Whether a tree has the shape of a clause does not change if membership changes only on
trees that are not lower, unless the clause stands for any form. -/
theorem fits_holdsGiven_congr (l : Language) {accepts accepts' : Tree → Bool} {c : Clause}
    {t : Tree} (hc : l.isLeftRecursive c = false)
    (h : ∀ u, u.height < t.height → accepts u = accepts' u) :
    c.fits (l.holdsGiven accepts) t = c.fits (l.holdsGiven accepts') t := by
  cases c with
  | list body q =>
    cases t with
    | atom a => rfl
    | list items =>
      simp only [Clause.fits, Clause.coversTree]
      rw [Clause.takeAll_congr (n := Tree.heights items)
        (fun name u hu => l.holdsGiven_congr name (h u (Nat.lt_succ_of_le hu))) body items
        fun u hu => Tree.height_le_heights hu]
  | group body q => rfl
  | literal name q => rfl
  | terminal name q =>
    simp only [isLeftRecursive, decide_eq_false_iff_not] at hc
    simp only [Clause.fits, holdsGiven]
    split
    · rename_i terminal ht
      cases terminal with
      | expression => exact absurd ht hc
      | _ => rfl
    · rfl

/-- Two tests that agree on all entries agree on whether some entry passes. -/
theorem any_entry_congr {l : Language} {p q : Entry → Bool} (h : ∀ e ∈ l.entries, p e = q e) :
    l.entries.any p = l.entries.any q := by
  rw [Bool.eq_iff_iff, List.any_eq_true, List.any_eq_true]
  constructor
  · rintro ⟨e, he, hp⟩
    exact ⟨e, he, h e he ▸ hp⟩
  · rintro ⟨e, he, hq⟩
    exact ⟨e, he, h e he ▸ hq⟩

/-- Looking deeper than a tree is high does not change whether it belongs. -/
theorem acceptsWithin_eq_accepts {l : Language} (hl : l.Grounded) {depth : Nat} {t : Tree}
    (h : t.height ≤ depth) : l.acceptsWithin depth t = l.accepts t := by
  induction depth using Nat.strongRecOn generalizing t with
  | ind depth ih =>
    obtain ⟨n, hn⟩ : ∃ n, t.height = n + 1 := ⟨t.height - 1, by have := t.height_pos; omega⟩
    obtain ⟨d, rfl⟩ : ∃ d, depth = d + 1 := ⟨depth - 1, by omega⟩
    simp only [accepts, hn, acceptsWithin]
    refine any_entry_congr fun e he => fits_holdsGiven_congr l (hl e he) fun u hu => ?_
    rw [ih d (by omega) (by omega), ih n (by omega) (by omega)]

/-- A tree belongs to a language if it has the shape of one of its clauses. -/
theorem accepts_eq_any {l : Language} (hl : l.Grounded) (t : Tree) :
    l.accepts t = l.entries.any fun e => l.fits e.clause t := by
  rw [← acceptsWithin_eq_accepts hl (Nat.le_succ t.height)]
  simp only [acceptsWithin]
  exact any_entry_congr fun e he => fits_holdsGiven_congr l (hl e he) fun u hu =>
    acceptsWithin_eq_accepts hl (Nat.le_of_lt hu)

/-- A tree belongs to a language if some entry says what form it is. -/
theorem accepts_eq_isSome {l : Language} (hl : l.Grounded) (t : Tree) :
    l.accepts t = (l.entryOf? t).isSome := by
  rw [accepts_eq_any hl, entryOf?, List.isSome_find?]

/-- The first entry that fits is one of the entries, and fits. -/
theorem entryOf?_spec {l : Language} {t : Tree} {e : Entry} (h : l.entryOf? t = some e) :
    e ∈ l.entries ∧ l.fits e.clause t = true := by
  refine ⟨List.mem_of_find?_eq_some h, ?_⟩
  simpa using List.find?_some h

end TreePasses.Language
