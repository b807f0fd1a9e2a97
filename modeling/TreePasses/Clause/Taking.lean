-- The laws of taking: what a clause takes stands at the front of the items, one clause is
-- named for each item taken, and nothing is asked about trees that are not inside the items.
import TreePasses.Clause.Matching

namespace TreePasses.Clause

/-! ## Taking from the front -/

/-- A step takes from the front: it names one clause for each item that it takes, and leaves
the items after those. -/
def Fair (step : List Tree → Option Taken) : Prop :=
  ∀ items taken rest, step items = some (taken, rest) →
    rest = items.drop taken.length ∧ taken.length ≤ items.length

theorem takeItems_fair (c : Clause) (q : Quantifier) (test : Tree → Bool) :
    Fair (takeItems c q test) := by
  intro items taken rest h
  have hle : (items.takeWhile test).length ≤ items.length :=
    (List.takeWhile_sublist test).length_le
  cases q with
  | one =>
    cases items with
    | nil => simp [takeItems] at h
    | cons t ts =>
      simp only [takeItems] at h
      split at h
      · simp only [Option.some.injEq, Prod.mk.injEq] at h
        obtain ⟨rfl, rfl⟩ := h
        simp
      · simp at h
  | zeroOrMore =>
    simp only [takeItems, Option.some.injEq, Prod.mk.injEq] at h
    obtain ⟨rfl, rfl⟩ := h
    simpa using hle
  | oneOrMore =>
    simp only [takeItems] at h
    split at h
    · simp at h
    · simp only [Option.some.injEq, Prod.mk.injEq] at h
      obtain ⟨rfl, rfl⟩ := h
      simpa using hle

theorem takeChunks_fair {step : List Tree → Option Taken} (hs : Fair step) (items : List Tree) :
    (takeChunks step items).2 = items.drop (takeChunks step items).1.flatten.length ∧
      (takeChunks step items).1.flatten.length ≤ items.length := by
  fun_induction takeChunks step items with
  | case1 items h => simp
  | case2 items chunk rest h hlt chunks left hrec ih =>
    have ⟨hr, hl⟩ := hs _ _ _ h
    rw [hrec] at ih
    simp only [List.flatten_cons, List.length_append] at ih ⊢
    rw [hr] at ih
    simp only [List.drop_drop, List.length_drop] at ih
    exact ⟨ih.1, by omega⟩
  | case3 items chunk rest h hlt => simpa using hs _ _ _ h

theorem takeGroup_fair {step : List Tree → Option Taken} (hs : Fair step) (q : Quantifier) :
    Fair (takeGroup q step) := by
  intro items taken rest h
  have hc := takeChunks_fair hs items
  cases q with
  | one => exact hs _ _ _ h
  | zeroOrMore =>
    simp only [takeGroup, Option.some.injEq, Prod.mk.injEq] at h
    obtain ⟨rfl, rfl⟩ := h
    exact hc
  | oneOrMore =>
    simp only [takeGroup] at h
    split at h
    · simp at h
    · simp only [Option.some.injEq, Prod.mk.injEq] at h
      obtain ⟨rfl, rfl⟩ := h
      exact hc

theorem takeAll_fair_of_take {holds : String → Tree → Bool} {body : List Clause}
    (hb : ∀ c ∈ body, Fair (c.take holds)) : Fair (takeAll holds body) := by
  induction body with
  | nil =>
    intro items taken rest h
    simp only [takeAll, Option.some.injEq, Prod.mk.injEq] at h
    obtain ⟨rfl, rfl⟩ := h
    simp
  | cons c cs ih =>
    intro items taken rest h
    rw [takeAll] at h
    cases hc : c.take holds items with
    | none => simp [hc] at h
    | some first =>
      obtain ⟨xs, mid⟩ := first
      obtain ⟨rfl, hx⟩ := hb c (by simp) _ _ _ hc
      simp only [hc] at h
      cases hcs : takeAll holds cs (items.drop xs.length) with
      | none => simp [hcs] at h
      | some others =>
        obtain ⟨ys, left⟩ := others
        obtain ⟨rfl, hy⟩ := ih (fun d hd => hb d (by simp [hd])) _ _ _ hcs
        simp only [hcs, Option.some.injEq, Prod.mk.injEq] at h
        obtain ⟨rfl, rfl⟩ := h
        simp only [List.length_drop] at hy
        simp only [List.drop_drop, List.length_append]
        exact ⟨trivial, by omega⟩

/-- A clause takes from the front. -/
theorem take_fair (holds : String → Tree → Bool) (c : Clause) : Fair (c.take holds) := by
  induction c with
  | list body q _ => exact takeItems_fair _ _ _
  | group body q ih => exact takeGroup_fair (takeAll_fair_of_take ih) q
  | literal name q => exact takeItems_fair _ _ _
  | terminal name q => exact takeItems_fair _ _ _

/-- A body takes from the front. -/
theorem takeAll_fair (holds : String → Tree → Bool) (body : List Clause) :
    Fair (takeAll holds body) :=
  takeAll_fair_of_take fun c _ => take_fair holds c

/-! ## What is asked of terminals -/

theorem takeItems_congr (c : Clause) (q : Quantifier) {test test' : Tree → Bool}
    {items : List Tree} (h : ∀ t ∈ items, test t = test' t) :
    takeItems c q test items = takeItems c q test' items := by
  have hw : items.takeWhile test = items.takeWhile test' := by
    induction items with
    | nil => rfl
    | cons t ts ih =>
      rw [List.takeWhile_cons, List.takeWhile_cons, h t (by simp),
        ih fun u hu => h u (by simp [hu])]
  cases q with
  | one =>
    cases items with
    | nil => rfl
    | cons t ts => simp [takeItems, h t (by simp)]
  | zeroOrMore => simp [takeItems, hw]
  | oneOrMore => simp [takeItems, hw]

theorem takeChunks_congr {step step' : List Tree → Option Taken} (hs : Fair step)
    {P : Tree → Prop} (h : ∀ items : List Tree, (∀ t ∈ items, P t) → step items = step' items)
    (items : List Tree) (hi : ∀ t ∈ items, P t) :
    takeChunks step items = takeChunks step' items := by
  fun_induction takeChunks step items with
  | case1 items hn => rw [takeChunks, ← h items hi, hn]
  | case2 items chunk rest hn hlt chunks left hrec ih =>
    have ⟨hr, _⟩ := hs _ _ _ hn
    have hrest : ∀ t ∈ rest, P t := fun t ht => hi t (List.mem_of_mem_drop (hr ▸ ht))
    rw [takeChunks, ← h items hi, hn]
    simp only [hlt, if_true]
    rw [← ih hrest, hrec]
  | case3 items chunk rest hn hlt =>
    rw [takeChunks, ← h items hi, hn]
    simp only [hlt, if_false]

theorem takeGroup_congr (q : Quantifier) {step step' : List Tree → Option Taken}
    (hs : Fair step) {P : Tree → Prop}
    (h : ∀ items : List Tree, (∀ t ∈ items, P t) → step items = step' items)
    (items : List Tree) (hi : ∀ t ∈ items, P t) :
    takeGroup q step items = takeGroup q step' items := by
  have hc := takeChunks_congr hs h items hi
  cases q with
  | one => exact h items hi
  | zeroOrMore => simp [takeGroup, hc]
  | oneOrMore => simp [takeGroup, hc]

theorem takeAll_congr_of_take {holds holds' : String → Tree → Bool} {P : Tree → Prop}
    {body : List Clause}
    (hb : ∀ c ∈ body, ∀ items : List Tree, (∀ t ∈ items, P t) →
      c.take holds items = c.take holds' items)
    (items : List Tree) (hi : ∀ t ∈ items, P t) :
    takeAll holds body items = takeAll holds' body items := by
  induction body generalizing items with
  | nil => rfl
  | cons c cs ih =>
    rw [takeAll, takeAll, ← hb c (by simp) items hi]
    cases hc : c.take holds items with
    | none => rfl
    | some first =>
      obtain ⟨xs, rest⟩ := first
      obtain ⟨hr, _⟩ := take_fair holds c _ _ _ hc
      simp only
      rw [ih (fun d hd => hb d (by simp [hd])) rest fun t ht =>
        hi t (List.mem_of_mem_drop (hr ▸ ht))]

/-- What a clause takes does not change if terminals change only on trees higher than all
items. -/
theorem take_congr {holds holds' : String → Tree → Bool} {n : Nat}
    (h : ∀ name t, t.height ≤ n → holds name t = holds' name t) (c : Clause)
    (items : List Tree) (hi : ∀ t ∈ items, t.height ≤ n) :
    c.take holds items = c.take holds' items := by
  induction c generalizing items with
  | list body q ih =>
    refine takeItems_congr _ _ fun t ht => ?_
    cases t with
    | atom a => rfl
    | list inner =>
      have hn : ∀ u ∈ inner, u.height ≤ n := fun u hu =>
        Nat.le_trans (Nat.le_of_lt (Tree.height_lt_of_mem hu)) (hi _ ht)
      simp only [coversTree]
      rw [takeAll_congr_of_take (P := (·.height ≤ n)) (fun c hc => ih c hc) inner hn]
  | group body q ih =>
    exact takeGroup_congr q (takeAll_fair holds body) (P := (·.height ≤ n))
      (fun items hi => takeAll_congr_of_take (P := (·.height ≤ n)) (fun c hc => ih c hc) items hi)
      items hi
  | literal name q => rfl
  | terminal name q => exact takeItems_congr _ _ fun t ht => h name t (hi t ht)

/-- What a body takes does not change if terminals change only on trees higher than all
items. -/
theorem takeAll_congr {holds holds' : String → Tree → Bool} {n : Nat}
    (h : ∀ name t, t.height ≤ n → holds name t = holds' name t) (body : List Clause)
    (items : List Tree) (hi : ∀ t ∈ items, t.height ≤ n) :
    takeAll holds body items = takeAll holds' body items :=
  takeAll_congr_of_take (P := (·.height ≤ n)) (fun c _ => take_congr h c) items hi

end TreePasses.Clause
