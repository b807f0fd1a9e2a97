-- Where a pass is at a loss: it comes to a tree that no entry fits, or that a clause does not take
-- item by item, and leaves it as it is. In a tree of the source language each form has an entry,
-- and each clause for lists takes the list that it comes to. All that is left untaken are forms
-- whose entry is a literal or a terminal, and these have no items to take.
import Mathlib.Control.Monad.Writer
import TreePasses.Proofs.RuleCalls

namespace TreePasses

/-! ## Fallbacks on record -/

/-- A tree that a pass leaves as it is because it has nothing to go by. -/
inductive Fallback where
  /-- No entry fits it, where any form may stand. -/
  | stray (t : Tree)
  /-- A clause does not take it item by item. -/
  | untaken (c : Clause) (t : Tree)
deriving DecidableEq, Repr

/-- Something that has been worked out, with the fallbacks on the way, the first one first. -/
abbrev Watched := Writer (List Fallback)

namespace Watched

variable {α β : Type}

/-- Leaves a tree as it is, with the fallback on record. -/
def leave (fallback : Fallback) (t : Tree) : Watched Tree := .mk (t, [fallback])

/-- The fallbacks on record. -/
def fallbacks (x : Watched α) : List Fallback := x.run.2

@[simp]
theorem fallbacks_leave (fallback : Fallback) (t : Tree) :
    (leave fallback t).fallbacks = [fallback] := rfl

@[simp]
theorem fallbacks_pure (a : α) : (pure a : Watched α).fallbacks = [] := rfl

@[simp]
theorem fallbacks_map (f : α → β) (x : Watched α) : (f <$> x).fallbacks = x.fallbacks := rfl

@[simp]
theorem fallbacks_bind (x : Watched α) (f : α → Watched β) :
    (x >>= f).fallbacks = x.fallbacks ++ (f x.run.1).fallbacks := rfl

end Watched

/-- The account of computations with fallbacks on record. -/
def Account.watched : Account Watched Fallback where
  value x := x.run.1
  log := Watched.fallbacks
  value_pure _ := rfl
  value_map _ _ := rfl
  value_bind _ _ := rfl
  log_pure _ := rfl
  log_bind _ _ := rfl

/-- Applies rules to forms and puts each fallback on record. -/
def Walker.watching (rules : RuleTable) : Walker Watched where
  form _ e t := pure (rules.apply e.id t)
  stray t := .leave (.stray t) t
  untaken c t := .leave (.untaken c t) t

theorem Walker.watching_follows (rules : RuleTable) : (watching rules).Follows .watched rules :=
  ⟨fun _ _ _ => rfl, fun _ => rfl, fun _ _ => rfl⟩

/-- A run of a pass, with its fallbacks on record. -/
def Pass.watched (p : Pass) (t : Tree) : Except RunError (Tree × List Fallback) :=
  match p.source.entryOf? t with
  | some e => .ok (p.source.visit (.watching p.rules) [] e t).run
  | none => .error (.inputMismatch p.name t)

/-- Whether a clause is a word: a literal or a terminal. -/
def Clause.isWord : Clause → Bool
  | .literal _ _ => true
  | .terminal _ _ => true
  | _ => false

namespace Language

variable {l : Language} {rules : RuleTable}

/-! ## Which fallbacks there are -/

/-- A form at one of some places is left untaken: its entry is a word, and is not verbatim. -/
def IsUntaken (l : Language) (places : List Nat → Tree → Prop) (fallback : Fallback) : Prop :=
  ∃ path x e, places path x ∧ l.entryOf? x = some e ∧ e.verbatim = false ∧
    e.clause.isWord = true ∧ fallback = .untaken e.clause x

theorem isWord_of_fits {c : Clause} {t : Tree} (h : l.fits c t = true) (hc : c.isList = false) :
    c.isWord = true := by
  cases c with
  | list body q => cases hc
  | group body q => cases h
  | _ => rfl

theorem fallbacks_visit (path : List Nat) (e : Entry) (t : Tree) :
    (l.visit (.watching rules) path e t).fallbacks =
      (l.walkUnder (.watching rules) path e t).fallbacks := by
  rw [visit_eq, Watched.fallbacks_bind]
  exact List.append_nil _

theorem fallbacks_visit_of_verbatim {path : List Nat} {e : Entry} {t : Tree}
    (hv : e.verbatim = true) : (l.visit (.watching rules) path e t).fallbacks = [] := by
  rw [fallbacks_visit]
  simp [walkUnder, hv]

/-- A form whose entry is a word has no items that the entry could take. -/
theorem fallbacks_visit_of_isWord {path : List Nat} {e : Entry} {t : Tree}
    (hv : e.verbatim = false) (hc : e.clause.isWord = true) :
    (l.visit (.watching rules) path e t).fallbacks = [.untaken e.clause t] := by
  rw [fallbacks_visit]
  unfold walkUnder walkItems
  cases hclause : e.clause with
  | list body q => simp [hclause, Clause.isWord] at hc
  | group body q => simp [hclause, Clause.isWord] at hc
  | _ => cases t <;> simp [hv, Walker.watching, captures, Clause.captures]

/-- The fallbacks in a form, given those in it where an entry for lists takes it. -/
theorem mem_fallbacks_visit_iff {t : Tree} {path : List Nat}
    (hlist : ∀ body q, l.fits (.list body q) t = true → ∀ fallback,
      fallback ∈ (l.walk (.watching rules) t path (.list body q)).fallbacks ↔
        l.IsUntaken (l.FormIn (.list body q) t) fallback)
    {e : Entry} (he : l.entryOf? t = some e) (fallback : Fallback) :
    fallback ∈ (l.visit (.watching rules) path e t).fallbacks ↔
      l.IsUntaken (l.FormAt t) fallback := by
  have hfits : l.fits e.clause t = true := (entryOf?_spec he).2
  -- The entry says where forms can stand in `t`: only at `t` itself, or in its items as well.
  by_cases hv : e.verbatim = true
  · rw [fallbacks_visit_of_verbatim hv]
    refine ⟨fun h => by simp at h, ?_⟩
    rintro ⟨sub, x, d, hx, hd, hdv, -⟩
    cases hx with
    | here =>
      cases he.symm.trans hd
      simp [hv] at hdv
    | inside he' hv' =>
      cases he.symm.trans he'
      simp [hv] at hv'
  · rw [Bool.not_eq_true] at hv
    by_cases hc : e.clause.isList = true
    · obtain ⟨body, q, hclause⟩ : ∃ body q, e.clause = .list body q := by
        cases hclause : e.clause <;> simp_all [Clause.isList]
      rw [hclause] at hfits
      rw [fallbacks_visit, walkUnder_of_list hv hclause, hlist body q hfits]
      constructor
      · rintro ⟨sub, x, d, hx, hrest⟩
        exact ⟨sub, x, d, .inside he hv hclause hx, hrest⟩
      · rintro ⟨sub, x, d, hx, hd, hdv, hword, heq⟩
        cases hx with
        | here =>
          cases he.symm.trans hd
          simp [hclause, Clause.isWord] at hword
        | inside he' hv' hclause' hx =>
          cases he.symm.trans he'
          cases hclause.symm.trans hclause'
          exact ⟨sub, x, d, hx, hd, hdv, hword, heq⟩
    · rw [Bool.not_eq_true] at hc
      have hword := isWord_of_fits hfits hc
      rw [fallbacks_visit_of_isWord hv hword, List.mem_singleton]
      constructor
      · intro heq
        exact ⟨[], t, e, .here t, he, hv, hword, heq⟩
      · rintro ⟨sub, x, d, hx, hd, -, -, heq⟩
        cases hx with
        | here =>
          cases he.symm.trans hd
          exact heq
        | inside he' _ hclause' =>
          cases he.symm.trans he'
          simp [hclause', Clause.isList] at hc

theorem mem_fallbacks_walk_iff_of_list {t : Tree} {path : List Nat}
    (hlist : ∀ body q, l.fits (.list body q) t = true → ∀ fallback,
      fallback ∈ (l.walk (.watching rules) t path (.list body q)).fallbacks ↔
        l.IsUntaken (l.FormIn (.list body q) t) fallback)
    {c : Clause} (hc : l.fits c t = true) (fallback : Fallback) :
    fallback ∈ (l.walk (.watching rules) t path c).fallbacks ↔
      l.IsUntaken (l.FormIn c t) fallback := by
  have hnone : (l.walk (.watching rules) t path c).fallbacks = [] →
      (∀ sub x, ¬ l.FormIn c t sub x) →
      (fallback ∈ (l.walk (.watching rules) t path c).fallbacks ↔
        l.IsUntaken (l.FormIn c t) fallback) := by
    intro hnil hforms
    rw [hnil]
    refine ⟨fun h => by simp at h, ?_⟩
    rintro ⟨sub, x, e, hx, -⟩
    exact absurd hx (hforms sub x)
  cases c with
  | list body q => exact hlist body q hc fallback
  | group body q => cases hc
  | literal name q => exact hnone (by cases t <;> rfl) fun _ _ hx => by cases hx
  | terminal name q =>
    by_cases hname : l.terminal? name = some .expression
    · obtain ⟨e, he⟩ := exists_entryOf?_of_fits hname hc
      rw [walk_expression hname q he, mem_fallbacks_visit_iff hlist he]
      constructor
      · rintro ⟨sub, x, d, hx, hrest⟩
        exact ⟨sub, x, d, .form hname hx, hrest⟩
      · rintro ⟨sub, x, d, ⟨-, hx⟩ | _, hrest⟩
        exact ⟨sub, x, d, hx, hrest⟩
    · apply hnone
      · rw [walk_name hname]
        rfl
      · rintro sub x (⟨hname', -⟩ | _)
        exact hname hname'

/-- In a tree that a clause took, the fallbacks are the forms that are left untaken. -/
theorem mem_fallbacks_walk_iff {t : Tree} {c : Clause} (hc : l.fits c t = true) (path : List Nat)
    (fallback : Fallback) :
    fallback ∈ (l.walk (.watching rules) t path c).fallbacks ↔
      l.IsUntaken (l.FormIn c t) fallback := by
  induction t generalizing path c fallback with
  | atom a =>
    refine mem_fallbacks_walk_iff_of_list (fun body q hfits => ?_) hc fallback
    cases hfits
  | list items ih =>
    refine mem_fallbacks_walk_iff_of_list (fun body q hfits fallback => ?_) hc fallback
    obtain ⟨word, hword⟩ := Clause.fits_list_iff.mp hfits
    rw [walk_captured hword, Watched.fallbacks_map]
    -- Each item fits the clause that took it, so the claim holds in the items.
    have hitem : ∀ {k : Nat} {u : Tree} {d : Clause}, items[k]? = some u → word[k]? = some d →
        ∀ path fallback, fallback ∈ (l.walk (.watching rules) u path d).fallbacks ↔
          l.IsUntaken (l.FormIn d u) fallback := by
      intro k u d hu hd path fallback
      exact ih u (List.mem_of_getElem? hu) (fits_of_captures hword hd hu) path fallback
    constructor
    · intro h
      obtain ⟨k, u, d, hu, hd, h⟩ := Account.watched.mem_log_walkAll_iff.mp h
      obtain ⟨sub, x, e, hx, hrest⟩ := (hitem hu hd _ fallback).mp h
      exact ⟨k :: sub, x, e, .item hword hd hu hx, hrest⟩
    · rintro ⟨sub, x, e, hx, hrest⟩
      cases hx with
      | @item _ _ _ _ d u _ k sub' hword' hd hu hx =>
        cases hword.symm.trans hword'
        apply Account.watched.mem_log_walkAll_iff.mpr
        exact ⟨k, u, d, hu, hd, (hitem hu hd _ fallback).mpr ⟨sub', x, e, hx, hrest⟩⟩

/-! ## Where clauses come to trees -/

/-- On its way through a tree, a pass comes to a tree with a clause: to a form with the clause of
its entry, and to an item with the clause that took it. -/
inductive ComesTo (l : Language) (t : Tree) : List Nat → Clause → Tree → Prop where
  | form {path : List Nat} {x : Tree} {e : Entry} (hx : l.FormAt t path x)
      (he : l.entryOf? x = some e) (hv : e.verbatim = false) : ComesTo l t path e.clause x
  | item {path : List Nat} {c d : Clause} {items : List Tree} {word : List Clause} {i : Nat}
      {u : Tree} (h : ComesTo l t path c (.list items)) (hword : l.captures c items = some word)
      (hd : word[i]? = some d) (hu : items[i]? = some u) : ComesTo l t (path ++ [i]) d u

theorem ComesTo.fits {t x : Tree} {path : List Nat} {c : Clause} (h : l.ComesTo t path c x) :
    l.fits c x = true := by
  cases h with
  | form _ he _ => exact (entryOf?_spec he).2
  | @item _ c _ _ _ _ _ _ hword hd hu =>
    cases c with
    | list body q => exact fits_of_captures hword hd hu
    | _ => cases hword

mutual

/-- Each form in a tree of the language has an entry. -/
theorem FormAt.exists_entryOf? {t x : Tree} {path : List Nat} :
    l.FormAt t path x → (∃ e, l.entryOf? t = some e) → ∃ e, l.entryOf? x = some e
  | .here _, h => h
  | .inside he _ hclause hx, _ => hx.exists_entryOf? (hclause ▸ (entryOf?_spec he).2)

theorem FormIn.exists_entryOf? {c : Clause} {t x : Tree} {path : List Nat} :
    l.FormIn c t path x → l.fits c t = true → ∃ e, l.entryOf? x = some e
  | .form hname hx, h => hx.exists_entryOf? (exists_entryOf?_of_fits hname h)
  | .item hword hc hu hx, _ => hx.exists_entryOf? (fits_of_captures hword hc hu)

end

end Language

namespace Pass

theorem watched_of_entryOf? {p : Pass} {t : Tree} {e : Entry} (he : p.source.entryOf? t = some e) :
    p.watched t = .ok (p.source.visit (.watching p.rules) [] e t).run := by
  rw [watched, he]

/-! ## The laws -/

/-- In a run of a pass on a tree of its source language, each tree that stands where any form may
stand has an entry. Each clause for lists that the pass comes to a tree with takes a list there,
and names one clause for each item. What the pass is at a loss for are exactly the forms whose
entry is a literal or a terminal and is not verbatim. -/
theorem a_pass_is_at_a_loss_for_words_only (p : Pass) (t : Tree)
    (ht : p.source.accepts t = true) :
    ∃ u fallbacks, p.watched t = .ok (u, fallbacks) ∧ p.run t = .ok u ∧
      (∀ x, .stray x ∉ fallbacks) ∧
      (∀ c x, .untaken c x ∈ fallbacks ↔ c.isWord = true ∧ ∃ path e, p.source.FormAt t path x ∧
        p.source.entryOf? x = some e ∧ e.verbatim = false ∧ e.clause = c) ∧
      (∀ path x, p.source.FormAt t path x → ∃ e, p.source.entryOf? x = some e) ∧
      ∀ path body q x, p.source.ComesTo t path (.list body q) x →
        ∃ items word, x = .list items ∧ p.source.captures (.list body q) items = some word ∧
          word.length = items.length := by
  obtain ⟨e, he⟩ := (p.source.accepts_iff_entryOf? t).mp ht
  have hfallbacks : ∀ fallback, fallback ∈ (p.source.visit (.watching p.rules) [] e t).fallbacks ↔
      p.source.IsUntaken (p.source.FormAt t) fallback :=
    Language.mem_fallbacks_visit_iff (fun body q hfits => Language.mem_fallbacks_walk_iff hfits []) he
  have hvalue := (Walker.watching_follows p.rules).value_visit (l := p.source) [] e t
  refine ⟨_, _, watched_of_entryOf? he, ?_, ?_, ?_, ?_, ?_⟩
  · rw [run_of_entryOf? he, ← hvalue]
    rfl
  · intro x hx
    obtain ⟨path, y, d, -, -, -, -, heq⟩ := (hfallbacks _).mp hx
    cases heq
  · intro c x
    apply (hfallbacks _).trans
    constructor
    · rintro ⟨path, y, d, hy, hd, hv, hword, heq⟩
      cases heq
      exact ⟨hword, path, d, hy, hd, hv, rfl⟩
    · rintro ⟨hword, path, d, hx, hd, hv, rfl⟩
      exact ⟨path, x, d, hx, hd, hv, hword, rfl⟩
  · intro path x hx
    exact hx.exists_entryOf? ⟨e, he⟩
  · intro path body q x hx
    have hfits := hx.fits
    cases x with
    | atom a => cases hfits
    | list items =>
      obtain ⟨word, hword⟩ := Clause.fits_list_iff.mp hfits
      exact ⟨items, word, rfl, hword, Language.length_of_captures hword⟩

/-- The clause for parameters comes to a list that looks like a conditional, and takes it item by
item. The only word among the forms is the name of the function that is applied. -/
theorem the_parameters_of_a_function_are_taken_item_by_item :
    turning.source.accepts lookalikes = true ∧
      turning.watched lookalikes =
        .ok (lookalikes, [.untaken (.terminal "s" .one) (.symbol "f")]) ∧
      turning.run lookalikes = .ok lookalikes ∧
      turning.source.ComesTo lookalikes [1] (.list [.terminal "s" .zeroOrMore] .one)
        (conditional (.symbol "x") (.symbol "y")) ∧
      ∃ items word, conditional (.symbol "x") (.symbol "y") = .list items ∧
        turning.source.captures (.list [.terminal "s" .zeroOrMore] .one) items = some word ∧
        word.length = items.length := by
  have haccepts : turning.source.accepts lookalikes = true := by decide +kernel
  obtain ⟨u, fallbacks, hwatched, hrun, -, -, -, hlists⟩ :=
    a_pass_is_at_a_loss_for_words_only turning lookalikes haccepts
  have hboth : (turning.watched lookalikes).toOption =
      some (lookalikes, [.untaken (.terminal "s" .one) (.symbol "f")]) := by decide +kernel
  rw [hwatched] at hboth
  cases Option.some.inj hboth
  have hentry : turning.source.entryOf? lookalikes = some ⟨⟨3⟩, .list [.literal "fn" .one,
      .list [.terminal "s" .zeroOrMore] .one, .terminal "ε" .one] .one, false⟩ := by
    decide +kernel
  have hword : turning.source.captures (.list [.literal "fn" .one,
      .list [.terminal "s" .zeroOrMore] .one, .terminal "ε" .one] .one)
      [.symbol "fn", conditional (.symbol "x") (.symbol "y"),
        .list [.symbol "f", .list [.symbol "quote", conditional (.symbol "a") (.symbol "b")]]] =
      some [.literal "fn" .one, .list [.terminal "s" .zeroOrMore] .one, .terminal "ε" .one] := by
    decide +kernel
  have hform : turning.source.ComesTo lookalikes [] _ lookalikes := .form (.here _) hentry rfl
  have hcomes : turning.source.ComesTo lookalikes ([] ++ [1]) _ _ := .item hform hword rfl rfl
  exact ⟨haccepts, hwatched, hrun, hcomes, hlists _ _ _ _ hcomes⟩

end Pass

end TreePasses
