-- A body read as a regular expression: its words are lists of clauses that are no groups, one
-- clause for each item. Whatever a body takes is one of its words, and each item taken has the
-- shape of the clause that took it.
import TreePasses.Clause.Taking
import Mathlib.Data.List.Forall2
import Mathlib.Data.List.TakeWhile

namespace TreePasses

/-- Whether a quantifier lets a clause stand `n` times. -/
def Quantifier.Allows (q : Quantifier) (n : Nat) : Prop :=
  match q with
  | .one => n = 1
  | .zeroOrMore => True
  | .oneOrMore => 0 < n

namespace Clause

/-- Whether a clause stands for neighbouring items and has no list of its own. -/
def isGroup : Clause → Bool
  | .group _ _ => true
  | _ => false

theorem take_of_isGroup {holds : String → Tree → Bool} {c : Clause} (h : c.isGroup = false)
    (items : List Tree) :
    c.take holds items = takeItems c c.quantifier (c.fits holds) items := by
  refine take_eq_takeItems holds c items ?_
  rintro body q rfl
  cases h

/-- A word that repeats one clause as often as its quantifier allows. -/
def Repeats (c : Clause) (word : List Clause) : Prop :=
  ∃ n, c.quantifier.Allows n ∧ word = List.replicate n c

mutual

/-- The words of a clause. A group has the words of its body, one after the other. -/
def Spells : Clause → List Clause → Prop
  | .group body q, word =>
    ∃ chunks : List (List Clause), q.Allows chunks.length ∧
      (∀ chunk ∈ chunks, SpellsAll body chunk) ∧ word = chunks.flatten
  | .list body q, word => Repeats (.list body q) word
  | .literal name q, word => Repeats (.literal name q) word
  | .terminal name q, word => Repeats (.terminal name q) word

/-- The words of a body: a word of each clause, from left to right. -/
def SpellsAll : List Clause → List Clause → Prop
  | [], word => word = []
  | c :: cs, word => ∃ first others, c.Spells first ∧ SpellsAll cs others ∧ word = first ++ others

end

theorem spells_iff_repeats {c : Clause} (h : c.isGroup = false) (word : List Clause) :
    c.Spells word ↔ c.Repeats word := by
  cases c with
  | group body q => simp [isGroup] at h
  | _ => simp only [Spells]

/-- Without groups, a word holds only clauses of the body itself. -/
theorem mem_of_spellsAll {body : List Clause} (hb : ∀ c ∈ body, c.isGroup = false)
    {word : List Clause} (h : SpellsAll body word) : ∀ d ∈ word, d ∈ body := by
  induction body generalizing word with
  | nil =>
    cases h
    simp
  | cons c cs ih =>
    obtain ⟨first, others, h1, h2, rfl⟩ := h
    obtain ⟨n, -, rfl⟩ := (spells_iff_repeats (hb c (by simp)) first).mp h1
    intro d hd
    rcases List.mem_append.mp hd with hd | hd
    · simp [List.eq_of_mem_replicate hd]
    · exact List.mem_cons_of_mem c (ih (fun e he => hb e (by simp [he])) h2 d hd)

theorem fits_literal_iff {holds : String → Tree → Bool} {name : String} {q : Quantifier}
    {t : Tree} : (literal name q).fits holds t = true ↔ t = .symbol name := by
  simp only [fits, Tree.isSymbol, decide_eq_true_eq]
  constructor
  · intro h
    cases t with
    | list items => simp [Tree.symbol?] at h
    | atom a => cases a <;> simp_all [Tree.symbol?]
  · rintro rfl
    rfl

/-- Each item has the shape of its clause. -/
def Matched (holds : String → Tree → Bool) (word : List Clause) (items : List Tree) : Prop :=
  List.Forall₂ (fun c t => c.fits holds t = true) word items

theorem exists_of_forall₂ {α β : Type} {R : α → β → Prop} {word : List α} {items : List β}
    (h : List.Forall₂ R word items) {t : β} (ht : t ∈ items) : ∃ c ∈ word, R c t := by
  induction h with
  | nil => cases ht
  | @cons c u _ _ hcu _ ih =>
    rcases List.mem_cons.mp ht with rfl | ht
    · exact ⟨c, by simp, hcu⟩
    · obtain ⟨d, hd, hdt⟩ := ih ht
      exact ⟨d, List.mem_cons_of_mem c hd, hdt⟩

theorem Matched.fits {holds : String → Tree → Bool} {word : List Clause} {items : List Tree}
    (h : Matched holds word items) {i : Nat} {c : Clause} {t : Tree} (hc : word[i]? = some c)
    (ht : items[i]? = some t) : c.fits holds t = true := by
  obtain ⟨hi, rfl⟩ := List.getElem?_eq_some_iff.mp hc
  obtain ⟨hi', rfl⟩ := List.getElem?_eq_some_iff.mp ht
  exact (List.forall₂_iff_get.mp h).2 i hi hi'

theorem Matched.append {holds : String → Tree → Bool} {word word' : List Clause}
    {items items' : List Tree} (h : Matched holds word items) (h' : Matched holds word' items') :
    Matched holds (word ++ word') (items ++ items') :=
  List.rel_append h h'

/-- Items that match two words one after the other split between them. -/
theorem Matched.split {holds : String → Tree → Bool} {word word' : List Clause}
    {items : List Tree} (h : Matched holds (word ++ word') items) :
    ∃ front back, items = front ++ back ∧ Matched holds word front ∧ Matched holds word' back := by
  induction word generalizing items with
  | nil => exact ⟨[], items, rfl, .nil, h⟩
  | cons c cs ih =>
    obtain ⟨t, ts, ht, hts, rfl⟩ := List.forall₂_cons_left_iff.mp h
    obtain ⟨front, back, rfl, hfront, hback⟩ := ih hts
    exact ⟨t :: front, back, rfl, .cons ht hfront, hback⟩

theorem matched_replicate {holds : String → Tree → Bool} {n : Nat} {c : Clause}
    {items : List Tree} :
    Matched holds (List.replicate n c) items ↔
      items.length = n ∧ ∀ t ∈ items, c.fits holds t = true := by
  unfold Matched
  induction items generalizing n with
  | nil => cases n <;> simp [List.replicate_succ]
  | cons t ts ih =>
    cases n with
    | zero => simp
    | succ n =>
      rw [List.replicate_succ, List.forall₂_cons, ih]
      simp only [List.length_cons, List.forall_mem_cons]
      constructor
      · rintro ⟨ht, hl, hts⟩
        exact ⟨by omega, ht, hts⟩
      · rintro ⟨hl, ht, hts⟩
        exact ⟨ht, by omega, hts⟩

/-! ## What is taken is a word -/

/-- Whatever a clause that is no group takes passes its test, and there is as much of it as the
quantifier allows. -/
theorem takeItems_eq_some {c : Clause} {q : Quantifier} {test : Tree → Bool} {items : List Tree}
    {taken : List Clause} {rest : List Tree} (h : takeItems c q test items = some (taken, rest)) :
    ∃ front, items = front ++ rest ∧ (∀ t ∈ front, test t = true) ∧ q.Allows front.length ∧
      taken = List.replicate front.length c := by
  have hsplit : items = items.takeWhile test ++ items.drop (items.takeWhile test).length := by
    have htake := List.prefix_iff_eq_take.mp (List.takeWhile_prefix (l := items) test)
    calc items
        = items.take (items.takeWhile test).length ++ items.drop (items.takeWhile test).length :=
          (List.take_append_drop _ _).symm
      _ = _ := by rw [← htake]
  have hall : ∀ t ∈ items.takeWhile test, test t = true := by
    intro t ht
    exact List.mem_takeWhile_imp ht
  unfold takeItems at h
  cases q with
  | one =>
    cases items with
    | nil => simp at h
    | cons t ts =>
      simp only at h
      split at h
      · rename_i ht
        simp only [Option.some.injEq, Prod.mk.injEq] at h
        obtain ⟨rfl, rfl⟩ := h
        exact ⟨[t], rfl, by simpa using ht, rfl, rfl⟩
      · simp at h
  | zeroOrMore =>
    simp only [Option.some.injEq, Prod.mk.injEq] at h
    obtain ⟨rfl, rfl⟩ := h
    exact ⟨_, hsplit, hall, trivial, rfl⟩
  | oneOrMore =>
    simp only at h
    split at h
    · simp at h
    · rename_i hn
      simp only [Option.some.injEq, Prod.mk.injEq] at h
      obtain ⟨rfl, rfl⟩ := h
      exact ⟨_, hsplit, hall, Nat.pos_of_ne_zero hn, rfl⟩

/-- A step takes only words of a kind: what it takes is such a word, it stands at the front,
and the items there match it. -/
def Explained (holds : String → Tree → Bool) (spells : List Clause → Prop)
    (step : List Tree → Option Taken) : Prop :=
  ∀ items taken rest, step items = some (taken, rest) →
    spells taken ∧ ∃ front, items = front ++ rest ∧ Matched holds taken front

theorem takeItems_explained (holds : String → Tree → Bool) (c : Clause) :
    Explained holds c.Repeats (takeItems c c.quantifier (c.fits holds)) := by
  intro items taken rest h
  obtain ⟨front, hitems, hfits, hn, rfl⟩ := takeItems_eq_some h
  exact ⟨⟨_, hn, rfl⟩, front, hitems, matched_replicate.mpr ⟨rfl, hfits⟩⟩

/-- The chunks of a repeated step are words each, and together they match what was taken. -/
theorem takeChunks_explained {holds : String → Tree → Bool} {spells : List Clause → Prop}
    {step : List Tree → Option Taken} (hs : Explained holds spells step) (items : List Tree) :
    (∀ chunk ∈ (takeChunks step items).1, spells chunk) ∧
      ∃ front, items = front ++ (takeChunks step items).2 ∧
        Matched holds (takeChunks step items).1.flatten front := by
  fun_induction takeChunks step items with
  | case1 items h => exact ⟨by simp, [], rfl, .nil⟩
  | case2 items chunk rest h hlt chunks left hrec ih =>
    obtain ⟨hword, front, rfl, hfront⟩ := hs _ _ _ h
    rw [hrec] at ih
    obtain ⟨hwords, more, hmore, hmatch⟩ := ih
    simp only at hwords hmore hmatch
    refine ⟨List.forall_mem_cons.mpr ⟨hword, hwords⟩, front ++ more, ?_, hfront.append hmatch⟩
    rw [hmore, List.append_assoc]
  | case3 items chunk rest h hlt =>
    obtain ⟨hword, front, hitems, hfront⟩ := hs _ _ _ h
    exact ⟨by simpa using hword, front, hitems, by simpa using hfront⟩

theorem takeGroup_explained {holds : String → Tree → Bool} {body : List Clause}
    (hb : Explained holds (SpellsAll body) (takeAll holds body)) (q : Quantifier) :
    Explained holds (Spells (.group body q)) (takeGroup q (takeAll holds body)) := by
  intro items taken rest h
  obtain ⟨hwords, hfront⟩ := takeChunks_explained hb items
  unfold takeGroup at h
  simp only [Spells]
  cases q with
  | one =>
    obtain ⟨hword, hfront⟩ := hb _ _ _ h
    exact ⟨⟨[taken], rfl, by simpa using hword, by simp⟩, hfront⟩
  | zeroOrMore =>
    simp only [Option.some.injEq, Prod.mk.injEq] at h
    obtain ⟨rfl, rfl⟩ := h
    exact ⟨⟨_, trivial, hwords, rfl⟩, hfront⟩
  | oneOrMore =>
    simp only at h
    split at h
    · simp at h
    · rename_i hne
      simp only [Option.some.injEq, Prod.mk.injEq] at h
      obtain ⟨rfl, rfl⟩ := h
      refine ⟨⟨_, ?_, hwords, rfl⟩, hfront⟩
      apply List.length_pos_iff.mpr
      intro he
      exact hne (by simp [he])

theorem takeAll_explained_of_take {holds : String → Tree → Bool} {body : List Clause}
    (hb : ∀ c ∈ body, Explained holds c.Spells (c.take holds)) :
    Explained holds (SpellsAll body) (takeAll holds body) := by
  induction body with
  | nil =>
    intro items taken rest h
    simp only [takeAll, Option.some.injEq, Prod.mk.injEq] at h
    obtain ⟨rfl, rfl⟩ := h
    exact ⟨rfl, [], rfl, .nil⟩
  | cons c cs ih =>
    intro items taken rest h
    rw [takeAll] at h
    cases hc : c.take holds items with
    | none => simp [hc] at h
    | some first =>
      obtain ⟨xs, mid⟩ := first
      obtain ⟨hword, front, rfl, hfront⟩ := hb c (by simp) _ _ _ hc
      simp only [hc] at h
      cases hcs : takeAll holds cs mid with
      | none => simp [hcs] at h
      | some others =>
        obtain ⟨ys, left⟩ := others
        obtain ⟨hwords, more, rfl, hmore⟩ := ih (fun d hd => hb d (by simp [hd])) _ _ _ hcs
        simp only [hcs, Option.some.injEq, Prod.mk.injEq] at h
        obtain ⟨rfl, rfl⟩ := h
        refine ⟨?_, front ++ more, by simp, hfront.append hmore⟩
        simp only [SpellsAll]
        exact ⟨xs, ys, hword, hwords, rfl⟩

theorem take_explained (holds : String → Tree → Bool) (c : Clause) :
    Explained holds c.Spells (c.take holds) := by
  induction c with
  | group body q ih =>
    simp only [take]
    exact takeGroup_explained (takeAll_explained_of_take ih) q
  | list body q _ =>
    simp only [Spells]
    exact takeItems_explained holds (.list body q)
  | literal name q => exact takeItems_explained holds (.literal name q)
  | terminal name q => exact takeItems_explained holds (.terminal name q)

/-- A body takes only words of its own, and the items taken match them. -/
theorem takeAll_explained (holds : String → Tree → Bool) (body : List Clause) :
    Explained holds (SpellsAll body) (takeAll holds body) :=
  takeAll_explained_of_take fun c _ => take_explained holds c

/-! ## Captures -/

theorem captures_eq_some_iff {holds : String → Tree → Bool} {body : List Clause} {q : Quantifier}
    {items : List Tree} {word : List Clause} :
    captures holds (.list body q) items = some word ↔
      takeAll holds body items = some (word, []) := by
  unfold captures
  simp only
  split <;> simp_all

/-- A list has the shape of a list clause if the clause captures its items. -/
theorem fits_list_iff {holds : String → Tree → Bool} {body : List Clause} {q : Quantifier}
    {items : List Tree} :
    fits holds (.list body q) (.list items) = true ↔
      ∃ word, captures holds (.list body q) items = some word := by
  simp only [captures_eq_some_iff, fits, coversTree]
  split <;> simp_all

theorem fits_iff_captures {holds : String → Tree → Bool} {c : Clause} (hc : c.isList = true)
    {items : List Tree} :
    c.fits holds (.list items) = true ↔ ∃ word, captures holds c items = some word := by
  cases c with
  | list body q => exact fits_list_iff
  | _ => simp [isList] at hc

/-- Captured items match a word of the body. -/
theorem captures_explained {holds : String → Tree → Bool} {body : List Clause} {q : Quantifier}
    {items : List Tree} {word : List Clause}
    (h : captures holds (.list body q) items = some word) :
    SpellsAll body word ∧ Matched holds word items := by
  obtain ⟨hword, front, rfl, hm⟩ := takeAll_explained holds body _ _ _ (captures_eq_some_iff.mp h)
  exact ⟨hword, by simpa using hm⟩

end Clause

end TreePasses
