-- Groups and what they stand for. A group that stands once takes what its clauses take in its
-- place, wherever it stands; and a group of one clause takes what that clause takes if it may
-- repeat as often as both of them say.
import TreePasses.Proofs.Words
import TreePasses.Language.Basic

namespace TreePasses

/-- How often a clause may stand in a group that may stand so often itself. -/
def Quantifier.combined : Quantifier → Quantifier → Quantifier
  | .zeroOrMore, _ => .zeroOrMore
  | _, .zeroOrMore => .zeroOrMore
  | .oneOrMore, _ => .oneOrMore
  | _, .oneOrMore => .oneOrMore
  | .one, .one => .one

namespace Clause

/-! ## One step after the other -/

/-- What two steps take, the second one from what the first one leaves. -/
def andThen (first : Option Taken) (next : List Tree → Option Taken) : Option Taken :=
  first.bind fun x => (next x.2).map fun y => (x.1 ++ y.1, y.2)

theorem andThen_assoc (first : Option Taken) (next last : List Tree → Option Taken) :
    andThen (andThen first next) last = andThen first fun rest => andThen (next rest) last := by
  cases first with
  | none => rfl
  | some x =>
    cases hnext : next x.2 with
    | none => simp [andThen, hnext]
    | some y =>
      cases hlast : last y.2 with
      | none => simp [andThen, hnext, hlast]
      | some z => simp [andThen, hnext, hlast]

section

variable {holds : String → Tree → Bool}

theorem takeAll_cons (c : Clause) (cs : List Clause) (items : List Tree) :
    takeAll holds (c :: cs) items = andThen (c.take holds items) (takeAll holds cs) := by
  rw [takeAll, andThen]
  cases hc : c.take holds items with
  | none => rfl
  | some x =>
    cases hcs : takeAll holds cs x.2 with
    | none => simp [hcs]
    | some y => simp [hcs]

theorem takeAll_singleton (c : Clause) (items : List Tree) :
    takeAll holds [c] items = c.take holds items := by
  rw [takeAll_cons]
  cases c.take holds items with
  | none => rfl
  | some x => simp [andThen, takeAll]

theorem takeAll_append (front back : List Clause) (items : List Tree) :
    takeAll holds (front ++ back) items =
      andThen (takeAll holds front items) (takeAll holds back) := by
  induction front generalizing items with
  | nil =>
    cases hback : takeAll holds back items with
    | none => simp [takeAll, andThen, hback]
    | some y => simp [takeAll, andThen, hback]
  | cons c cs ih =>
    rw [List.cons_append, takeAll_cons, takeAll_cons, andThen_assoc]
    congr 1
    funext rest
    exact ih rest

/-- In place of a group that stands once, its clauses take the same. -/
theorem takeAll_group_one (inner rest : List Clause) (items : List Tree) :
    takeAll holds (.group inner .one :: rest) items = takeAll holds (inner ++ rest) items := by
  rw [takeAll_cons, takeAll_append]
  rfl

theorem takeAll_append_group_one (front inner back : List Clause) (items : List Tree) :
    takeAll holds (front ++ .group inner .one :: back) items =
      takeAll holds (front ++ (inner ++ back)) items := by
  rw [takeAll_append, takeAll_append]
  congr 1
  funext rest
  exact takeAll_group_one inner back rest

end

/-! ## Groups of one clause -/

section

variable {c : Clause} {test : Tree → Bool}

/-- A clause that takes nothing has no item before it that passes its test. -/
theorem takeWhile_eq_nil_of_takeItems {q : Quantifier} {items : List Tree}
    (h : takeItems c q test items = none ∨ takeItems c q test items = some ([], items)) :
    items.takeWhile test = [] := by
  cases q with
  | one =>
    cases items with
    | nil => rfl
    | cons t ts =>
      by_cases ht : test t = true
      · simp [takeItems, ht] at h
      · simp [ht]
  | zeroOrMore =>
    rcases h with h | h
    · cases h
    · simp only [takeItems, Option.some.injEq, Prod.mk.injEq, List.replicate_eq_nil_iff] at h
      exact List.eq_nil_of_length_eq_zero h.1
  | oneOrMore =>
    by_cases hcount : (items.takeWhile test).length = 0
    · exact List.eq_nil_of_length_eq_zero hcount
    · simp [takeItems, hcount] at h

/-- Taking again and again what one clause takes comes to all the items that pass its test. -/
theorem takeChunks_takeItems (q : Quantifier) (items : List Tree) :
    (takeChunks (takeItems c q test) items).1.flatten =
        List.replicate (items.takeWhile test).length c ∧
      (takeChunks (takeItems c q test) items).2 = items.drop (items.takeWhile test).length := by
  fun_induction takeChunks (takeItems c q test) items with
  | case1 items h => simp [takeWhile_eq_nil_of_takeItems (.inl h)]
  | case2 items chunk rest h hlt chunks left hrec ih =>
    obtain ⟨front, rfl, hfront, -, rfl⟩ := takeItems_eq_some h
    rw [hrec] at ih
    obtain ⟨hchunks, hleft⟩ := ih
    rw [List.takeWhile_append_of_pos hfront, List.length_append]
    refine ⟨?_, ?_⟩
    · rw [List.flatten_cons, hchunks, List.replicate_append_replicate]
    · rw [List.drop_append, hleft]
      simp
  | case3 items chunk rest h hlt =>
    obtain ⟨front, rfl, -, -, rfl⟩ := takeItems_eq_some h
    -- The chunk is empty, so nothing was there to take.
    have hnil : front = [] := by
      rw [List.length_append] at hlt
      exact List.eq_nil_of_length_eq_zero (by omega)
    subst hnil
    have hnone : rest.takeWhile test = [] := takeWhile_eq_nil_of_takeItems (.inr h)
    simp [hnone]

theorem isEmpty_takeChunks (step : List Tree → Option Taken) (items : List Tree) :
    (takeChunks step items).1.isEmpty = (step items).isNone := by
  rw [takeChunks]
  cases step items with
  | none => rfl
  | some x =>
    simp only
    split <;> rfl

theorem isNone_takeItems {q : Quantifier} (hq : q ≠ .zeroOrMore) (items : List Tree) :
    (takeItems c q test items).isNone = ((items.takeWhile test).length = 0 : Bool) := by
  cases q with
  | one =>
    cases items with
    | nil => rfl
    | cons t ts => by_cases ht : test t = true <;> simp [takeItems, ht]
  | zeroOrMore => exact absurd rfl hq
  | oneOrMore => by_cases hcount : (items.takeWhile test).length = 0 <;> simp [takeItems, hcount]

/-- A repeated clause that is repeated again takes what it takes if it may repeat as often as both
quantifiers say. -/
theorem takeGroup_takeItems (p q : Quantifier) (items : List Tree) :
    takeGroup q (takeItems c p test) items = takeItems c (p.combined q) test items := by
  obtain ⟨htaken, hrest⟩ := @takeChunks_takeItems c test p items
  cases q with
  | one => cases p <;> rfl
  | zeroOrMore =>
    have hgroup : takeGroup .zeroOrMore (takeItems c p test) items =
        some ((takeChunks (takeItems c p test) items).1.flatten,
          (takeChunks (takeItems c p test) items).2) := rfl
    rw [hgroup, htaken, hrest]
    cases p <;> rfl
  | oneOrMore =>
    have hgroup : takeGroup .oneOrMore (takeItems c p test) items =
        if (takeChunks (takeItems c p test) items).1.isEmpty then none
        else some ((takeChunks (takeItems c p test) items).1.flatten,
          (takeChunks (takeItems c p test) items).2) := rfl
    rw [hgroup, isEmpty_takeChunks, htaken, hrest]
    cases p with
    | zeroOrMore => rfl
    | one =>
      rw [isNone_takeItems (by decide)]
      simp [Quantifier.combined, takeItems]
    | oneOrMore =>
      rw [isNone_takeItems (by decide)]
      simp [Quantifier.combined, takeItems]

/-- Which clause is named for the items taken has no part in how many they are. -/
theorem takeItems_renamed (c d : Clause) (q : Quantifier) (items : List Tree) :
    takeItems c q test items =
      (takeItems d q test items).map fun taken => (taken.1.map fun _ => c, taken.2) := by
  cases q with
  | one =>
    cases items with
    | nil => rfl
    | cons t ts => by_cases ht : test t = true <;> simp [takeItems, ht]
  | zeroOrMore => simp [takeItems]
  | oneOrMore => by_cases hcount : (items.takeWhile test).length = 0 <;> simp [takeItems, hcount]

end

section

variable {holds : String → Tree → Bool} {c : Clause}

/-- How often a clause may repeat has no part in which trees have its shape. -/
theorem take_quantified (hc : c.isGroup = false) (q : Quantifier) (items : List Tree) :
    (c.quantified q).take holds items = takeItems (c.quantified q) q (c.fits holds) items := by
  cases c with
  | group body p => cases hc
  | _ => exact take_of_isGroup rfl items

theorem take_group_singleton (hc : c.isGroup = false) (q : Quantifier) (items : List Tree) :
    (group [c] q).take holds items =
      takeItems c (c.quantifier.combined q) (c.fits holds) items := by
  have hstep : (fun inner => takeAll holds [c] inner) =
      takeItems c c.quantifier (c.fits holds) := by
    funext inner
    rw [takeAll_singleton, take_of_isGroup hc]
  rw [take, hstep, takeGroup_takeItems]

end

/-! ## Bodies without groups that stand once -/

mutual

/-- What stands for a clause if, at every depth, the clauses of a group that stands once take its
place. -/
def ungrouped : Clause → List Clause
  | .list body q => [.list (ungroupedAll body) q]
  | .group body .one => ungroupedAll body
  | .group body .zeroOrMore => [.group (ungroupedAll body) .zeroOrMore]
  | .group body .oneOrMore => [.group (ungroupedAll body) .oneOrMore]
  | .literal name q => [.literal name q]
  | .terminal name q => [.terminal name q]

/-- What stands for the clauses of a body. -/
def ungroupedAll : List Clause → List Clause
  | [] => []
  | c :: cs => c.ungrouped ++ ungroupedAll cs

end

theorem ungroupedAll_eq_flatMap (body : List Clause) :
    ungroupedAll body = body.flatMap ungrouped := by
  induction body with
  | nil => rfl
  | cons c cs ih => rw [ungroupedAll, ih, List.flatMap_cons]

theorem ungroupedAll_append (front back : List Clause) :
    ungroupedAll (front ++ back) = ungroupedAll front ++ ungroupedAll back := by
  simp only [ungroupedAll_eq_flatMap, List.flatMap_append]

theorem ungroupedAll_flatten (chunks : List (List Clause)) :
    ungroupedAll chunks.flatten = (chunks.map ungroupedAll).flatten := by
  induction chunks with
  | nil => rfl
  | cons chunk chunks ih =>
    rw [List.flatten_cons, ungroupedAll_append, ih, List.map_cons, List.flatten_cons]

theorem ungroupedAll_replicate {c d : Clause} (h : c.ungrouped = [d]) (n : Nat) :
    ungroupedAll (List.replicate n c) = List.replicate n d := by
  induction n with
  | zero => rfl
  | succ n ih => rw [List.replicate_succ, ungroupedAll, h, ih]; rfl

/-- A group that stands once and its clauses are the same without such groups. -/
theorem ungroupedAll_append_group_one (front inner back : List Clause) :
    ungroupedAll (front ++ .group inner .one :: back) =
      ungroupedAll (front ++ (inner ++ back)) := by
  simp only [ungroupedAll_append, ungroupedAll, ungrouped]

/-- The same items, with what stands for the clauses that took them. -/
def Taken.ungrouped (taken : Taken) : Taken := (ungroupedAll taken.1, taken.2)

theorem takeItems_ungrouped {c d : Clause} (h : c.ungrouped = [d]) (q : Quantifier)
    (test : Tree → Bool) (items : List Tree) :
    takeItems d q test items = (takeItems c q test items).map Taken.ungrouped := by
  cases q with
  | one =>
    cases items with
    | nil => rfl
    | cons t ts =>
      by_cases ht : test t = true <;> simp [takeItems, ht, Taken.ungrouped, ungroupedAll, h]
  | zeroOrMore => simp [takeItems, Taken.ungrouped, ungroupedAll_replicate h]
  | oneOrMore =>
    by_cases hcount : (items.takeWhile test).length = 0 <;>
      simp [takeItems, hcount, Taken.ungrouped, ungroupedAll_replicate h]

section

variable {step step' : List Tree → Option Taken}
  (hstep : ∀ items, step' items = (step items).map Taken.ungrouped)

include hstep

theorem takeChunks_ungrouped (items : List Tree) :
    takeChunks step' items =
      ((takeChunks step items).1.map ungroupedAll, (takeChunks step items).2) := by
  fun_induction takeChunks step items with
  | case1 items h => rw [takeChunks, hstep, h]; rfl
  | case2 items chunk rest h hlt chunks left hrec ih =>
    rw [takeChunks, hstep, h]
    simp [Taken.ungrouped, hlt, ih, hrec]
  | case3 items chunk rest h hlt =>
    rw [takeChunks, hstep, h]
    simp [Taken.ungrouped, hlt]

theorem takeGroup_ungrouped (q : Quantifier) (items : List Tree) :
    takeGroup q step' items = (takeGroup q step items).map Taken.ungrouped := by
  have hchunks := takeChunks_ungrouped hstep items
  cases q with
  | one => exact hstep items
  | zeroOrMore => simp [takeGroup, hchunks, Taken.ungrouped, ungroupedAll_flatten]
  | oneOrMore =>
    by_cases hnone : (takeChunks step items).1 = []
    · simp [takeGroup, hchunks, hnone]
    · simp [takeGroup, hchunks, hnone, Taken.ungrouped, ungroupedAll_flatten]

theorem coversTree_ungrouped (t : Tree) : coversTree step' t = coversTree step t := by
  cases t with
  | atom a => rfl
  | list items =>
    simp only [coversTree, hstep]
    cases step items with
    | none => rfl
    | some taken =>
      obtain ⟨word, rest⟩ := taken
      cases rest <;> rfl

end

section

variable {holds : String → Tree → Bool}

theorem takeAll_ungrouped_of_take {body : List Clause}
    (hb : ∀ c ∈ body, ∀ items,
      takeAll holds c.ungrouped items = (c.take holds items).map Taken.ungrouped)
    (items : List Tree) :
    takeAll holds (ungroupedAll body) items = (takeAll holds body items).map Taken.ungrouped := by
  induction body generalizing items with
  | nil => rfl
  | cons c cs ih =>
    rw [ungroupedAll, takeAll_append, takeAll_cons, hb c (by simp)]
    cases c.take holds items with
    | none => rfl
    | some first =>
      have hrest := ih (fun d hd => hb d (by simp [hd])) first.2
      cases hcs : takeAll holds cs first.2 with
      | none => simp [andThen, Taken.ungrouped, hrest, hcs]
      | some others => simp [andThen, Taken.ungrouped, hrest, hcs, ungroupedAll_append]

/-- What stands for a clause takes the same items as the clause. -/
theorem take_ungrouped (c : Clause) (items : List Tree) :
    takeAll holds c.ungrouped items = (c.take holds items).map Taken.ungrouped := by
  induction c generalizing items with
  | list body q ih =>
    -- The list takes the same trees as before; only the clause named for them is another one.
    have hcovers : coversTree (fun inner => takeAll holds (ungroupedAll body) inner) =
        coversTree fun inner => takeAll holds body inner :=
      funext (coversTree_ungrouped (takeAll_ungrouped_of_take ih))
    rw [ungrouped, takeAll_singleton, take, take, hcovers]
    exact takeItems_ungrouped (by rw [ungrouped]) _ _ _
  | group body q ih =>
    have hgroup := takeGroup_ungrouped (takeAll_ungrouped_of_take ih) q items
    cases q with
    | one => exact hgroup
    | zeroOrMore => rwa [ungrouped, takeAll_singleton, take, take]
    | oneOrMore => rwa [ungrouped, takeAll_singleton, take, take]
  | literal name q =>
    rw [ungrouped, takeAll_singleton, take]
    exact takeItems_ungrouped (by rw [ungrouped]) _ _ _
  | terminal name q =>
    rw [ungrouped, takeAll_singleton, take]
    exact takeItems_ungrouped (by rw [ungrouped]) _ _ _

/-- A body takes the same items without its groups that stand once. -/
theorem takeAll_ungroupedAll (body : List Clause) (items : List Tree) :
    takeAll holds (ungroupedAll body) items = (takeAll holds body items).map Taken.ungrouped :=
  takeAll_ungrouped_of_take (fun c _ => take_ungrouped c) items

theorem fits_eq_of_ungroupedAll {body body' : List Clause}
    (h : ungroupedAll body = ungroupedAll body') (q : Quantifier) (t : Tree) :
    (list body q).fits holds t = (list body' q).fits holds t := by
  have hcovers : ∀ body, coversTree (takeAll holds (ungroupedAll body)) t =
      coversTree (takeAll holds body) t :=
    fun body => coversTree_ungrouped (takeAll_ungroupedAll body) t
  rw [fits, fits, ← hcovers body, h, hcovers body']

end

end Clause

/-! ## The laws -/

namespace Language

open Clause

/-- The clauses of a group that stands once take in its place what the group takes, in a body, in a
group of that body and in a list of it, whose captures stay the same. Bodies that are the same
without such groups, however deep they are, take the same items, and lists of them have the same
trees. A group of one clause that is no group itself takes as many items as that clause does if it
may repeat as often as both of them say. -/
theorem groups_take_what_stands_in_them (l : Language) :
    (∀ front inner back,
      ungroupedAll (front ++ .group inner .one :: back) =
        ungroupedAll (front ++ (inner ++ back)) ∧
      ∀ items,
        takeAll l.holds (front ++ .group inner .one :: back) items =
          takeAll l.holds (front ++ (inner ++ back)) items ∧
        ∀ q,
          (group (front ++ .group inner .one :: back) q).take l.holds items =
            (group (front ++ (inner ++ back)) q).take l.holds items ∧
          l.captures (.list (front ++ .group inner .one :: back) q) items =
            l.captures (.list (front ++ (inner ++ back)) q) items) ∧
    (∀ body body', ungroupedAll body = ungroupedAll body' →
      (∀ items, (takeAll l.holds body items).map Taken.ungrouped =
        (takeAll l.holds body' items).map Taken.ungrouped) ∧
      ∀ q t, l.fits (.list body q) t = l.fits (.list body' q) t) ∧
    ∀ c q items, c.isGroup = false →
      (group [c] q).take l.holds items =
        ((c.quantified (c.quantifier.combined q)).take l.holds items).map
          fun taken => (taken.1.map fun _ => c, taken.2) := by
  refine ⟨?_, ?_, ?_⟩
  · intro front inner back
    refine ⟨ungroupedAll_append_group_one front inner back, fun items => ?_⟩
    have hsame : takeAll l.holds (front ++ .group inner .one :: back) =
        takeAll l.holds (front ++ (inner ++ back)) :=
      funext (takeAll_append_group_one front inner back)
    refine ⟨congrFun hsame items, fun q => ⟨?_, ?_⟩⟩
    · rw [take, take, hsame]
    · rw [captures, captures, Clause.captures, Clause.captures, hsame]
  · intro body body' h
    refine ⟨fun items => ?_, fits_eq_of_ungroupedAll h⟩
    rw [← takeAll_ungroupedAll body, h, takeAll_ungroupedAll]
  · intro c q items hc
    rw [take_group_singleton hc, take_quantified hc]
    exact takeItems_renamed _ _ _ _

/-- Parameters are a group of names in a list of their own. Without the group the same functions
have their shape, and names that are to stand at least once may still be missing if their group
may. -/
theorem parameters_without_their_group :
    let names := (Language.empty "names").register "s" .symbol
    let identity := Tree.list [.symbol "fn", .list [.symbol "x"], .symbol "x"]
    names.fits (.list [.literal "fn" .one, .list [.group [.terminal "s" .zeroOrMore] .one] .one,
        .terminal "s" .one] .one) identity = true ∧
      names.fits (.list [.literal "fn" .one, .list [.terminal "s" .zeroOrMore] .one,
        .terminal "s" .one] .one) identity = true ∧
      (group [.terminal "s" .oneOrMore] .zeroOrMore).take names.holds [identity] =
        some ([], [identity]) := by
  intro names identity
  obtain ⟨-, hsame, hsingle⟩ := groups_take_what_stands_in_them names
  have hwith : names.fits (.list [.literal "fn" .one,
      .list [.group [.terminal "s" .zeroOrMore] .one] .one, .terminal "s" .one] .one) identity =
      true := by decide +kernel
  refine ⟨hwith, ?_, ?_⟩
  · rw [← hwith]
    exact (hsame _ _ rfl).2 _ _
  · rw [hsingle _ _ _ rfl]
    decide +kernel

end Language

end TreePasses
