-- Matching by counting. A body says how many items it takes, and names the clauses that take them
-- in a buffer that all its parts share, or nowhere if they are not asked for. A chunk that fails
-- has named some already, so the buffer is cut back to where the chunk began. Counting comes to the
-- same as taking, with a buffer and without one.
import TreePasses.Clause.Taking

namespace TreePasses.Clause

/-! ## The buffer -/

/-- The clauses named so far, one for each item, where they are asked for. -/
abbrev Buffer := Option (List Clause)

namespace Buffer

/-- How many clauses are named so far. -/
def size (b : Buffer) : Nat := (b.map List.length).getD 0

/-- Names more clauses. -/
def extend (b : Buffer) (named : List Clause) : Buffer := b.map (· ++ named)

/-- Keeps only the clauses before a mark. -/
def cutTo (b : Buffer) (mark : Nat) : Buffer := b.map (List.take mark)

@[simp]
theorem extend_nil (b : Buffer) : b.extend [] = b := by
  cases b <;> simp [extend]

@[simp]
theorem extend_extend (b : Buffer) (named more : List Clause) :
    (b.extend named).extend more = b.extend (named ++ more) := by
  cases b <;> simp [extend]

/-- Cut back to where it was, a buffer is what it was. -/
theorem cutTo_extend (b : Buffer) (named : List Clause) : (b.extend named).cutTo b.size = b := by
  cases b <;> simp [extend, cutTo, size]

end Buffer

/-! ## Counting -/

/-- How many neighbouring items pass a test of their own, by how often they may. -/
def countItems (q : Quantifier) (test : Tree → Bool) (items : List Tree) : Option Nat :=
  match q with
  | .one => (items.head?.filter test).map fun _ => 1
  | .zeroOrMore => some (items.takeWhile test).length
  | .oneOrMore => (some (items.takeWhile test).length).filter (0 < ·)

/-- Names a clause for each item counted. -/
def keep (c : Clause) (counted : Option Nat) (b : Buffer) : Option Nat × Buffer :=
  match counted with
  | none => (none, b)
  | some n => (some n, b.extend (List.replicate n c))

/-- Counts chunk after chunk until one fails, whose clauses are struck out of the buffer. A chunk
without items is the last one, and so is the first one if there is to be one only. Gives the items
counted, the chunks counted and the buffer. -/
def countChunks (q : Quantifier) (count : List Tree → Buffer → Option Nat × Buffer)
    (items : List Tree) (consumed chunks : Nat) (b : Buffer) : Nat × Nat × Buffer :=
  match count (items.drop consumed) b with
  | (none, failed) => (consumed, chunks, failed.cutTo b.size)
  | (some width, grown) =>
    -- Where a chunk has items, some items were left; this is said for termination only.
    if 0 < width ∧ consumed < items.length ∧ q ≠ .one then
      countChunks q count items (consumed + width) (chunks + 1) grown
    else (consumed + width, chunks + 1, grown)
termination_by items.length - consumed

/-- Counts the items of a group's chunks, and fails if there is no chunk where one has to be. -/
def countGroup (q : Quantifier) (count : List Tree → Buffer → Option Nat × Buffer)
    (items : List Tree) (b : Buffer) : Option Nat × Buffer :=
  let (consumed, chunks, kept) := countChunks q count items 0 0 b
  match q with
  | .zeroOrMore => (some consumed, kept)
  | _ => (if 0 < chunks then some consumed else none, kept)

/-- Whether all items of a list are counted. An atom has no items to count. -/
def countsTree (count : List Tree → Option Nat × Buffer) : Tree → Bool
  | .atom _ => false
  | .list items => (count items).1 = some items.length

mutual

/-- How many items one clause takes. Inside a list of its own no clauses are named. -/
def count (holds : String → Tree → Bool) : Clause → List Tree → Buffer → Option Nat × Buffer
  | .list body q, items, b =>
    keep (.list body q)
      (countItems q (countsTree fun inner => countAll holds body inner 0 none) items) b
  | .group body q, items, b =>
    countGroup q (fun inner kept => countAll holds body inner 0 kept) items b
  | .literal name q, items, b =>
    keep (.literal name q) (countItems q (Tree.isSymbol name) items) b
  | .terminal name q, items, b => keep (.terminal name q) (countItems q (holds name) items) b

/-- How many items the clauses of a body take, one after the other, once some are counted. -/
def countAll (holds : String → Tree → Bool) :
    List Clause → List Tree → Nat → Buffer → Option Nat × Buffer
  | [], _, consumed, b => (some consumed, b)
  | c :: cs, items, consumed, b =>
    match c.count holds (items.drop consumed) b with
    | (none, kept) => (none, kept)
    | (some n, kept) => countAll holds cs items (consumed + n) kept

end

/-- Whether a single tree has the shape of a clause, by counting without a buffer. -/
def countFits (holds : String → Tree → Bool) : Clause → Tree → Bool
  | .list body _, t => countsTree (fun items => countAll holds body items 0 none) t
  | .group _ _, _ => false
  | .literal name _, t => t.isSymbol name
  | .terminal name _, t => holds name t

/-- For a list clause that takes all of some items, the clauses named in a buffer on the way. -/
def countCaptures (holds : String → Tree → Bool) (c : Clause) (items : List Tree) :
    Option (List Clause) :=
  match c with
  | .list body _ =>
    let (counted, kept) := countAll holds body items 0 (some [])
    if counted = some items.length then kept else none
  | _ => none

/-! ## Counting and taking -/

/-- Counting from `start` on agrees with what is taken: the items counted are those taken, and the
buffer grows by the clauses that took them. Where nothing can be taken counting fails, and the
buffer may have grown by clauses named before the failure. -/
def Agrees (start : Nat) (counted : Buffer → Option Nat × Buffer) : Option Taken → Prop
  | some (taken, _) => ∀ b : Buffer, counted b = (some (start + taken.length), b.extend taken)
  | none => ∀ b : Buffer, ∃ named, counted b = (none, b.extend named)

theorem keep_agrees (c : Clause) (q : Quantifier) (test : Tree → Bool) (items : List Tree) :
    Agrees 0 (keep c (countItems q test items)) (takeItems c q test items) := by
  cases q with
  | one =>
    cases items with
    | nil => exact fun b => ⟨[], by simp [keep, countItems]⟩
    | cons t ts =>
      by_cases ht : test t = true
      · have htake : takeItems c .one test (t :: ts) = some ([c], ts) := by simp [takeItems, ht]
        rw [htake]
        intro b
        simp [keep, countItems, Option.filter, ht]
      · have htake : takeItems c .one test (t :: ts) = none := by simp [takeItems, ht]
        rw [htake]
        exact fun b => ⟨[], by simp [keep, countItems, Option.filter, ht]⟩
  | zeroOrMore =>
    intro b
    simp [keep, countItems]
  | oneOrMore =>
    by_cases hnone : (items.takeWhile test).length = 0
    · have htake : takeItems c .oneOrMore test items = none := by simp [takeItems, hnone]
      rw [htake]
      exact fun b => ⟨[], by simp [keep, countItems, Option.filter, hnone]⟩
    · have htake : takeItems c .oneOrMore test items =
          some (List.replicate (items.takeWhile test).length c,
            items.drop (items.takeWhile test).length) := by simp [takeItems, hnone]
      rw [htake]
      intro b
      simp [keep, countItems, Option.filter, Nat.pos_of_ne_zero hnone]

section

variable {step : List Tree → Option Taken} {count : List Tree → Buffer → Option Nat × Buffer}
  (hfair : Fair step) (hcount : ∀ items, Agrees 0 (count items) (step items))

include hcount

/-- A group that stands once counts one chunk. -/
theorem countGroup_one_agrees (items : List Tree) :
    Agrees 0 (countGroup .one count items) (step items) := by
  have hitems := hcount items
  cases hs : step items with
  | none =>
    rw [hs] at hitems
    intro b
    obtain ⟨named, hb⟩ := hitems b
    exact ⟨[], by simp [countGroup, countChunks, hb, Buffer.cutTo_extend]⟩
  | some outcome =>
    obtain ⟨taken, rest⟩ := outcome
    rw [hs] at hitems
    intro b
    simp [countGroup, countChunks, hitems b]

include hfair

/-- A repeated group counts the chunks that are taken. Whatever a chunk that fails has named, the
buffer holds the clauses of the chunks before it only. -/
theorem countChunks_eq {q : Quantifier} (hq : q ≠ .one) (items : List Tree)
    (consumed chunks : Nat) (b : Buffer) :
    countChunks q count items consumed chunks b =
      (consumed + (takeChunks step (items.drop consumed)).1.flatten.length,
        chunks + (takeChunks step (items.drop consumed)).1.length,
        b.extend (takeChunks step (items.drop consumed)).1.flatten) := by
  generalize hrest : items.drop consumed = rest
  fun_induction takeChunks step rest generalizing consumed chunks b with
  | case1 rest hs =>
    have hitems := hcount rest
    rw [hs] at hitems
    obtain ⟨named, hb⟩ := hitems b
    rw [countChunks, hrest, hb]
    simp [Buffer.cutTo_extend]
  | case2 rest chunk left hs hlt others last hrec ih =>
    have hitems := hcount rest
    rw [hs] at hitems
    obtain ⟨rfl, hle⟩ := hfair _ _ _ hs
    have hpos : 0 < chunk.length := by
      rw [List.length_drop] at hlt
      omega
    have hleft : consumed < items.length := by
      rw [← hrest, List.length_drop] at hle
      omega
    have hdrop : items.drop (consumed + chunk.length) = rest.drop chunk.length := by
      rw [← hrest, List.drop_drop]
    rw [countChunks, hrest, hitems b]
    simp only [Nat.zero_add, hpos, hleft, hq, ne_eq, not_false_eq_true, and_self, if_true]
    rw [ih _ _ _ hdrop, hrec]
    simp [Nat.add_assoc, Nat.add_comm 1]
  | case3 rest chunk left hs hlt =>
    have hitems := hcount rest
    rw [hs] at hitems
    obtain ⟨rfl, hle⟩ := hfair _ _ _ hs
    have hnone : ¬ 0 < chunk.length := by
      rw [List.length_drop] at hlt
      omega
    rw [countChunks, hrest, hitems b]
    simp [hnone]

theorem countGroup_agrees (q : Quantifier) (items : List Tree) :
    Agrees 0 (countGroup q count items) (takeGroup q step items) := by
  cases q with
  | one => exact countGroup_one_agrees hcount items
  | zeroOrMore =>
    intro b
    simp [countGroup, countChunks_eq hfair hcount]
  | oneOrMore =>
    by_cases hnone : (takeChunks step items).1 = []
    · have htake : takeGroup .oneOrMore step items = none := by simp [takeGroup, hnone]
      rw [htake]
      exact fun b => ⟨[], by simp [countGroup, countChunks_eq hfair hcount, hnone]⟩
    · have htake : takeGroup .oneOrMore step items =
          some ((takeChunks step items).1.flatten, (takeChunks step items).2) := by
        simp [takeGroup, hnone]
      rw [htake]
      intro b
      simp [countGroup, countChunks_eq hfair hcount, List.length_pos_iff.mpr hnone]

end

/-- A step that takes as many items as there are leaves none. -/
theorem Fair.length_eq_iff {step : List Tree → Option Taken} (hfair : Fair step)
    {items rest : List Tree} {taken : List Clause} (h : step items = some (taken, rest)) :
    taken.length = items.length ↔ rest = [] := by
  obtain ⟨rfl, hle⟩ := hfair _ _ _ h
  rw [List.drop_eq_nil_iff]
  omega

/-- A step counts all items of a list exactly if it takes them all. -/
theorem countsTree_eq {step : List Tree → Option Taken} (hfair : Fair step)
    {count : List Tree → Buffer → Option Nat × Buffer}
    (hcount : ∀ items, Agrees 0 (count items) (step items)) (t : Tree) :
    countsTree (fun items => count items none) t = coversTree step t := by
  cases t with
  | atom a => rfl
  | list items =>
    have hitems := hcount items
    rw [countsTree, coversTree]
    cases hs : step items with
    | none =>
      rw [hs] at hitems
      obtain ⟨named, hb⟩ := hitems none
      simp [hb]
    | some outcome =>
      obtain ⟨taken, rest⟩ := outcome
      rw [hs] at hitems
      have hall := hfair.length_eq_iff hs
      cases rest <;> simp [hitems none, hall]

theorem countAll_agrees_of_count {holds : String → Tree → Bool} {body : List Clause}
    (hb : ∀ c ∈ body, ∀ items, Agrees 0 (c.count holds items) (c.take holds items))
    (items : List Tree) (consumed : Nat) :
    Agrees consumed (countAll holds body items consumed)
      (takeAll holds body (items.drop consumed)) := by
  induction body generalizing consumed with
  | nil =>
    intro b
    simp [countAll]
  | cons c cs ih =>
    have hfirst := hb c (by simp) (items.drop consumed)
    rw [takeAll]
    cases hc : c.take holds (items.drop consumed) with
    | none =>
      rw [hc] at hfirst
      intro b
      obtain ⟨named, hn⟩ := hfirst b
      exact ⟨named, by rw [countAll, hn]⟩
    | some first =>
      obtain ⟨taken, rest⟩ := first
      obtain ⟨rfl, -⟩ := take_fair holds c _ _ _ hc
      have hothers := ih (fun d hd => hb d (by simp [hd])) (consumed + taken.length)
      rw [hc] at hfirst
      rw [← List.drop_drop] at hothers
      simp only
      cases hcs : takeAll holds cs ((items.drop consumed).drop taken.length) with
      | none =>
        rw [hcs] at hothers
        intro b
        obtain ⟨named, hn⟩ := hothers (b.extend taken)
        exact ⟨taken ++ named, by simp [countAll, hfirst b, hn]⟩
      | some others =>
        obtain ⟨more, left⟩ := others
        rw [hcs] at hothers
        intro b
        simp [countAll, hfirst b, hothers (b.extend taken), Nat.add_assoc]

/-- A clause counts the items that it takes. -/
theorem count_agrees (holds : String → Tree → Bool) (c : Clause) (items : List Tree) :
    Agrees 0 (c.count holds items) (c.take holds items) := by
  induction c generalizing items with
  | list body q ih =>
    have hbody : ∀ inner, Agrees 0 (countAll holds body inner 0) (takeAll holds body inner) :=
      fun inner => countAll_agrees_of_count ih inner 0
    have htest : (countsTree fun inner => countAll holds body inner 0 none) =
        coversTree fun inner => takeAll holds body inner :=
      funext (countsTree_eq (takeAll_fair holds body) hbody)
    rw [take, ← htest]
    exact keep_agrees _ _ _ _
  | group body q ih =>
    exact countGroup_agrees (takeAll_fair holds body)
      (fun inner => countAll_agrees_of_count ih inner 0) q items
  | literal name q => exact keep_agrees _ _ _ _
  | terminal name q => exact keep_agrees _ _ _ _

/-- A body counts the items that it takes, and names the clauses that take them. -/
theorem countAll_agrees (holds : String → Tree → Bool) (body : List Clause) (items : List Tree) :
    Agrees 0 (countAll holds body items 0) (takeAll holds body items) :=
  countAll_agrees_of_count (fun c _ => count_agrees holds c) items 0

/-- Counting without a buffer finds the trees that have the shape of a clause. -/
theorem countFits_eq (holds : String → Tree → Bool) (c : Clause) (t : Tree) :
    c.countFits holds t = c.fits holds t := by
  cases c with
  | list body q => exact countsTree_eq (takeAll_fair holds body) (countAll_agrees holds body) t
  | _ => rfl

/-- Counting with a buffer that is empty at first finds the captures of a clause. -/
theorem countCaptures_eq (holds : String → Tree → Bool) (c : Clause) (items : List Tree) :
    c.countCaptures holds items = c.captures holds items := by
  cases c with
  | list body q =>
    have hbody := countAll_agrees holds body items
    rw [countCaptures, captures]
    cases htake : takeAll holds body items with
    | none =>
      rw [htake] at hbody
      obtain ⟨named, hnone⟩ := hbody (some [])
      simp [hnone]
    | some outcome =>
      obtain ⟨taken, rest⟩ := outcome
      rw [htake] at hbody
      have hall := (takeAll_fair holds body).length_eq_iff htake
      cases rest <;> simp [hbody (some []), hall, Buffer.extend]
  | _ => rfl

end TreePasses.Clause
