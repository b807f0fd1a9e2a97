-- Matching and transforming by calls that call each other, as far as a bound on the calls goes. In
-- a language with no name alone for any form among its clauses, each tree needs only so many calls,
-- and more of them give the same answer.
import TreePasses.Language.Membership
import TreePasses.Pass.Transform
import TreePasses.Proofs.Words

namespace TreePasses

/-! ## Calls -/

namespace Language.Bounded

open Clause (Taken)

mutual

/-- Whether a tree has the shape of a clause. No answer means that the calls did not suffice. -/
def fits (l : Language) : (calls : Nat) → Clause → Tree → Option Bool
  | 0, _, _ => none
  | calls + 1, .list body _, .list items => do
    match ← takeAll l calls body items with
    | some (_, []) => return true
    | _ => return false
  | _ + 1, .list _ _, .atom _ => return false
  | _ + 1, .group _ _, _ => return false
  | _ + 1, .literal name _, t => return t.isSymbol name
  | calls + 1, .terminal name _, t =>
    match l.terminal? name with
    | none => return false
    | some .expression => return (← firstOf l calls l.entries t).isSome
    | some terminal => return terminal.holds (fun _ => false) t

/-- The first of some entries whose clause a tree has the shape of. -/
def firstOf (l : Language) : (calls : Nat) → List Entry → Tree → Option (Option Entry)
  | 0, _, _ => none
  | _ + 1, [], _ => return none
  | calls + 1, e :: es, t => do
    if ← fits l calls e.clause t then return some e else firstOf l calls es t

/-- How many items from the front on have the shape of a clause. -/
def count (l : Language) : (calls : Nat) → Clause → List Tree → Option Nat
  | 0, _, _ => none
  | _ + 1, _, [] => return 0
  | calls + 1, c, t :: ts => do
    if ← fits l calls c t then return (← count l calls c ts) + 1 else return 0

/-- What one clause takes. -/
def take (l : Language) : (calls : Nat) → Clause → List Tree → Option (Option Taken)
  | 0, _, _ => none
  | calls + 1, .group body .one, items => takeAll l calls body items
  | calls + 1, .group body .zeroOrMore, items => do
    let (chunks, rest) ← takeChunks l calls body items
    return some (chunks.flatten, rest)
  | calls + 1, .group body .oneOrMore, items => do
    let (chunks, rest) ← takeChunks l calls body items
    return if chunks.isEmpty then none else some (chunks.flatten, rest)
  | calls + 1, c, items =>
    match c.quantifier, items with
    | .one, [] => return none
    | .one, t :: rest => do
      return if ← fits l calls c t then some ([c], rest) else none
    | .zeroOrMore, items => do
      let count ← count l calls c items
      return some (List.replicate count c, items.drop count)
    | .oneOrMore, items => do
      let count ← count l calls c items
      return if count = 0 then none else some (List.replicate count c, items.drop count)

/-- Takes chunks of items by a body, until that fails. A chunk without items is the last one. -/
def takeChunks (l : Language) :
    (calls : Nat) → List Clause → List Tree → Option (List (List Clause) × List Tree)
  | 0, _, _ => none
  | calls + 1, body, items => do
    match ← takeAll l calls body items with
    | none => return ([], items)
    | some (chunk, rest) =>
      if rest.length < items.length then
        let (chunks, left) ← takeChunks l calls body rest
        return (chunk :: chunks, left)
      else return ([chunk], rest)

/-- What the clauses of a body take, one after the other. -/
def takeAll (l : Language) : (calls : Nat) → List Clause → List Tree → Option (Option Taken)
  | 0, _, _ => none
  | _ + 1, [], items => return some ([], items)
  | calls + 1, c :: cs, items => do
    match ← take l calls c items with
    | none => return none
    | some (first, rest) =>
      match ← takeAll l calls cs rest with
      | none => return none
      | some (others, left) => return some (first ++ others, left)

end

/-- For a list clause that takes all of some items, the clause that took each of them. -/
def captures (l : Language) (calls : Nat) (c : Clause) (items : List Tree) :
    Option (Option (List Clause)) :=
  match c with
  | .list body _ => do
    match ← takeAll l calls body items with
    | some (taken, []) => return some taken
    | _ => return none
  | _ => return none

/-- The first entry whose clause a tree has the shape of. -/
def entryOf (l : Language) (calls : Nat) (t : Tree) : Option (Option Entry) :=
  firstOf l calls l.entries t

/-- Whether a tree belongs to the language. -/
def accepts (l : Language) (calls : Nat) (t : Tree) : Option Bool := do
  return (← entryOf l calls t).isSome

mutual

/-- What becomes of a form of an entry. -/
def transformForm (l : Language) (rules : RuleTable) :
    (calls : Nat) → Entry → Tree → Option Tree
  | 0, _, _ => none
  | calls + 1, e, t => do
    let inside ← (if e.verbatim then pure t else rebuild l rules calls e.clause t)
    return rules.apply e.id inside

/-- What becomes of a tree whose items a clause takes. -/
def rebuild (l : Language) (rules : RuleTable) : (calls : Nat) → Clause → Tree → Option Tree
  | 0, _, _ => none
  | _ + 1, _, .atom a => return .atom a
  | calls + 1, c, .list items => do
    match ← captures l calls c items with
    | some captures => return .list (← transformAll l rules calls items captures)
    | none => return .list items

/-- What becomes of items, each with the clause that took it. -/
def transformAll (l : Language) (rules : RuleTable) :
    (calls : Nat) → List Tree → List Clause → Option (List Tree)
  | 0, _, _ => none
  | calls + 1, t :: ts, c :: cs => do
    return (← transform l rules calls t c) :: (← transformAll l rules calls ts cs)
  | _ + 1, _, _ => return []

/-- What becomes of a tree that a clause took. -/
def transform (l : Language) (rules : RuleTable) : (calls : Nat) → Tree → Clause → Option Tree
  | 0, _, _ => none
  | calls + 1, t, .list body q => rebuild l rules calls (.list body q) t
  | calls + 1, t, .terminal name _ => do
    if l.terminal? name = some .expression then
      match ← entryOf l calls t with
      | some e => transformForm l rules calls e t
      | none => return t
    else return t
  | _ + 1, t, _ => return t

end

end Language.Bounded

/-! ## Answers -/

/-- With enough calls there is an answer, and no number of calls gives another one. -/
structure Settles {α : Type} (f : Nat → Option α) (a : α) : Prop where
  only : ∀ calls b, f calls = some b → b = a
  enough : ∃ calls, ∀ more, calls ≤ more → f more = some a

namespace Settles

variable {α β : Type} {a : α} {b : β}

theorem pure (a : α) : Settles (fun _ => some a) a :=
  ⟨fun _ _ h => (Option.some.inj h).symm, 0, fun _ _ => rfl⟩

theorem bind {f : Nat → Option α} {g : α → Nat → Option β} (hf : Settles f a)
    (hg : Settles (g a) b) : Settles (fun calls => f calls >>= fun x => g x calls) b := by
  refine ⟨?_, ?_⟩
  · intro calls c h
    cases hx : f calls with
    | none => simp [hx] at h
    | some x =>
      cases hf.only calls x hx
      exact hg.only calls c (by simpa [hx] using h)
  · obtain ⟨m, hm⟩ := hf.enough
    obtain ⟨n, hn⟩ := hg.enough
    refine ⟨max m n, ?_⟩
    intro more hmore
    simp [hm more (by omega), hn more (by omega)]

theorem map {f : Nat → Option α} (hf : Settles f a) (g : α → β) :
    Settles (fun calls => f calls >>= fun x => some (g x)) (g a) :=
  hf.bind (g := fun x _ => some (g x)) (.pure (g a))

/-- A call takes one of the calls, and all others are left for what it does. -/
theorem call {f g : Nat → Option α} (hg : Settles g a) (hzero : f 0 = none)
    (hsucc : ∀ calls, f (calls + 1) = g calls) : Settles f a := by
  refine ⟨?_, ?_⟩
  · intro calls b h
    cases calls with
    | zero =>
      rw [hzero] at h
      cases h
    | succ calls => exact hg.only calls b (hsucc calls ▸ h)
  · obtain ⟨n, hn⟩ := hg.enough
    refine ⟨n + 1, ?_⟩
    intro more hmore
    obtain ⟨m, rfl⟩ : ∃ m, more = m + 1 := ⟨more - 1, by omega⟩
    rw [hsucc, hn m (by omega)]

end Settles

namespace Language

variable {l : Language}

/-! ## Matching -/

theorem settles_count {c : Clause} {test : Tree → Bool} {items : List Tree}
    (h : ∀ t ∈ items, Settles (Bounded.fits l · c t) (test t)) :
    Settles (Bounded.count l · c items) (items.takeWhile test).length := by
  induction items with
  | nil => exact (Settles.pure 0).call rfl fun _ => rfl
  | cons t ts ih =>
    obtain ⟨ht, hts⟩ := List.forall_mem_cons.mp h
    refine (ht.bind ?_).call rfl fun _ => rfl
    cases htest : test t with
    | false => simpa [htest] using Settles.pure 0
    | true => simpa [htest] using (ih hts).map (· + 1)

theorem bounded_take_succ {c : Clause} (hc : c.isGroup = false) (calls : Nat)
    (items : List Tree) :
    Bounded.take l (calls + 1) c items =
      match c.quantifier, items with
      | .one, [] => some none
      | .one, t :: rest =>
        Bounded.fits l calls c t >>= fun x => some (if x then some ([c], rest) else none)
      | .zeroOrMore, items => Bounded.count l calls c items >>= fun n =>
        some (some (List.replicate n c, items.drop n))
      | .oneOrMore, items => Bounded.count l calls c items >>= fun n =>
        some (if n = 0 then none else some (List.replicate n c, items.drop n)) := by
  cases c with
  | group body q => cases hc
  | _ => rfl

/-- A clause that is no group settles what it takes if it settles which items it fits. -/
theorem settles_take_items {c : Clause} (hc : c.isGroup = false) {items : List Tree}
    (h : ∀ t ∈ items, Settles (Bounded.fits l · c t) (l.fits c t)) :
    Settles (Bounded.take l · c items) (c.take l.holds items) := by
  have hcount := settles_count h
  have htake : c.take l.holds items = Clause.takeItems c c.quantifier (l.fits c) items :=
    Clause.take_of_isGroup hc items
  rw [htake]
  refine Settles.call ?_ rfl fun calls => bounded_take_succ hc calls items
  unfold Clause.takeItems
  cases c.quantifier with
  | one =>
    cases items with
    | nil => exact .pure none
    | cons t rest => exact (h t (by simp)).map fun x => if x then some ([c], rest) else none
  | zeroOrMore => exact hcount.map fun n => some (List.replicate n c, items.drop n)
  | oneOrMore =>
    exact hcount.map fun n => if n = 0 then none else some (List.replicate n c, items.drop n)

theorem settles_takeChunks {body : List Clause} {step : List Tree → Option Clause.Taken}
    (hs : Clause.Fair step) {P : Tree → Prop} (h : ∀ items : List Tree, (∀ t ∈ items, P t) →
      Settles (Bounded.takeAll l · body items) (step items)) (items : List Tree)
    (hi : ∀ t ∈ items, P t) :
    Settles (Bounded.takeChunks l · body items) (Clause.takeChunks step items) := by
  fun_induction Clause.takeChunks step items with
  | case1 items hn =>
    have hstep := h items hi
    rw [hn] at hstep
    exact (hstep.bind (.pure _)).call rfl fun _ => rfl
  | case2 items chunk rest hn hlt chunks left hrec ih =>
    have hstep := h items hi
    rw [hn] at hstep
    have hr := (hs _ _ _ hn).1
    have hrest := ih fun t ht => hi t (List.mem_of_mem_drop (hr ▸ ht))
    rw [hrec] at hrest
    refine (hstep.bind ?_).call rfl fun _ => rfl
    simp only [hlt, if_true]
    exact hrest.map fun x => (chunk :: x.1, x.2)
  | case3 items chunk rest hn hlt =>
    have hstep := h items hi
    rw [hn] at hstep
    refine (hstep.bind ?_).call rfl fun _ => rfl
    simp only [hlt, if_false]
    exact .pure _

theorem settles_take_group {body : List Clause} {q : Quantifier}
    {step : List Tree → Option Clause.Taken} (hs : Clause.Fair step) {P : Tree → Prop}
    (h : ∀ items : List Tree, (∀ t ∈ items, P t) →
      Settles (Bounded.takeAll l · body items) (step items)) (items : List Tree)
    (hi : ∀ t ∈ items, P t) :
    Settles (Bounded.take l · (.group body q) items) (Clause.takeGroup q step items) := by
  have hchunks := settles_takeChunks hs h items hi
  cases q with
  | one => exact (h items hi).call rfl fun _ => rfl
  | zeroOrMore => exact (hchunks.map fun x => some (x.1.flatten, x.2)).call rfl fun _ => rfl
  | oneOrMore =>
    exact (hchunks.map fun x => if x.1.isEmpty then none else some (x.1.flatten, x.2)).call rfl
      fun _ => rfl

theorem settles_takeAll_of {body : List Clause} {P : Tree → Prop}
    (hb : ∀ c ∈ body, ∀ items : List Tree, (∀ t ∈ items, P t) →
      Settles (Bounded.take l · c items) (c.take l.holds items)) (items : List Tree)
    (hi : ∀ t ∈ items, P t) :
    Settles (Bounded.takeAll l · body items) (Clause.takeAll l.holds body items) := by
  induction body generalizing items with
  | nil => exact (Settles.pure _).call rfl fun _ => rfl
  | cons c cs ih =>
    obtain ⟨hc, hcs⟩ := List.forall_mem_cons.mp hb
    refine ((hc items hi).bind ?_).call rfl fun _ => rfl
    rw [Clause.takeAll]
    cases hfirst : c.take l.holds items with
    | none => exact .pure none
    | some first =>
      obtain ⟨xs, rest⟩ := first
      have hr := (Clause.take_fair l.holds c _ _ _ hfirst).1
      have hothers := ih hcs rest fun t ht => hi t (List.mem_of_mem_drop (hr ▸ ht))
      refine hothers.bind ?_
      dsimp only
      cases Clause.takeAll l.holds cs rest with
      | none => exact .pure none
      | some others => exact .pure _

theorem settles_fits_list {body : List Clause} {q : Quantifier} {items : List Tree}
    (h : Settles (Bounded.takeAll l · body items) (Clause.takeAll l.holds body items)) :
    Settles (Bounded.fits l · (.list body q) (.list items))
      (l.fits (.list body q) (.list items)) := by
  refine (h.bind ?_).call rfl fun _ => rfl
  simp only [fits, Clause.fits, Clause.coversTree]
  rcases Clause.takeAll l.holds body items with _ | ⟨taken, _ | ⟨t, rest⟩⟩
  · exact .pure false
  · exact .pure true
  · exact .pure false

/-- A name settles what it fits, and needs to be sure about the forms only if it stands for
them. -/
theorem settles_fits_terminal {name : String} {q : Quantifier} {t : Tree}
    (h : l.terminal? name = some .expression → Settles (Bounded.entryOf l · t) (l.entryOf? t) ∧
      l.accepts t = (l.entryOf? t).isSome) :
    Settles (Bounded.fits l · (.terminal name q) t) (l.fits (.terminal name q) t) := by
  simp only [fits, Clause.fits, holds, holdsGiven]
  cases hk : l.terminal? name with
  | none =>
    refine (Settles.pure false).call rfl fun _ => ?_
    simp [Bounded.fits, hk]
  | some k =>
    cases k with
    | expression =>
      obtain ⟨hentry, hacc⟩ := h hk
      simp only [Terminal.holds, hacc]
      refine (hentry.map Option.isSome).call rfl fun _ => ?_
      simp [Bounded.fits, hk, Bounded.entryOf]
    | _ =>
      refine (Settles.pure _).call rfl fun _ => ?_
      simp [Bounded.fits, hk, Terminal.holds]

section

variable (hl : l.Grounded) {n : Nat}
  (hn : ∀ t, t.height ≤ n → Settles (Bounded.entryOf l · t) (l.entryOf? t))
include hl hn

/-- Matching settles on items for which it is settled what forms they and their parts are. The
induction is on the clause: a list clause goes on to lower trees, and a group to shorter lists. -/
theorem settles_take {c : Clause} {items : List Tree} (hi : ∀ t ∈ items, t.height ≤ n) :
    Settles (Bounded.take l · c items) (c.take l.holds items) := by
  induction c generalizing items with
  | list body q ih =>
    refine settles_take_items rfl fun t ht => ?_
    cases t with
    | atom a => exact (Settles.pure false).call rfl fun _ => rfl
    | list inner =>
      have hinner : ∀ u ∈ inner, u.height ≤ n := fun u hu =>
        Nat.le_trans (Nat.le_of_lt (Tree.height_lt_of_mem hu)) (hi _ ht)
      exact settles_fits_list (settles_takeAll_of (fun c hc _ => ih c hc) inner hinner)
  | group body q ih =>
    exact settles_take_group (Clause.takeAll_fair l.holds body)
      (settles_takeAll_of fun c hc _ => ih c hc) items hi
  | literal name q =>
    exact settles_take_items rfl fun t _ => (Settles.pure _).call rfl fun _ => rfl
  | terminal name q =>
    refine settles_take_items rfl fun t ht => settles_fits_terminal fun _ => ?_
    exact ⟨hn t (hi t ht), accepts_eq_isSome hl t⟩

theorem settles_takeAll {body : List Clause} {items : List Tree}
    (hi : ∀ t ∈ items, t.height ≤ n) :
    Settles (Bounded.takeAll l · body items) (Clause.takeAll l.holds body items) :=
  settles_takeAll_of (fun _ _ _ => settles_take hl hn) items hi

/-- A clause that is no name for any form only asks about lower trees. -/
theorem settles_fits_of_lower {c : Clause} (hc : l.isLeftRecursive c = false) {t : Tree}
    (ht : t.height ≤ n + 1) : Settles (Bounded.fits l · c t) (l.fits c t) := by
  cases c with
  | list body q =>
    cases t with
    | atom a => exact (Settles.pure false).call rfl fun _ => rfl
    | list items =>
      refine settles_fits_list (settles_takeAll hl hn fun u hu => ?_)
      have := Tree.height_lt_of_mem hu
      omega
  | group body q => exact (Settles.pure false).call rfl fun _ => rfl
  | literal name q => exact (Settles.pure _).call rfl fun _ => rfl
  | terminal name q => exact settles_fits_terminal fun hk => absurd hk (of_decide_eq_false hc)

end

theorem settles_firstOf {es : List Entry} {t : Tree}
    (h : ∀ e ∈ es, Settles (Bounded.fits l · e.clause t) (l.fits e.clause t)) :
    Settles (Bounded.firstOf l · es t) (es.find? fun e => l.fits e.clause t) := by
  induction es with
  | nil => exact (Settles.pure none).call rfl fun _ => rfl
  | cons e es ih =>
    obtain ⟨he, hes⟩ := List.forall_mem_cons.mp h
    refine (he.bind ?_).call rfl fun _ => rfl
    rw [List.find?_cons]
    cases l.fits e.clause t with
    | false => exact ih hes
    | true => exact .pure (some e)

/-- What form a tree is settles level by level: the entries ask about lower trees only. -/
theorem settles_entryOf (hl : l.Grounded) (t : Tree) :
    Settles (Bounded.entryOf l · t) (l.entryOf? t) := by
  suffices h : ∀ n t, t.height ≤ n → Settles (Bounded.entryOf l · t) (l.entryOf? t) from
    h t.height t (Nat.le_refl _)
  intro n
  induction n with
  | zero =>
    intro t ht
    have := t.height_pos
    omega
  | succ n ih =>
    intro t ht
    exact settles_firstOf fun e he => settles_fits_of_lower hl ih (hl e he) ht

theorem settles_accepts (hl : l.Grounded) (t : Tree) :
    Settles (Bounded.accepts l · t) (l.accepts t) := by
  rw [accepts_eq_isSome hl]
  exact (settles_entryOf hl t).map Option.isSome

theorem settles_fits (hl : l.Grounded) (c : Clause) (t : Tree) :
    Settles (Bounded.fits l · c t) (l.fits c t) := by
  by_cases hc : l.isLeftRecursive c = true
  · cases c with
    | terminal name q =>
      exact settles_fits_terminal fun _ => ⟨settles_entryOf hl t, accepts_eq_isSome hl t⟩
    | _ => cases hc
  · exact settles_fits_of_lower hl (fun u _ => settles_entryOf hl u) (eq_false_of_ne_true hc)
      (Nat.le_succ t.height)

theorem settles_captures (hl : l.Grounded) (c : Clause) (items : List Tree) :
    Settles (Bounded.captures l · c items) (l.captures c items) := by
  cases c with
  | list body q =>
    have htaken : Settles (Bounded.takeAll l · body items) (Clause.takeAll l.holds body items) :=
      settles_takeAll hl (fun u _ => settles_entryOf hl u) fun u hu => Tree.height_le_heights hu
    refine htaken.bind ?_
    simp only [captures, Clause.captures]
    rcases Clause.takeAll l.holds body items with _ | ⟨taken, _ | ⟨t, rest⟩⟩
    · exact .pure none
    · exact .pure (some taken)
    · exact .pure none
  | _ => exact .pure none

/-! ## Transforming -/

theorem settles_transformAll_of {rules : RuleTable} {ts : List Tree}
    (h : ∀ t ∈ ts, ∀ c, Settles (Bounded.transform l rules · t c) (l.transform rules t c))
    (cs : List Clause) :
    Settles (Bounded.transformAll l rules · ts cs) (l.transformAll rules ts cs) := by
  induction ts generalizing cs with
  | nil => exact (Settles.pure []).call rfl fun _ => rfl
  | cons t ts ih =>
    obtain ⟨ht, hts⟩ := List.forall_mem_cons.mp h
    cases cs with
    | nil => exact (Settles.pure []).call rfl fun _ => rfl
    | cons c cs =>
      rw [transformAll]
      refine ((ht c).bind ?_).call rfl fun _ => rfl
      exact (ih hts cs).map (l.transform rules t c :: ·)

section

variable (hl : l.Grounded) (rules : RuleTable)
include hl

/-- A tree is rebuilt if all its items are transformed. -/
theorem settles_rebuild {t : Tree} {items : List Clause → List Tree} (c : Clause)
    (h : ∀ old, t = .list old → ∀ cs, Settles (Bounded.transformAll l rules · old cs) (items cs)) :
    Settles (Bounded.rebuild l rules · c t) (l.rebuild c t items) := by
  cases t with
  | atom a => exact (Settles.pure _).call rfl fun _ => rfl
  | list old =>
    refine ((settles_captures hl c old).bind ?_).call rfl fun _ => rfl
    unfold rebuild
    dsimp only
    cases l.captures c old with
    | none => exact .pure _
    | some cs => exact (h old rfl cs).map Tree.list

theorem settles_convertForm {t : Tree} {items : List Clause → List Tree} (e : Entry)
    (h : ∀ old, t = .list old → ∀ cs, Settles (Bounded.transformAll l rules · old cs) (items cs)) :
    Settles (Bounded.transformForm l rules · e t) (l.convertForm rules e t items) := by
  have hinside : Settles (fun calls => if e.verbatim then some t else
      Bounded.rebuild l rules calls e.clause t)
      (if e.verbatim then t else l.rebuild e.clause t items) := by
    cases e.verbatim with
    | false => exact settles_rebuild hl rules e.clause h
    | true => exact .pure t
  exact (hinside.map (rules.apply e.id)).call rfl fun _ => rfl

theorem settles_convertTaken {t : Tree} {items : List Clause → List Tree} (c : Clause)
    (h : ∀ old, t = .list old → ∀ cs, Settles (Bounded.transformAll l rules · old cs) (items cs)) :
    Settles (Bounded.transform l rules · t c) (l.convertTaken rules c t items) := by
  cases c with
  | list body q => exact (settles_rebuild hl rules (.list body q) h).call rfl fun _ => rfl
  | terminal name q =>
    by_cases hk : l.terminal? name = some .expression
    · have hsucc : ∀ calls, Bounded.transform l rules (calls + 1) t (.terminal name q) =
          Bounded.entryOf l calls t >>= fun found =>
            match found with
            | some e => Bounded.transformForm l rules calls e t
            | none => some t := by
        intro calls
        simp only [Bounded.transform, hk, if_true]
        rfl
      refine ((settles_entryOf hl t).bind ?_).call rfl hsucc
      simp only [convertTaken, hk, if_true]
      cases l.entryOf? t with
      | none => exact .pure t
      | some e => exact settles_convertForm hl rules e h
    · simp only [convertTaken, hk, if_false]
      refine (Settles.pure t).call rfl fun _ => ?_
      simp only [Bounded.transform, hk, if_false]
      rfl
  | group body q => exact (Settles.pure t).call rfl fun _ => rfl
  | literal name q => exact (Settles.pure t).call rfl fun _ => rfl

/-- Transforming settles from the inside out. -/
theorem settles_transform (t : Tree) (c : Clause) :
    Settles (Bounded.transform l rules · t c) (l.transform rules t c) := by
  induction t generalizing c with
  | atom a =>
    rw [transform]
    refine settles_convertTaken hl rules c ?_
    rintro old ⟨⟩
  | list items ih =>
    rw [transform]
    refine settles_convertTaken hl rules c ?_
    rintro old ⟨⟩ cs
    exact settles_transformAll_of (fun t ht c => ih t ht c) cs

theorem settles_transformForm (e : Entry) (t : Tree) :
    Settles (Bounded.transformForm l rules · e t) (l.transformForm rules e t) := by
  refine settles_convertForm hl rules e ?_
  rintro old rfl cs
  exact settles_transformAll_of (fun t _ c => settles_transform hl rules t c) cs

end

end Language

end TreePasses
