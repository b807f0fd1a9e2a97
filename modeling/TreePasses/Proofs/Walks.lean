-- Walks through a tree of a language. A walk goes where a pass goes, and does at each form what it
-- is told once the items of the form are done. If that is to apply rules, the walk comes to what
-- the pass makes of the tree, whatever else it does on the way.
import TreePasses.Proofs.FormPositions

namespace TreePasses

/-- What to do on a walk through a tree, with effects of some kind. -/
structure Walker (m : Type → Type) where
  /-- At a form of an entry, once its items are done. The form goes by its path. -/
  form : List Nat → Entry → Tree → m Tree
  /-- At a tree that no entry fits, where any form may stand. -/
  stray : Tree → m Tree
  /-- At a tree that a clause does not take as a whole. -/
  untaken : Clause → Tree → m Tree

namespace Language

section

variable {m : Type → Type} [Monad m]

/-- Walks through the items of a tree that a clause takes as a whole. -/
def walkItems (l : Language) (w : Walker m) (c : Clause) (t : Tree)
    (items : List Clause → m (List Tree)) : m Tree :=
  match t with
  | .atom a => w.untaken c (.atom a)
  | .list old =>
    match l.captures c old with
    | some captures => Tree.list <$> items captures
    | none => w.untaken c (.list old)

/-- Walks through a form of an entry: first its items, and then the form itself. -/
def walkForm (l : Language) (w : Walker m) (path : List Nat) (e : Entry) (t : Tree)
    (items : List Clause → m (List Tree)) : m Tree :=
  (if e.verbatim then pure t else l.walkItems w e.clause t items) >>= w.form path e

/-- Walks through a tree that a clause took. -/
def walkTaken (l : Language) (w : Walker m) (path : List Nat) (c : Clause) (t : Tree)
    (items : List Clause → m (List Tree)) : m Tree :=
  match c with
  | .list body q => l.walkItems w (.list body q) t items
  | .terminal name _ =>
    if l.terminal? name = some .expression then
      match l.entryOf? t with
      | some e => l.walkForm w path e t items
      | none => w.stray t
    else pure t
  | .group _ _ => pure t
  | .literal _ _ => pure t

mutual

/-- Walks through a tree that a clause took, from its path on. -/
def walk (l : Language) (w : Walker m) : Tree → List Nat → Clause → m Tree
  | .atom a, path, c => l.walkTaken w path c (.atom a) fun _ => pure []
  | .list items, path, c =>
    l.walkTaken w path c (.list items) fun cs => l.walkAll w items path 0 cs

/-- Walks through items from left to right, each with the clause that took it. -/
def walkAll (l : Language) (w : Walker m) :
    List Tree → List Nat → Nat → List Clause → m (List Tree)
  | t :: ts, path, i, c :: cs => do
    let u ← l.walk w t (path ++ [i]) c
    let us ← l.walkAll w ts path (i + 1) cs
    return u :: us
  | _, _, _, _ => pure []

end

/-- Walks through the items of a tree at a path. -/
def walkInside (l : Language) (w : Walker m) (t : Tree) (path : List Nat) :
    List Clause → m (List Tree) :=
  match t with
  | .atom _ => fun _ => pure []
  | .list items => l.walkAll w items path 0

/-- Walks through what is inside a form of an entry, up to the form itself. -/
def walkUnder (l : Language) (w : Walker m) (path : List Nat) (e : Entry) (t : Tree) : m Tree :=
  if e.verbatim then pure t else l.walkItems w e.clause t (l.walkInside w t path)

/-- Walks through a form of an entry at a path. -/
def visit (l : Language) (w : Walker m) (path : List Nat) (e : Entry) (t : Tree) : m Tree :=
  l.walkForm w path e t (l.walkInside w t path)

variable {l : Language} {w : Walker m}

theorem visit_eq (path : List Nat) (e : Entry) (t : Tree) :
    l.visit w path e t = l.walkUnder w path e t >>= w.form path e := rfl

theorem walk_eq (t : Tree) (path : List Nat) (c : Clause) :
    l.walk w t path c = l.walkTaken w path c t (l.walkInside w t path) := by
  cases t <;> rfl

theorem walk_expression {name : String} (hname : l.terminal? name = some .expression)
    (q : Quantifier) {t : Tree} {e : Entry} (he : l.entryOf? t = some e) (path : List Nat) :
    l.walk w t path (.terminal name q) = l.visit w path e t := by
  rw [walk_eq]
  simp only [walkTaken, hname, he, if_true, visit]

theorem walk_stray {name : String} (hname : l.terminal? name = some .expression)
    (q : Quantifier) {t : Tree} (he : l.entryOf? t = none) (path : List Nat) :
    l.walk w t path (.terminal name q) = w.stray t := by
  rw [walk_eq]
  simp only [walkTaken, hname, he, if_true]

theorem walk_name {name : String} (hname : l.terminal? name ≠ some .expression) (q : Quantifier)
    (t : Tree) (path : List Nat) : l.walk w t path (.terminal name q) = pure t := by
  rw [walk_eq]
  simp only [walkTaken, hname, if_false]

theorem walk_captured {body word : List Clause} {q : Quantifier} {items : List Tree}
    (h : l.captures (.list body q) items = some word) (path : List Nat) :
    l.walk w (.list items) path (.list body q) = Tree.list <$> l.walkAll w items path 0 word := by
  simp only [walk, walkTaken, walkItems, h]

theorem walk_not_captured {body : List Clause} {q : Quantifier} {items : List Tree}
    (h : l.captures (.list body q) items = none) (path : List Nat) :
    l.walk w (.list items) path (.list body q) = w.untaken (.list body q) (.list items) := by
  simp only [walk, walkTaken, walkItems, h]

theorem walkUnder_of_list {path : List Nat} {e : Entry} (h : e.verbatim = false)
    {body : List Clause} {q : Quantifier} (hc : e.clause = .list body q) (t : Tree) :
    l.walkUnder w path e t = l.walk w t path (.list body q) := by
  rw [walkUnder, if_neg (by simp [h]), hc, walk_eq]
  rfl

end

end Language

/-! ## What a walk comes to -/

/-- An account of computations: what comes of each, and what it puts on record, the first first. -/
structure Account (m : Type → Type) [Monad m] (ω : Type) where
  value : {α : Type} → m α → α
  log : {α : Type} → m α → List ω
  value_pure : ∀ {α : Type} (a : α), value (pure a) = a
  value_map : ∀ {α β : Type} (f : α → β) (x : m α), value (f <$> x) = f (value x)
  value_bind : ∀ {α β : Type} (x : m α) (f : α → m β), value (x >>= f) = value (f (value x))
  log_pure : ∀ {α : Type} (a : α), log (pure a) = []
  log_bind : ∀ {α β : Type} (x : m α) (f : α → m β),
    log (x >>= f) = log x ++ log (f (value x))

section

variable {m : Type → Type} [Monad m] {ω : Type} {o : Account m ω}

/-- What is on record of a walk through items is what is on record of the items. -/
theorem Account.mem_log_walkAll_iff {l : Language} {w : Walker m} {items : List Tree}
    {path : List Nat} {i : Nat} {word : List Clause} {a : ω} :
    a ∈ o.log (l.walkAll w items path i word) ↔
      ∃ k t c, items[k]? = some t ∧ word[k]? = some c ∧
        a ∈ o.log (l.walk w t (path ++ [i + k]) c) := by
  induction items generalizing i word with
  | nil => simp [Language.walkAll, o.log_pure]
  | cons t ts ih =>
    cases word with
    | nil => simp [Language.walkAll, o.log_pure]
    | cons c cs =>
      rw [Language.walkAll, o.log_bind, List.mem_append, o.log_bind, o.log_pure, List.append_nil, ih]
      constructor
      · rintro (h | ⟨k, u, d, hu, hd, h⟩)
        · exact ⟨0, t, c, rfl, rfl, h⟩
        · exact ⟨k + 1, u, d, hu, hd, by rwa [Nat.add_right_comm] at h⟩
      · rintro ⟨k | k, u, d, hu, hd, h⟩
        · cases hu
          cases hd
          exact .inl h
        · exact .inr ⟨k, u, d, hu, hd, by rwa [Nat.add_right_comm]⟩

/-- Applies rules to forms and leaves all else as it is, whatever it puts on record. -/
structure Walker.Follows (w : Walker m) (o : Account m ω) (rules : RuleTable) : Prop where
  form : ∀ path e t, o.value (w.form path e t) = rules.apply e.id t
  stray : ∀ t, o.value (w.stray t) = t
  untaken : ∀ c t, o.value (w.untaken c t) = t

namespace Walker.Follows

variable {w : Walker m} {rules : RuleTable} (h : w.Follows o rules) {l : Language}
include h

theorem value_walkItems (c : Clause) (t : Tree) (items : List Clause → m (List Tree)) :
    o.value (l.walkItems w c t items) = l.rebuild c t fun cs => o.value (items cs) := by
  cases t with
  | atom a => exact h.untaken c _
  | list old =>
    unfold Language.walkItems Language.rebuild
    cases hword : l.captures c old with
    | none => simp [hword, h.untaken]
    | some word => simp [hword, o.value_map]

theorem value_walkForm (path : List Nat) (e : Entry) (t : Tree)
    (items : List Clause → m (List Tree)) :
    o.value (l.walkForm w path e t items) =
      l.convertForm rules e t fun cs => o.value (items cs) := by
  unfold Language.walkForm Language.convertForm
  rw [o.value_bind, h.form]
  by_cases hv : e.verbatim = true
  · simp [hv, o.value_pure]
  · simp [hv, h.value_walkItems]

theorem value_walkTaken (path : List Nat) (c : Clause) (t : Tree)
    (items : List Clause → m (List Tree)) :
    o.value (l.walkTaken w path c t items) =
      l.convertTaken rules c t fun cs => o.value (items cs) := by
  cases c with
  | list body q => exact h.value_walkItems _ t items
  | group body q => exact o.value_pure t
  | literal name q => exact o.value_pure t
  | terminal name q =>
    unfold Language.walkTaken Language.convertTaken
    by_cases hname : l.terminal? name = some .expression
    · cases he : l.entryOf? t with
      | none => simp [hname, h.stray]
      | some e => simp [hname, h.value_walkForm]
    · simp [hname, o.value_pure]

omit h in
theorem value_walkAll_of {items : List Tree}
    (hitems : ∀ t ∈ items, ∀ path c, o.value (l.walk w t path c) = l.transform rules t c)
    (path : List Nat) (i : Nat) (word : List Clause) :
    o.value (l.walkAll w items path i word) = l.transformAll rules items word := by
  induction items generalizing i word with
  | nil => simp [Language.walkAll, Language.transformAll, o.value_pure]
  | cons t ts ih =>
    cases word with
    | nil => simp [Language.walkAll, Language.transformAll, o.value_pure]
    | cons c cs =>
      have hrest := ih (fun u hu => hitems u (by simp [hu])) (i + 1) cs
      rw [Language.walkAll, Language.transformAll, o.value_bind, o.value_bind, o.value_pure,
        hitems t (by simp), hrest]

/-- What a walk by rules comes to is what becomes of the tree. -/
theorem value_walk (t : Tree) (path : List Nat) (c : Clause) :
    o.value (l.walk w t path c) = l.transform rules t c := by
  induction t generalizing path c with
  | atom a => simp [Language.walk, Language.transform, h.value_walkTaken, o.value_pure]
  | list items ih =>
    rw [Language.walk, Language.transform, h.value_walkTaken]
    congr 1
    funext cs
    exact value_walkAll_of ih path 0 cs

theorem value_walkInside (t : Tree) (path : List Nat) (cs : List Clause) :
    o.value (l.walkInside w t path cs) = l.transformItems rules t cs := by
  cases t with
  | atom a => exact o.value_pure []
  | list items => exact value_walkAll_of (fun u _ => h.value_walk u) path 0 cs

theorem value_walkUnder (path : List Nat) (e : Entry) (t : Tree) :
    o.value (l.walkUnder w path e t) = l.ready rules e t := by
  unfold Language.walkUnder Language.ready
  by_cases hv : e.verbatim = true
  · simp [hv, o.value_pure]
  · simp [hv, h.value_walkItems, h.value_walkInside]

theorem value_visit (path : List Nat) (e : Entry) (t : Tree) :
    o.value (l.visit w path e t) = l.transformForm rules e t := by
  rw [Language.visit_eq, o.value_bind, h.form, h.value_walkUnder, Language.transformForm_eq]

end Walker.Follows

end

end TreePasses
