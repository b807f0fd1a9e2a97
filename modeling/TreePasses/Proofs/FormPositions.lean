-- The places where a pass looks for forms: the tree itself, and in a form whose first entry is not
-- verbatim whatever that entry's clause, and the lists in it, leave to any form. Each place goes by
-- its path. Where no form at any of them has a rule, what the rules make of the tree is the tree.
import TreePasses.Proofs.Boundaries
import TreePasses.Proofs.PassTyping

namespace TreePasses

/-- The tree at a path: the numbers of the items to go to, one after the other. -/
def Tree.at? (t : Tree) : List Nat → Option Tree
  | [] => some t
  | i :: path => t.items?.bind fun items => items[i]?.bind fun u => u.at? path

namespace Language

/-! ## Places of forms -/

mutual

/-- A form stands at a path of a tree: the tree itself at the empty path, and what stands in it
where its first entry is for lists and is not verbatim. -/
inductive FormAt (l : Language) : Tree → List Nat → Tree → Prop where
  | here (t : Tree) : FormAt l t [] t
  | inside {t x : Tree} {e : Entry} {body : List Clause} {q : Quantifier} {path : List Nat}
      (he : l.entryOf? t = some e) (hverbatim : e.verbatim = false)
      (hclause : e.clause = .list body q) (hx : FormIn l (.list body q) t path x) :
      FormAt l t path x

/-- A form stands at a path of a tree that a clause took. The clause leaves the whole tree to any
form, or it is for lists and the form stands in an item. -/
inductive FormIn (l : Language) : Clause → Tree → List Nat → Tree → Prop where
  | form {name : String} {q : Quantifier} {t x : Tree} {path : List Nat}
      (hname : l.terminal? name = some .expression) (hx : FormAt l t path x) :
      FormIn l (.terminal name q) t path x
  | item {body word : List Clause} {q : Quantifier} {items : List Tree} {c : Clause} {u x : Tree}
      {i : Nat} {path : List Nat} (hword : l.captures (.list body q) items = some word)
      (hc : word[i]? = some c) (hu : items[i]? = some u) (hx : FormIn l c u path x) :
      FormIn l (.list body q) (.list items) (i :: path) x

end

mutual

/-- What stands at a path is the tree at that path. -/
theorem FormAt.at? {l : Language} {t x : Tree} {path : List Nat} :
    l.FormAt t path x → t.at? path = some x
  | .here _ => rfl
  | .inside _ _ _ hx => hx.at?

theorem FormIn.at? {l : Language} {c : Clause} {t x : Tree} {path : List Nat} :
    l.FormIn c t path x → t.at? path = some x
  | .form _ hx => hx.at?
  | .item _ _ hu hx => by simp [Tree.at?, Tree.items?, hu, hx.at?]

end

variable {l : Language} {rules : RuleTable}

/-! ## What becomes of a tree, by clause -/

/-- A form of an entry once the forms in it are done: what the rule of the entry is given. -/
def ready (l : Language) (rules : RuleTable) (e : Entry) (t : Tree) : Tree :=
  if e.verbatim then t else l.rebuild e.clause t (l.transformItems rules t)

theorem transformForm_eq (e : Entry) (t : Tree) :
    l.transformForm rules e t = rules.apply e.id (l.ready rules e t) := rfl

theorem ready_of_verbatim {e : Entry} (h : e.verbatim = true) (t : Tree) :
    l.ready rules e t = t := if_pos h

theorem ready_of_list {e : Entry} (h : e.verbatim = false) {body : List Clause} {q : Quantifier}
    (hc : e.clause = .list body q) (t : Tree) :
    l.ready rules e t = l.transform rules t (.list body q) := by
  rw [ready, if_neg (by simp [h]), hc]
  cases t <;> rfl

theorem ready_of_not_isList {e : Entry} (h : e.clause.isList = false) (t : Tree) :
    l.ready rules e t = t := by
  rw [ready]
  split
  · rfl
  · exact Pass.rebuild_of_not_isList l h t _

theorem transform_expression {name : String} (hname : l.terminal? name = some .expression)
    (q : Quantifier) {t : Tree} {e : Entry} (he : l.entryOf? t = some e) :
    l.transform rules t (.terminal name q) = l.transformForm rules e t := by
  cases t <;> simp [transform, convertTaken, hname, he, transformForm, transformItems]

theorem transform_captured {body word : List Clause} {q : Quantifier} {items : List Tree}
    (h : l.captures (.list body q) items = some word) :
    l.transform rules (.list items) (.list body q) = .list (l.transformAll rules items word) := by
  simp [transform, convertTaken, rebuild, h]

theorem transform_not_captured {body : List Clause} {q : Quantifier} {items : List Tree}
    (h : l.captures (.list body q) items = none) :
    l.transform rules (.list items) (.list body q) = .list items := by
  simp [transform, convertTaken, rebuild, h]

theorem transformAll_eq_zipWith (items : List Tree) (word : List Clause) :
    l.transformAll rules items word = List.zipWith (l.transform rules) items word := by
  induction items generalizing word with
  | nil => simp [transformAll]
  | cons t ts ih =>
    cases word with
    | nil => simp [transformAll]
    | cons c cs => rw [transformAll, ih, List.zipWith_cons_cons]

theorem length_of_captures {c : Clause} {items : List Tree} {word : List Clause}
    (h : l.captures c items = some word) : word.length = items.length := by
  cases c with
  | list body q => exact (Clause.captures_explained h).2.length_eq
  | _ => cases h

theorem fits_of_captures {body word : List Clause} {q : Quantifier} {items : List Tree}
    (h : l.captures (.list body q) items = some word) {i : Nat} {c : Clause} {t : Tree}
    (hc : word[i]? = some c) (ht : items[i]? = some t) : l.fits c t = true :=
  (Clause.captures_explained h).2.fits hc ht

/-- A tree that was taken as any form has an entry. -/
theorem exists_entryOf?_of_fits {name : String} (hname : l.terminal? name = some .expression)
    {q : Quantifier} {t : Tree} (h : l.fits (.terminal name q) t = true) :
    ∃ e, l.entryOf? t = some e := by
  rw [← accepts_iff_entryOf?]
  simpa [fits, Clause.fits, holds, holdsGiven, hname, Terminal.holds] using h

theorem length_transformAll {c : Clause} {items : List Tree} {word : List Clause}
    (h : l.captures c items = some word) :
    (l.transformAll rules items word).length = items.length := by
  rw [transformAll_eq_zipWith, List.length_zipWith, length_of_captures h, Nat.min_self]

theorem getElem?_transformAll {items : List Tree} {word : List Clause} {i : Nat} {t : Tree}
    {c : Clause} (ht : items[i]? = some t) (hc : word[i]? = some c) :
    (l.transformAll rules items word)[i]? = some (l.transform rules t c) := by
  rw [transformAll_eq_zipWith, List.getElem?_zipWith, ht, hc]

/-! ## Without rules -/

theorem transformAll_eq_self {c : Clause} {items : List Tree} {word : List Clause}
    (hword : l.captures c items = some word)
    (h : ∀ (i : Nat) t d, items[i]? = some t → word[i]? = some d → l.transform rules t d = t) :
    l.transformAll rules items word = items := by
  -- One clause for each item, so that no item is lost when the list is put together again.
  apply List.ext_getElem (length_transformAll hword)
  intro i hi hi'
  have hi'' : i < word.length := length_of_captures hword ▸ hi'
  have ht : items[i]? = some items[i] := List.getElem?_eq_getElem hi'
  have hd : word[i]? = some word[i] := List.getElem?_eq_getElem hi''
  have hget : (l.transformAll rules items word)[i]? = some (l.transform rules items[i] word[i]) :=
    getElem?_transformAll ht hd
  rw [List.getElem?_eq_getElem hi, h i _ _ ht hd] at hget
  exact Option.some.inj hget

/-- No form at some places has a rule. -/
def Quiet (l : Language) (rules : RuleTable) (places : List Nat → Tree → Prop) : Prop :=
  ∀ path x e, places path x → l.entryOf? x = some e → rules.get? e.id = none

theorem transformForm_eq_self {t : Tree} {e : Entry} (he : l.entryOf? t = some e)
    (hlist : ∀ body q, l.Quiet rules (l.FormIn (.list body q) t) →
      l.transform rules t (.list body q) = t)
    (h : l.Quiet rules (l.FormAt t)) : l.transformForm rules e t = t := by
  have hready : l.ready rules e t = t := by
    cases hv : e.verbatim with
    | true => exact ready_of_verbatim hv t
    | false =>
      cases hc : e.clause with
      | list body q =>
        rw [ready_of_list hv hc]
        exact hlist body q fun path x e' hx => h path x e' (.inside he hv hc hx)
      | _ => exact ready_of_not_isList (by rw [hc]; rfl) t
  rw [transformForm_eq, hready, RuleTable.apply, h [] t e (.here t) he]

theorem transform_eq_self_of_list {t : Tree}
    (hlist : ∀ body q, l.Quiet rules (l.FormIn (.list body q) t) →
      l.transform rules t (.list body q) = t)
    {c : Clause} (h : l.Quiet rules (l.FormIn c t)) : l.transform rules t c = t := by
  cases c with
  | list body q => exact hlist body q h
  | group body q => cases t <;> rfl
  | literal name q => cases t <;> rfl
  | terminal name q =>
    by_cases hname : l.terminal? name = some .expression
    · cases he : l.entryOf? t with
      | none => cases t <;> simp [transform, convertTaken, he]
      | some e =>
        rw [transform_expression hname q he]
        exact transformForm_eq_self he hlist fun path x e' hx => h path x e' (.form hname hx)
    · cases t <;> simp [transform, convertTaken, hname]

/-- A tree that a clause took stays as it is if no form in it has a rule. -/
theorem transform_eq_self {c : Clause} {t : Tree} (h : l.Quiet rules (l.FormIn c t)) :
    l.transform rules t c = t := by
  induction t generalizing c with
  | atom a => exact transform_eq_self_of_list (fun _ _ _ => rfl) h
  | list items ih =>
    refine transform_eq_self_of_list (fun body q hquiet => ?_) h
    cases hword : l.captures (.list body q) items with
    | none => exact transform_not_captured hword
    | some word =>
      rw [transform_captured hword, transformAll_eq_self hword]
      intro i t c ht hc
      exact ih t (List.mem_of_getElem? ht) fun path x e hx =>
        hquiet _ x e (.item hword hc ht hx)

end Language

end TreePasses
