-- What each pass makes of each form: the forms inside are converted, and the pass changes the
-- form itself only if it is of the kind that the pass is for.
import TreePasses.Proofs.Programs

namespace TreePasses.Surface

/-! ## The first entry that fits -/

/-- Whether a clause can fit a list that starts with a keyword: not if it is a name for atoms or
has a keyword of its own. -/
def couldFit (keyword : String) : Clause → Bool
  | .list (.literal other .one :: _) .one => other = keyword
  | c => !isAtomName c

section

variable {n : Nat} {g : Stage}

theorem fits_eq_false_of_couldFit {keyword : String} {c : Clause} (h : couldFit keyword c = false)
    (rest : List Tree) : (g.language n).fits c (.list (.symbol keyword :: rest)) = false := by
  unfold couldFit at h
  split at h
  · rename_i other body
    exact fits_headed_of_ne (fun he => by simp [he] at h) body rest
  · exact fits_atomName_list (by simpa using h) _

/-- The first entry that could fit a list with a keyword is the first that does, if it does. -/
theorem entryOf?_keyword {keyword : String} {rest : List Tree} {e : Entry}
    (hfirst : (g.entries n).find? (fun x => couldFit keyword x.clause) = some e)
    (hf : (g.language n).fits e.clause (.list (.symbol keyword :: rest)) = true) :
    (g.language n).entryOf? (.list (.symbol keyword :: rest)) = some e := by
  obtain ⟨-, before, after, hl, hb⟩ := List.find?_eq_some_iff_append.mp hfirst
  refine List.find?_eq_some_iff_append.mpr ⟨hf, before, after, hl, fun x hx => ?_⟩
  rw [fits_eq_false_of_couldFit (by simpa using hb x hx)]
  rfl

theorem entryOf?_quoteTree (d : Tree) :
    (g.language n).entryOf? (quoteTree d) = some (entry n 3 quotation true) := by
  apply entryOf?_keyword (by cases g <;> rfl)
  exact Clause.fits_list_iff.mpr ⟨_, captures_quotation d⟩

theorem entryOf?_letTree {bs : List (String × Tree)} {body : List Tree} (hbs : bs ≠ [])
    (hbody : body ≠ []) (values : ∀ b ∈ bs, Form g b.2) (forms : ∀ t ∈ body, Form g t)
    (single : g.oneInLet = true → body.length = 1) :
    (g.language n).entryOf? (letTree bs body) = some (g.letEntry n) := by
  apply entryOf?_keyword (by cases g <;> rfl)
  exact fits_letEntry hbs hbody (fun b hb => (values b hb).accepts)
    (fun t ht => (forms t ht).accepts) single

theorem entryOf?_fnTree {ps : List String} {body : List Tree} (hbody : body ≠ [])
    (forms : ∀ t ∈ body, Form g t) (single : g.oneInFn = true → body.length = 1) :
    (g.language n).entryOf? (fnTree ps body) = some (g.fnEntry n) := by
  apply entryOf?_keyword (by cases g <;> rfl)
  exact fits_fnEntry ps hbody (fun t ht => (forms t ht).accepts) single

theorem entryOf?_ifThen {a b : Tree} (ha : Form .surface a) (hb : Form .surface b) :
    (Stage.surface.language n).entryOf? (.list [.symbol "if", a, b]) =
      some (entry n 4 ifThen false) := by
  apply entryOf?_keyword rfl
  exact Clause.fits_list_iff.mpr ⟨_, captures_ifThen ha hb⟩

/-- The first entry that fits a list of forms is a flat list, unless the list is of a kind of its
own. -/
theorem entryOf?_plain {items : List Tree} (hne : items ≠ []) (forms : ∀ t ∈ items, Form g t)
    (hplain : Plain items) :
    ∃ e word, (g.language n).entryOf? (.list items) = some e ∧ e ∈ g.entries n ∧
      isFlat e.clause = true ∧ (g.language n).captures e.clause items = some word := by
  have hacc := accepts_list (n := n) hne fun t ht => (forms t ht).accepts
  rw [Language.accepts_eq_isSome grounded] at hacc
  obtain ⟨e, he⟩ := Option.isSome_iff_exists.mp hacc
  obtain ⟨hmem, hf⟩ := Language.entryOf?_spec he
  rcases clause_cases hmem with hc | hc | ⟨q, hq, hc⟩ | ⟨q, hq, hc⟩ | hc
  · rw [fits_atomName_list hc] at hf
    cases hf
  · exact absurd (isQuote_of_fits (hc ▸ hf)) hplain.not_quote
  · exact absurd (isLet_of_fits hq (hc ▸ hf)) hplain.not_let
  · exact absurd (isFn_of_fits hq (hc ▸ hf)) hplain.not_fn
  · obtain ⟨word, hword⟩ := (Clause.fits_iff_captures (isList_of_isFlat hc)).mp hf
    exact ⟨e, word, he, hmem, hc, hword⟩

end

/-! ## Converting -/

namespace Step

/-- What a pass makes of a form, if `n` ids were spent before the compiler was built. -/
def convert (n : Nat) (k : Step) (t : Tree) : Tree :=
  (k.source.language n).transform (k.pass n).rules t oneForm

end Step

section

variable {n : Nat} {k : Step}

theorem convert_eq_of_entryOf? {t : Tree} {e : Entry}
    (he : (k.source.language n).entryOf? t = some e) :
    k.convert n t = (k.source.language n).transformForm (k.pass n).rules e t := by
  unfold Step.convert Language.transformForm
  cases t with
  | atom a => simp [Language.transform, Language.convertTaken, he, oneForm, Language.terminal?,
      Language.expressionName, Language.transformItems]
  | list items => simp [Language.transform, Language.convertTaken, he, oneForm,
      Language.terminal?, Language.expressionName, Language.transformItems]

/-- A pass takes what its source language accepts, and converts it. -/
theorem pass_run_eq (t : Tree) :
    (k.pass n).run t = if (k.source.language n).accepts t then .ok (k.convert n t)
      else .error (.inputMismatch k.target.name t) := by
  have hsource : (k.pass n).source = k.source.language n := rfl
  unfold Pass.run
  rw [Language.accepts_eq_isSome grounded, hsource]
  cases he : (k.source.language n).entryOf? t with
  | none => rfl
  | some e => simp [convert_eq_of_entryOf? he]

theorem transform_form (q : Quantifier) (t : Tree) :
    (k.source.language n).transform (k.pass n).rules t (.terminal "ε" q) = k.convert n t := by
  cases t <;> rfl

theorem transform_name (q : Quantifier) (t : Tree) :
    (k.source.language n).transform (k.pass n).rules t (.terminal "s" q) = t := by
  cases t <;> rfl

theorem transform_literal (keyword : String) (q : Quantifier) (t : Tree) :
    (k.source.language n).transform (k.pass n).rules t (.literal keyword q) = t := by
  cases t <;> rfl

theorem transformAll_forms (q : Quantifier) (items : List Tree) :
    (k.source.language n).transformAll (k.pass n).rules items
      (List.replicate items.length (.terminal "ε" q)) = items.map (k.convert n) := by
  induction items with
  | nil => rfl
  | cons t ts ih =>
    rw [List.length_cons, List.replicate_succ, Language.transformAll, transform_form, ih]
    rfl

theorem transformAll_names (q : Quantifier) (items : List Tree) :
    (k.source.language n).transformAll (k.pass n).rules items
      (List.replicate items.length (.terminal "s" q)) = items := by
  induction items with
  | nil => rfl
  | cons t ts ih =>
    rw [List.length_cons, List.replicate_succ, Language.transformAll, transform_name, ih]

/-- Bindings with the forms after the names converted. -/
def convertBindings (n : Nat) (k : Step) (bs : List (String × Tree)) : List (String × Tree) :=
  bs.map fun b => (b.1, k.convert n b.2)

theorem transformAll_bindings (bs : List (String × Tree)) :
    (k.source.language n).transformAll (k.pass n).rules (bindingItems bs) (bindingWord bs.length) =
      bindingItems (convertBindings n k bs) := by
  induction bs with
  | nil => rfl
  | cons b bs ih =>
    have hword : bindingWord (bs.length + 1) =
        .terminal "s" .one :: .terminal "ε" .one :: bindingWord bs.length := rfl
    rw [List.length_cons, hword, bindingItems_cons, Language.transformAll, Language.transformAll,
      transform_name, transform_form, ih]
    rfl

theorem transform_bindings {bs : List (String × Tree)} (hbs : bs ≠ [])
    (values : ∀ b ∈ bs, Form k.source b.2) :
    (k.source.language n).transform (k.pass n).rules (.list (bindingItems bs)) bindings =
      .list (bindingItems (convertBindings n k bs)) := by
  have hrebuild : (k.source.language n).transform (k.pass n).rules (.list (bindingItems bs))
      bindings = (k.source.language n).rebuild bindings (.list (bindingItems bs))
        ((k.source.language n).transformAll (k.pass n).rules (bindingItems bs)) := rfl
  rw [hrebuild]
  simp only [Language.rebuild, captures_bindings hbs values]
  rw [transformAll_bindings]

theorem transform_parameters (ps : List String) :
    (k.source.language n).transform (k.pass n).rules (.list (ps.map Tree.symbol)) parameters =
      .list (ps.map Tree.symbol) := by
  have hrebuild : (k.source.language n).transform (k.pass n).rules (.list (ps.map Tree.symbol))
      parameters = (k.source.language n).rebuild parameters (.list (ps.map Tree.symbol))
        ((k.source.language n).transformAll (k.pass n).rules (ps.map Tree.symbol)) := rfl
  rw [hrebuild]
  simp only [Language.rebuild, captures_parameters]
  rw [transformAll_names]

/-! ## Rules -/

namespace Step

/-- The clause of the entry that has the rule. -/
def ruledClause : Step → Clause
  | .ifs => ifThen
  | .lets => letForm
  | .fns => fnForm

/-- An entry has a rule if its clause is the one that the pass is for. -/
theorem get?_eq {e : Entry} (he : e ∈ k.source.entries n) :
    (k.pass n).rules.get? e.id = if e.clause = k.ruledClause then some k.rule else none := by
  have hall : ((k.source.entries 0).all fun e => decide (e.id.index.toNat < 16) &&
      decide (e.id.index.toNat = k.ruled ↔ e.clause = k.ruledClause)) = true := by
    cases k <;> rfl
  rw [entries_eq_map] at he
  obtain ⟨row, hrow, rfl⟩ := List.mem_map.mp he
  have hkind := List.all_eq_true.mp hall row hrow
  simp only [Bool.and_eq_true, decide_eq_true_eq] at hkind
  rw [get?_entry hkind.1]
  exact if_congr hkind.2 rfl rfl

theorem apply_eq {e : Entry} (he : e ∈ k.source.entries n) (t : Tree) :
    (k.pass n).rules.apply e.id t = if e.clause = k.ruledClause then k.rule t else t := by
  unfold RuleTable.apply
  rw [get?_eq he]
  by_cases hc : e.clause = k.ruledClause
  · simp only [hc, if_true]
  · simp only [hc, if_false]

/-- An entry without a rule stays in the language. -/
theorem mem_target {e : Entry} (he : e ∈ k.source.entries n) (hc : e.clause ≠ k.ruledClause) :
    e ∈ k.target.entries n := by
  have hall : ((k.source.entries 0).all fun e => decide (e.clause = k.ruledClause) ||
      decide (e ∈ k.target.entries 0)) = true := by
    cases k <;> rfl
  rw [entries_eq_map] at he ⊢
  obtain ⟨row, hrow, rfl⟩ := List.mem_map.mp he
  have hkept := List.all_eq_true.mp hall row hrow
  simp only [Bool.or_eq_true, decide_eq_true_eq] at hkept
  exact List.mem_map_of_mem (hkept.resolve_left hc)

end Step

/-- Whatever the entry, its rule is the rule of the pass or none. -/
theorem apply_cases (id : ClauseId) (t : Tree) :
    (k.pass n).rules.apply id t = k.rule t ∨ (k.pass n).rules.apply id t = t := by
  have hrules : (k.pass n).rules = ⟨[(⟨(n + k.ruled).toUInt32⟩, k.rule)]⟩ := rfl
  unfold RuleTable.apply RuleTable.get?
  rw [hrules]
  cases hid : id == (⟨(n + k.ruled).toUInt32⟩ : ClauseId) with
  | true => exact .inl (by simp only [List.lookup_cons, hid])
  | false => exact .inr (by simp only [List.lookup_cons, List.lookup_nil, hid])

theorem apply_atom (id : ClauseId) (a : Atom) : (k.pass n).rules.apply id (.atom a) = .atom a := by
  have hrule : k.rule (.atom a) = .atom a := by cases k <;> rfl
  rcases apply_cases (n := n) (k := k) id (.atom a) with h | h
  · rw [h, hrule]
  · exact h

/-- A rule makes a list out of a list. -/
theorem apply_list (id : ClauseId) (items : List Tree) :
    ∃ new, (k.pass n).rules.apply id (.list items) = .list new := by
  have hrule : ∃ new, k.rule (.list items) = .list new := by cases k <;> exact ⟨_, rfl⟩
  rcases apply_cases (n := n) (k := k) id (.list items) with h | h
  · rw [h]
    exact hrule
  · exact ⟨items, h⟩

/-! ## Each form -/

theorem convert_atom (a : Atom) : k.convert n (.atom a) = .atom a := by
  have hacc : (k.source.language n).accepts (.atom a) = true := accepts_atom a
  rw [Language.accepts_eq_isSome grounded] at hacc
  obtain ⟨e, he⟩ := Option.isSome_iff_exists.mp hacc
  rw [convert_eq_of_entryOf? he]
  unfold Language.transformForm Language.convertForm Language.rebuild
  simp only [ite_self]
  exact apply_atom e.id a

theorem exists_convert_list (items : List Tree) : ∃ new, k.convert n (.list items) = .list new := by
  cases he : (k.source.language n).entryOf? (.list items) with
  | none =>
    refine ⟨items, ?_⟩
    simp [Step.convert, Language.transform, Language.convertTaken, oneForm, he]
  | some e =>
    rw [convert_eq_of_entryOf? he]
    unfold Language.transformForm Language.convertForm
    split
    · exact apply_list e.id items
    · unfold Language.rebuild
      simp only
      split
      · exact apply_list e.id _
      · exact apply_list e.id items

/-- Only an atom becomes an atom. -/
theorem convert_eq_atom_iff {t : Tree} {a : Atom} : k.convert n t = .atom a ↔ t = .atom a := by
  cases t with
  | atom b => rw [convert_atom]
  | list items =>
    obtain ⟨new, hnew⟩ := exists_convert_list (n := n) (k := k) items
    simp [hnew]

theorem convert_quoteTree (d : Tree) : k.convert n (quoteTree d) = quoteTree d := by
  have he := entryOf?_quoteTree (n := n) (g := k.source) d
  have hc : quotation ≠ k.ruledClause := by cases k <;> decide
  rw [convert_eq_of_entryOf? he]
  unfold Language.transformForm Language.convertForm
  rw [Step.apply_eq (Language.entryOf?_spec he).1]
  exact if_neg hc

/-- What becomes of a list whose entry takes its parts apart. -/
theorem convert_list {items : List Tree} {e : Entry} {word : List Clause}
    (he : (k.source.language n).entryOf? (.list items) = some e) (hv : e.verbatim = false)
    (hword : (k.source.language n).captures e.clause items = some word) :
    k.convert n (.list items) = (k.pass n).rules.apply e.id
      (.list ((k.source.language n).transformAll (k.pass n).rules items word)) := by
  rw [convert_eq_of_entryOf? he]
  simp [Language.transformForm, Language.convertForm, Language.rebuild, Language.transformItems,
    hv, hword]

/-- What becomes of a list with a keyword, one more part and forms. -/
theorem convert_headed {keyword : String} {second new : Tree} {body : List Tree} {c : Clause}
    {q : Quantifier} {e : Entry}
    (he : (k.source.language n).entryOf? (.list (.symbol keyword :: second :: body)) = some e)
    (hv : e.verbatim = false)
    (hword : (k.source.language n).captures e.clause (.symbol keyword :: second :: body) =
      some (.literal keyword .one :: c :: List.replicate body.length (.terminal "ε" q)))
    (hnew : (k.source.language n).transform (k.pass n).rules second c = new) :
    k.convert n (.list (.symbol keyword :: second :: body)) = (k.pass n).rules.apply e.id
      (.list (.symbol keyword :: new :: body.map (k.convert n))) := by
  rw [convert_list he hv hword, Language.transformAll, Language.transformAll, transform_literal,
    hnew, transformAll_forms]

theorem apply_letEntry (t : Tree) : (k.pass n).rules.apply (k.source.letEntry n).id t =
    if k = .lets then groupBody t else t := by
  rw [Step.apply_eq letEntry_mem]
  cases k <;> rfl

theorem apply_fnEntry (t : Tree) : (k.pass n).rules.apply (k.source.fnEntry n).id t =
    if k = .fns then groupBody t else t := by
  rw [Step.apply_eq fnEntry_mem]
  cases k <;> rfl

/-- A body, in one piece if the pass makes it so. -/
def convertBody (n : Nat) (k : Step) (wraps : Bool) (body : List Tree) : List Tree :=
  if wraps then wrapBody (body.map (k.convert n)) else body.map (k.convert n)

theorem convert_letTree {bs : List (String × Tree)} {body : List Tree} (hbs : bs ≠ [])
    (hbody : body ≠ []) (values : ∀ b ∈ bs, Form k.source b.2)
    (forms : ∀ t ∈ body, Form k.source t) (single : k.source.oneInLet = true → body.length = 1) :
    k.convert n (letTree bs body) =
      letTree (convertBindings n k bs) (convertBody n k (k = .lets) body) := by
  have hword := captures_letTree (n := n) hbs hbody values forms single
  have hv : (k.source.letEntry n).verbatim = false := by cases k <;> rfl
  have hlist := convert_headed (entryOf?_letTree hbs hbody values forms single) hv hword
    (transform_bindings hbs values)
  unfold letTree convertBody
  rw [hlist, apply_letEntry]
  by_cases h : k = .lets
  · simp only [h, if_true, decide_true, groupBody_eq]
  · simp only [h, if_false, decide_false]
    rfl

theorem convert_fnTree {ps : List String} {body : List Tree} (hbody : body ≠ [])
    (forms : ∀ t ∈ body, Form k.source t) (single : k.source.oneInFn = true → body.length = 1) :
    k.convert n (fnTree ps body) = fnTree ps (convertBody n k (k = .fns) body) := by
  have hword := captures_fnTree (n := n) ps hbody forms single
  have hv : (k.source.fnEntry n).verbatim = false := by cases k <;> rfl
  have hlist := convert_headed (entryOf?_fnTree hbody forms single) hv hword
    (transform_parameters ps)
  unfold fnTree convertBody
  rw [hlist, apply_fnEntry]
  by_cases h : k = .fns
  · simp only [h, if_true, decide_true, groupBody_eq]
  · simp only [h, if_false, decide_false]
    rfl

theorem convert_ifThen {a b : Tree} (ha : Form .surface a) (hb : Form .surface b) :
    Step.ifs.convert n (.list [.symbol "if", a, b]) =
      .list [.symbol "if", Step.ifs.convert n a, Step.ifs.convert n b, .symbol "nil"] := by
  have he := entryOf?_ifThen (n := n) ha hb
  have hmem : entry n 4 ifThen false ∈ Step.ifs.source.entries n := (Language.entryOf?_spec he).1
  rw [convert_list (k := .ifs) he rfl (captures_ifThen ha hb), Step.apply_eq hmem]
  rfl

/-- Only quoted data are left as they are. -/
theorem verbatim_eq_false {g : Stage} {e : Entry} (he : e ∈ g.entries n)
    (hc : e.clause ≠ quotation) : e.verbatim = false := by
  have hall : ((g.entries n).all fun e => decide (e.clause = quotation) || !e.verbatim) = true := by
    cases g <;> rfl
  have hkind := List.all_eq_true.mp hall e he
  simpa [hc] using hkind

/-- The entry of a flat list has no rule, unless the pass is for `if`. -/
theorem eq_ifs_of_ruled_flat {c : Clause} (hc : isFlat c = true) (hr : c = k.ruledClause) :
    k = .ifs := by
  subst hr
  cases k with
  | ifs => rfl
  | _ => cases hc

theorem transformAll_flat {word : List Clause} {items : List Tree}
    (h : List.Forall₂ (FlatItem (k.source.language n).accepts) word items) :
    (k.source.language n).transformAll (k.pass n).rules items word = items.map (k.convert n) := by
  induction h with
  | nil => rfl
  | @cons c t word items hitem _ ih =>
    have hfirst : (k.source.language n).transform (k.pass n).rules t c = k.convert n t := by
      rcases hitem with ⟨q, rfl, -⟩ | ⟨⟨name, rfl⟩, ⟨keyword, q, rfl⟩ | ⟨q, rfl⟩⟩
      · exact transform_form q t
      · rw [transform_literal, convert_atom]
      · rw [transform_name, convert_atom]
    rw [Language.transformAll, hfirst, ih]
    rfl

/-- Of a flat list without a rule, each item is converted. -/
theorem convert_flat {items : List Tree} {e : Entry}
    (he : (k.source.language n).entryOf? (.list items) = some e) (hc : isFlat e.clause = true)
    (hr : e.clause ≠ k.ruledClause) :
    k.convert n (.list items) = .list (items.map (k.convert n)) := by
  obtain ⟨hmem, hf⟩ := Language.entryOf?_spec he
  have hquote : e.clause ≠ quotation := by
    intro hquote
    rw [hquote] at hc
    cases hc
  obtain ⟨word, hword⟩ := (Clause.fits_iff_captures (isList_of_isFlat hc)).mp hf
  rw [convert_list he (verbatim_eq_false hmem hquote) hword, Step.apply_eq hmem, if_neg hr,
    transformAll_flat (captures_flat hc hword).2]

theorem convert_plain {items : List Tree} (hne : items ≠ [])
    (forms : ∀ t ∈ items, Form k.source t) (hplain : Plain items)
    (hif : k = .ifs → ¬ IsIfThen items) :
    k.convert n (.list items) = .list (items.map (k.convert n)) := by
  obtain ⟨e, word, he, -, hflat, hword⟩ := entryOf?_plain (n := n) hne forms hplain
  apply convert_flat he hflat
  intro hr
  have hk := eq_ifs_of_ruled_flat hflat hr
  subst hk
  obtain ⟨a, b, -, -, rfl, -⟩ := captures_ifThen_iff.mp (hr ▸ hword)
  exact hif rfl ⟨a, b, rfl⟩

end

end TreePasses.Surface
