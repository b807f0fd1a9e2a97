-- The trees that have the shape of each clause of the surface language and of the languages
-- after it, and the clauses that capture their items.
import TreePasses.Language.Membership
import TreePasses.Proofs.Stages
import TreePasses.Proofs.TailQuantified

namespace TreePasses.Surface

open Clause (Matched fits_literal_iff captures_iff captures_cons_iff captures_repeated_iff
  captures_nil_iff)

/-! ## Trees by their parts -/

/-- Names and the trees after them, in one list. -/
def bindingItems (bs : List (String × Tree)) : List Tree := bs.flatMap fun b => [.symbol b.1, b.2]

def quoteTree (d : Tree) : Tree := .list [.symbol "quote", d]

def letTree (bs : List (String × Tree)) (body : List Tree) : Tree :=
  .list (.symbol "let" :: .list (bindingItems bs) :: body)

def fnTree (ps : List String) (body : List Tree) : Tree :=
  .list (.symbol "fn" :: .list (ps.map Tree.symbol) :: body)

/-- A body of two forms or more as one form. -/
def wrapBody : List Tree → List Tree
  | first :: second :: rest => [.list (.symbol "do" :: first :: second :: rest)]
  | body => body

theorem groupBody_eq (head second : Tree) (body : List Tree) :
    groupBody (.list (head :: second :: body)) = .list (head :: second :: wrapBody body) := by
  match body with
  | [] => rfl
  | [_] => rfl
  | _ :: _ :: _ => rfl

theorem length_wrapBody {body : List Tree} (hne : body ≠ []) : (wrapBody body).length = 1 := by
  match body with
  | [] => exact absurd rfl hne
  | [_] => rfl
  | _ :: _ :: _ => rfl

theorem wrapBody_ne_nil {body : List Tree} (hne : body ≠ []) : wrapBody body ≠ [] :=
  List.ne_nil_of_length_pos (Nat.lt_of_lt_of_eq Nat.one_pos (length_wrapBody hne).symm)

theorem mem_wrapBody {body : List Tree} {t : Tree} (h : t ∈ wrapBody body) :
    t ∈ body ∨ t = .list (.symbol "do" :: body) := by
  match body with
  | [] => exact .inl h
  | [_] => exact .inl h
  | _ :: _ :: _ => exact .inr (List.mem_singleton.mp h)

@[simp]
theorem bindingItems_nil : bindingItems [] = [] := rfl

@[simp]
theorem bindingItems_cons (b : String × Tree) (bs : List (String × Tree)) :
    bindingItems (b :: bs) = .symbol b.1 :: b.2 :: bindingItems bs := rfl

/-! ## Terminals -/

section

variable {n : Nat} {g : Stage}

theorem fits_symbol_iff {q : Quantifier} {t : Tree} :
    (Clause.terminal "s" q).fits (g.language n).holds t = true ↔ ∃ name, t = .symbol name := by
  have heq : (Clause.terminal "s" q).fits (g.language n).holds t = t.symbol?.isSome := rfl
  rw [heq]
  constructor
  · intro h
    cases t with
    | list items => simp [Tree.symbol?] at h
    | atom a => cases a <;> simp_all [Tree.symbol?]
  · rintro ⟨name, rfl⟩
    rfl

theorem grounded : (g.language n).Grounded := by
  have hall : ((g.language n).entries.all fun e => !(g.language n).isLeftRecursive e.clause) =
      true := by
    cases g <;> rfl
  intro e he
  simpa using List.all_eq_true.mp hall e he

/-! ## Binding and parameter lists -/

theorem matched_bindings {m : Nat} {items : List Tree} :
    Matched (g.language n).holds
        (List.replicate m [.terminal "s" .one, .terminal "ε" .one]).flatten items ↔
      ∃ bs : List (String × Tree), bs.length = m ∧ items = bindingItems bs ∧
        ∀ b ∈ bs, (g.language n).accepts b.2 = true := by
  induction m generalizing items with
  | zero =>
    simp only [List.replicate_zero, List.flatten_nil, List.length_eq_zero_iff]
    constructor
    · intro h
      cases h
      exact ⟨[], rfl, rfl, by simp⟩
    · rintro ⟨bs, rfl, rfl, -⟩
      exact .nil
  | succ m ih =>
    simp only [List.replicate_succ, List.flatten_cons, List.cons_append, List.nil_append]
    constructor
    · intro h
      obtain ⟨t, _, ht, hmore, rfl⟩ := List.forall₂_cons_left_iff.mp h
      obtain ⟨v, rest, hv, hrest, rfl⟩ := List.forall₂_cons_left_iff.mp hmore
      obtain ⟨name, rfl⟩ := fits_symbol_iff.mp ht
      obtain ⟨bs, rfl, rfl, hbs⟩ := ih.mp hrest
      exact ⟨(name, v) :: bs, rfl, rfl, List.forall_mem_cons.mpr ⟨hv, hbs⟩⟩
    · rintro ⟨bs, hm, rfl, hbs⟩
      cases bs with
      | nil => simp at hm
      | cons b bs =>
        obtain ⟨hb, hbs⟩ := List.forall_mem_cons.mp hbs
        rw [bindingItems_cons]
        exact .cons (fits_symbol_iff.mpr ⟨b.1, rfl⟩)
          (.cons hb (ih.mpr ⟨bs, by simpa using hm, rfl, hbs⟩))

/-- The clauses that capture names and the forms after them. -/
def bindingWord (m : Nat) : List Clause :=
  (List.replicate m [.terminal "s" .one, .terminal "ε" .one]).flatten

theorem captures_bindings_iff {items : List Tree} {word : List Clause} :
    (g.language n).captures bindings items = some word ↔
      ∃ bs : List (String × Tree), bs ≠ [] ∧ items = bindingItems bs ∧
        (∀ b ∈ bs, (g.language n).accepts b.2 = true) ∧ word = bindingWord bs.length := by
  unfold Language.captures bindings bindingWord
  rw [captures_iff rfl, Clause.spellsAll_singleton_iff, Clause.spells_group_iff_of_allFixed rfl]
  constructor
  · rintro ⟨⟨k, hk, rfl⟩, hm⟩
    obtain ⟨bs, rfl, rfl, hbs⟩ := matched_bindings.mp hm
    exact ⟨bs, List.ne_nil_of_length_pos hk, rfl, hbs, rfl⟩
  · rintro ⟨bs, hne, rfl, hbs, rfl⟩
    exact ⟨⟨bs.length, List.length_pos_iff.mpr hne, rfl⟩, matched_bindings.mpr ⟨bs, rfl, rfl, hbs⟩⟩

theorem all_symbols_iff {items : List Tree} :
    (∀ t ∈ items, ∃ name, t = .symbol name) ↔ ∃ ps : List String, items = ps.map Tree.symbol := by
  constructor
  · intro h
    induction items with
    | nil => exact ⟨[], rfl⟩
    | cons t ts ih =>
      obtain ⟨⟨name, rfl⟩, hts⟩ := List.forall_mem_cons.mp h
      obtain ⟨ps, rfl⟩ := ih hts
      exact ⟨name :: ps, rfl⟩
  · rintro ⟨ps, rfl⟩ t ht
    obtain ⟨name, -, rfl⟩ := List.mem_map.mp ht
    exact ⟨name, rfl⟩

theorem captures_parameters_iff {items : List Tree} {word : List Clause} :
    (g.language n).captures parameters items = some word ↔
      (∃ ps : List String, items = ps.map Tree.symbol) ∧
        word = List.replicate items.length (.terminal "s" .zeroOrMore) := by
  unfold Language.captures parameters
  rw [Clause.captures_group_once, captures_repeated_iff rfl, ← all_symbols_iff]
  simp only [fits_symbol_iff]
  constructor
  · rintro ⟨-, hall, rfl⟩
    exact ⟨hall, rfl⟩
  · rintro ⟨hall, rfl⟩
    exact ⟨trivial, hall, rfl⟩

theorem captures_parameters (ps : List String) :
    (g.language n).captures parameters (ps.map Tree.symbol) =
      some (List.replicate (ps.map Tree.symbol).length (.terminal "s" .zeroOrMore)) :=
  captures_parameters_iff.mpr ⟨⟨ps, rfl⟩, rfl⟩

/-! ## Lists with a keyword -/

theorem keyword_eq_of_headed_eq {keyword other : String} {body body' : List Clause}
    (h : headed keyword body = headed other body') : keyword = other := by
  injection h with hbody
  injection hbody with hliteral
  injection hliteral

theorem captures_headed_iff {keyword : String} {body : List Clause} {items : List Tree}
    {word : List Clause} :
    (g.language n).captures (headed keyword body) items = some word ↔
      ∃ rest others, items = .symbol keyword :: rest ∧
        (g.language n).captures (.list body .one) rest = some others ∧
        word = .literal keyword .one :: others := by
  unfold Language.captures headed
  rw [captures_cons_iff rfl rfl]
  simp only [fits_literal_iff]
  constructor
  · rintro ⟨t, rest, others, rfl, rfl, hothers, rfl⟩
    exact ⟨rest, others, rfl, hothers, rfl⟩
  · rintro ⟨rest, others, rfl, hothers, rfl⟩
    exact ⟨_, rest, others, rfl, rfl, hothers, rfl⟩

/-- A list whose keyword is another one has not the shape of a clause with a keyword. -/
theorem fits_headed_of_ne {keyword other : String} (h : other ≠ keyword) (body : List Clause)
    (rest : List Tree) :
    (g.language n).fits (headed keyword body) (.list (.symbol other :: rest)) = false := by
  rw [Bool.eq_false_iff]
  intro hf
  obtain ⟨word, hword⟩ := Clause.fits_list_iff.mp hf
  obtain ⟨_, _, heq, -, -⟩ := captures_headed_iff.mp hword
  injection heq with hsymbol
  injection hsymbol with hatom
  injection hatom with hname
  exact h hname

theorem captures_quotation_iff {items : List Tree} {word : List Clause} :
    (g.language n).captures quotation items = some word ↔
      (∃ d, items = [.symbol "quote", d]) ∧ word = [.literal "quote" .one, .terminal "d" .one] := by
  unfold quotation
  rw [captures_headed_iff]
  unfold Language.captures
  simp only [captures_repeated_iff (c := .terminal "d" .one) rfl]
  constructor
  · rintro ⟨rest, others, rfl, ⟨hlen, -, rfl⟩, rfl⟩
    obtain ⟨d, rfl⟩ := List.length_eq_one_iff.mp hlen
    exact ⟨⟨d, rfl⟩, rfl⟩
  · rintro ⟨⟨d, rfl⟩, rfl⟩
    exact ⟨[d], _, rfl, ⟨rfl, fun _ _ => rfl, rfl⟩, rfl⟩

theorem captures_quotation (d : Tree) :
    (g.language n).captures quotation [.symbol "quote", d] =
      some [.literal "quote" .one, .terminal "d" .one] :=
  captures_quotation_iff.mpr ⟨⟨d, rfl⟩, rfl⟩

/-- What a `let` clause captures, whichever number of forms its body may have. -/
theorem captures_let_iff {q : Quantifier} {items : List Tree} {word : List Clause} :
    (g.language n).captures (headed "let" [bindings, .terminal "ε" q]) items = some word ↔
      ∃ bs body, bs ≠ [] ∧ (∀ b ∈ bs, (g.language n).accepts b.2 = true) ∧
        q.Allows body.length ∧ (∀ t ∈ body, (g.language n).accepts t = true) ∧
        items = .symbol "let" :: .list (bindingItems bs) :: body ∧
        word = .literal "let" .one :: bindings :: List.replicate body.length (.terminal "ε" q) := by
  rw [captures_headed_iff]
  unfold Language.captures
  simp only [captures_cons_iff (c := bindings) rfl rfl,
    captures_repeated_iff (c := .terminal "ε" q) rfl]
  constructor
  · rintro ⟨rest, others, rfl, ⟨t, body, more, rfl, hb, ⟨hq, hbody, rfl⟩, rfl⟩, rfl⟩
    cases t with
    | atom a => simp [bindings, Clause.fits, Clause.coversTree] at hb
    | list inner =>
      obtain ⟨inside, hinside⟩ := Clause.fits_list_iff.mp hb
      obtain ⟨bs, hne, rfl, hbs, -⟩ := captures_bindings_iff.mp hinside
      exact ⟨bs, body, hne, hbs, hq, hbody, rfl, rfl⟩
  · rintro ⟨bs, body, hne, hbs, hq, hbody, rfl, rfl⟩
    refine ⟨_, _, rfl, ⟨_, body, _, rfl, ?_, ⟨hq, hbody, rfl⟩, rfl⟩, rfl⟩
    exact Clause.fits_list_iff.mpr ⟨_, captures_bindings_iff.mpr ⟨bs, hne, rfl, hbs, rfl⟩⟩

/-- What an `fn` clause captures, whichever number of forms its body may have. -/
theorem captures_fn_iff {q : Quantifier} {items : List Tree} {word : List Clause} :
    (g.language n).captures (headed "fn" [parameters, .terminal "ε" q]) items = some word ↔
      ∃ (ps : List String) (body : List Tree),
        q.Allows body.length ∧ (∀ t ∈ body, (g.language n).accepts t = true) ∧
        items = .symbol "fn" :: .list (ps.map Tree.symbol) :: body ∧
        word = .literal "fn" .one :: parameters ::
          List.replicate body.length (.terminal "ε" q) := by
  rw [captures_headed_iff]
  unfold Language.captures
  simp only [captures_cons_iff (c := parameters) rfl rfl,
    captures_repeated_iff (c := .terminal "ε" q) rfl]
  constructor
  · rintro ⟨rest, others, rfl, ⟨t, body, more, rfl, hp, ⟨hq, hbody, rfl⟩, rfl⟩, rfl⟩
    cases t with
    | atom a => simp [parameters, Clause.fits, Clause.coversTree] at hp
    | list inner =>
      obtain ⟨inside, hinside⟩ := Clause.fits_list_iff.mp hp
      obtain ⟨⟨ps, rfl⟩, -⟩ := captures_parameters_iff.mp hinside
      exact ⟨ps, body, hq, hbody, rfl, rfl⟩
  · rintro ⟨ps, body, hq, hbody, rfl, rfl⟩
    refine ⟨_, _, rfl, ⟨_, body, _, rfl, ?_, ⟨hq, hbody, rfl⟩, rfl⟩, rfl⟩
    exact Clause.fits_list_iff.mpr ⟨_, captures_parameters_iff.mpr ⟨⟨ps, rfl⟩, rfl⟩⟩

theorem captures_ifThen_iff {items : List Tree} {word : List Clause} :
    (g.language n).captures ifThen items = some word ↔
      ∃ a b, (g.language n).accepts a = true ∧ (g.language n).accepts b = true ∧
        items = [.symbol "if", a, b] ∧ word = [.literal "if" .one, oneForm, oneForm] := by
  unfold ifThen
  rw [captures_headed_iff]
  unfold Language.captures
  simp only [captures_cons_iff (c := oneForm) rfl rfl, captures_nil_iff]
  constructor
  · rintro ⟨rest, others, rfl, ⟨a, _, _, rfl, ha, ⟨b, _, _, rfl, hb, ⟨rfl, rfl⟩, rfl⟩, rfl⟩, rfl⟩
    exact ⟨a, b, ha, hb, rfl, rfl⟩
  · rintro ⟨a, b, ha, hb, rfl, rfl⟩
    exact ⟨_, _, rfl, ⟨a, _, _, rfl, ha, ⟨b, _, _, rfl, hb, ⟨rfl, rfl⟩, rfl⟩, rfl⟩, rfl⟩

/-! ## Flat lists -/

/-- Whether a clause stands for keywords, names or forms, and at least for one. -/
def isFlatPart : Clause → Bool
  | .literal _ q => q ≠ .zeroOrMore
  | .terminal name q => (name = "ε" || name = "s") && q ≠ .zeroOrMore
  | _ => false

/-- Whether a clause is a list with only keywords, names and forms in it, and never empty. -/
def isFlat : Clause → Bool
  | .list body _ => !body.isEmpty && body.all isFlatPart
  | _ => false

/-- An item of a flat list: a form, or a symbol that stands for itself. -/
def FlatItem (accepts : Tree → Bool) (c : Clause) (t : Tree) : Prop :=
  (∃ q, c = .terminal "ε" q ∧ accepts t = true) ∨
    (∃ name, t = .symbol name) ∧ ((∃ keyword q, c = .literal keyword q) ∨ ∃ q, c = .terminal "s" q)

theorem isList_of_isFlat {c : Clause} (h : isFlat c = true) : c.isList = true := by
  cases c <;> simp_all [isFlat, Clause.isList]

theorem isGroup_of_isFlatPart {c : Clause} (h : isFlatPart c = true) : c.isGroup = false := by
  cases c <;> simp_all [isFlatPart, Clause.isGroup]

theorem ne_nil_of_isFlatPart {c : Clause} (h : isFlatPart c = true) {word : List Clause}
    (hw : c.Spells word) : word ≠ [] := by
  obtain ⟨m, hm, rfl⟩ := (Clause.spells_iff_repeats (isGroup_of_isFlatPart h) word).mp hw
  have hq : c.quantifier ≠ .zeroOrMore := by
    cases c <;> simp_all [isFlatPart, Clause.quantifier]
  have hpos : m ≠ 0 := by
    rintro rfl
    cases hc : c.quantifier <;> simp_all [Quantifier.Allows]
  simpa using hpos

theorem flatItem_of_fits {c : Clause} (h : isFlatPart c = true) {t : Tree}
    (hf : c.fits (g.language n).holds t = true) : FlatItem (g.language n).accepts c t := by
  cases c with
  | literal keyword q => exact .inr ⟨⟨keyword, fits_literal_iff.mp hf⟩, .inl ⟨_, _, rfl⟩⟩
  | terminal name q =>
    simp only [isFlatPart, Bool.and_eq_true, Bool.or_eq_true, decide_eq_true_eq] at h
    rcases h with ⟨rfl | rfl, -⟩
    · exact .inl ⟨q, rfl, hf⟩
    · exact .inr ⟨fits_symbol_iff.mp hf, .inr ⟨q, rfl⟩⟩
  | _ => simp [isFlatPart] at h

theorem captures_flat {c : Clause} (hc : isFlat c = true) {items : List Tree} {word : List Clause}
    (h : (g.language n).captures c items = some word) :
    items ≠ [] ∧ List.Forall₂ (FlatItem (g.language n).accepts) word items := by
  cases c with
  | list body q =>
    simp only [isFlat, Bool.and_eq_true, Bool.not_eq_true', List.isEmpty_eq_false_iff,
      List.all_eq_true] at hc
    obtain ⟨hne, hparts⟩ := hc
    obtain ⟨hword, hm⟩ := Clause.captures_explained h
    refine ⟨?_, ?_⟩
    · rintro rfl
      cases hm
      obtain ⟨c, cs, rfl⟩ := List.exists_cons_of_ne_nil hne
      obtain ⟨first, others, hfirst, -, hnil⟩ := hword
      exact ne_nil_of_isFlatPart (hparts c (by simp)) hfirst (List.append_eq_nil_iff.mp hnil.symm).1
    · have hmem := Clause.mem_of_spellsAll (fun d hd => isGroup_of_isFlatPart (hparts d hd)) hword
      have hflat : List.Forall₂ (fun d t => d ∈ word ∧ d.fits (g.language n).holds t = true)
          word items := (List.forall₂_and_left _ _).mpr ⟨fun _ hd => hd, hm⟩
      exact hflat.imp fun d t ⟨hd, hf⟩ => flatItem_of_fits (hparts d (hmem d hd)) hf
  | _ => simp [isFlat] at hc

/-- Whether a clause is a name for atoms. -/
def isAtomName (c : Clause) : Bool := c = primitiveName || c = symbolName || c = constantAtom

/-- The clauses of all four languages: names for atoms, quoted data, `let`, `fn`, and flat
lists. -/
theorem clause_cases {e : Entry} (he : e ∈ g.entries n) :
    isAtomName e.clause = true ∨ e.clause = quotation ∨
      (∃ q, q ≠ .zeroOrMore ∧ e.clause = headed "let" [bindings, .terminal "ε" q]) ∨
      (∃ q, q ≠ .zeroOrMore ∧ e.clause = headed "fn" [parameters, .terminal "ε" q]) ∨
      isFlat e.clause = true := by
  have hall : ((g.entries n).all fun e => isAtomName e.clause || e.clause = quotation ||
      e.clause = letForm || e.clause = letOne || e.clause = fnForm || e.clause = fnOne ||
      isFlat e.clause) = true := by
    cases g <;> rfl
  have hkind := List.all_eq_true.mp hall e he
  simp only [Bool.or_eq_true, decide_eq_true_eq] at hkind
  rcases hkind with (((((h | h) | h) | h) | h) | h) | h
  · exact .inl h
  · exact .inr (.inl h)
  · exact .inr (.inr (.inl ⟨.oneOrMore, nofun, h⟩))
  · exact .inr (.inr (.inl ⟨.one, nofun, h⟩))
  · exact .inr (.inr (.inr (.inl ⟨.oneOrMore, nofun, h⟩)))
  · exact .inr (.inr (.inr (.inl ⟨.one, nofun, h⟩)))
  · exact .inr (.inr (.inr (.inr h)))

theorem fits_atomName_list {c : Clause} (hc : isAtomName c = true) (items : List Tree) :
    (g.language n).fits c (.list items) = false := by
  simp only [isAtomName, Bool.or_eq_true, decide_eq_true_eq] at hc
  rcases hc with (rfl | rfl) | rfl <;> rfl

end

end TreePasses.Surface
