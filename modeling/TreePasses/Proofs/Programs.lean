-- Programs by their forms. All languages on the way hold programs only; at each stage the forms
-- of a program are told apart in the same way, and fewer of them remain.
import TreePasses.Proofs.SurfaceShapes

namespace TreePasses.Surface

open Clause (captures_repeated_iff)

/-! ## Programs -/

/-- The trees of the surface language: atoms, quoted data, functions without parameters, and
lists of programs that are not empty. -/
inductive Program : Tree → Prop where
  | atom (a : Atom) : Program (.atom a)
  | quoted (d : Tree) : Program (quoteTree d)
  | thunk {body : List Tree} (hne : body ≠ []) (h : ∀ t ∈ body, Program t) :
      Program (fnTree [] body)
  | items {ts : List Tree} (hne : ts ≠ []) (h : ∀ t ∈ ts, Program t) : Program (.list ts)

theorem mem_bindingItems {bs : List (String × Tree)} {t : Tree} :
    t ∈ bindingItems bs ↔ ∃ b ∈ bs, t = .symbol b.1 ∨ t = b.2 := by
  simp [bindingItems, List.mem_flatMap]

theorem bindingItems_ne_nil {bs : List (String × Tree)} (h : bs ≠ []) : bindingItems bs ≠ [] := by
  obtain ⟨b, bs, rfl⟩ := List.exists_cons_of_ne_nil h
  simp

theorem program_bindingItems {bs : List (String × Tree)} (hne : bs ≠ [])
    (hbs : ∀ b ∈ bs, Program b.2) : Program (.list (bindingItems bs)) := by
  apply Program.items (bindingItems_ne_nil hne)
  intro t ht
  obtain ⟨b, hb, rfl | rfl⟩ := mem_bindingItems.mp ht
  · exact .atom _
  · exact hbs b hb

/-! ## What a language accepts -/

namespace Stage

/-- Whether the body of a `let` is one form only. -/
def oneInLet : Stage → Bool
  | .surface => false
  | .twoArmed => false
  | .singleLet => true
  | .singleFn => true

/-- Whether the body of a function is one form only. -/
def oneInFn : Stage → Bool
  | .singleFn => true
  | _ => false

end Stage

section

variable {n : Nat} {g : Stage}

theorem accepts_iff_exists {t : Tree} :
    (g.language n).accepts t = true ↔ ∃ e ∈ g.entries n, (g.language n).fits e.clause t = true := by
  rw [Language.accepts_eq_any grounded]
  exact List.any_eq_true

theorem accepts_atom (a : Atom) : (g.language n).accepts (.atom a) = true := by
  have hsymbol : entry n 1 symbolName false ∈ g.entries n := by cases g <;> simp [Stage.entries]
  have hconstant : entry n 2 constantAtom false ∈ g.entries n := by
    cases g <;> simp [Stage.entries]
  cases a with
  | symbol name => exact accepts_iff_exists.mpr ⟨_, hsymbol, rfl⟩
  | _ => exact accepts_iff_exists.mpr ⟨_, hconstant, rfl⟩

/-- A flat list has items, and each is accepted. -/
theorem accepts_of_fits_flat {c : Clause} (hc : isFlat c = true) {items : List Tree}
    (h : (g.language n).fits c (.list items) = true) :
    items ≠ [] ∧ ∀ t ∈ items, (g.language n).accepts t = true := by
  obtain ⟨word, hword⟩ := (Clause.fits_iff_captures (isList_of_isFlat hc)).mp h
  obtain ⟨hne, hflat⟩ := captures_flat hc hword
  refine ⟨hne, fun t ht => ?_⟩
  obtain ⟨c, -, ⟨q, -, hacc⟩ | ⟨⟨name, rfl⟩, -⟩⟩ := Clause.exists_of_forall₂ hflat ht
  · exact hacc
  · exact accepts_atom _

theorem accepts_quoteTree (d : Tree) : (g.language n).accepts (quoteTree d) = true := by
  have hquote : entry n 3 quotation true ∈ g.entries n := by cases g <;> simp [Stage.entries]
  exact accepts_iff_exists.mpr ⟨_, hquote, Clause.fits_list_iff.mpr ⟨_, captures_quotation d⟩⟩

theorem fits_application_iff {items : List Tree} :
    (g.language n).fits application (.list items) = true ↔
      items ≠ [] ∧ ∀ t ∈ items, (g.language n).accepts t = true := by
  unfold Language.fits application
  rw [Clause.fits_list_iff]
  simp only [captures_repeated_iff (c := someForms) rfl]
  constructor
  · rintro ⟨word, hlen, hitems, -⟩
    exact ⟨List.length_pos_iff.mp hlen, hitems⟩
  · rintro ⟨hne, hitems⟩
    exact ⟨_, List.length_pos_iff.mpr hne, hitems, rfl⟩

/-- Every language on the way has lists of forms. -/
theorem accepts_list {items : List Tree} (hne : items ≠ [])
    (h : ∀ t ∈ items, (g.language n).accepts t = true) :
    (g.language n).accepts (.list items) = true := by
  have happ : entry n 12 application false ∈ g.entries n := by cases g <;> simp [Stage.entries]
  exact accepts_iff_exists.mpr ⟨_, happ, fits_application_iff.mpr ⟨hne, h⟩⟩

theorem ne_nil_of_allows {q : Quantifier} (hq : q ≠ .zeroOrMore) {body : List Tree}
    (h : q.Allows body.length) : body ≠ [] := by
  rintro rfl
  cases q <;> simp_all [Quantifier.Allows]

/-- A body is one form only where no clause lets it be more. -/
theorem quantifier_eq_one {keyword : String} {c : Clause}
    (hnone : (g.entries n).any (fun e => e.clause = headed keyword [c, someForms]) = false)
    {e : Entry} (he : e ∈ g.entries n) {q : Quantifier} (hq : q ≠ .zeroOrMore)
    (hc : e.clause = headed keyword [c, .terminal "ε" q]) : q = .one := by
  cases q with
  | one => rfl
  | zeroOrMore => exact absurd rfl hq
  | oneOrMore => exact absurd (decide_eq_true hc) (List.any_eq_false.mp hnone e he)

theorem quantifier_of_oneInLet (hg : g.oneInLet = true) {e : Entry} (he : e ∈ g.entries n)
    {q : Quantifier} (hq : q ≠ .zeroOrMore)
    (hc : e.clause = headed "let" [bindings, .terminal "ε" q]) : q = .one := by
  apply quantifier_eq_one _ he hq hc
  cases g with
  | singleLet => rfl
  | singleFn => rfl
  | _ => cases hg

theorem quantifier_of_oneInFn (hg : g.oneInFn = true) {e : Entry} (he : e ∈ g.entries n)
    {q : Quantifier} (hq : q ≠ .zeroOrMore)
    (hc : e.clause = headed "fn" [parameters, .terminal "ε" q]) : q = .one := by
  apply quantifier_eq_one _ he hq hc
  cases g with
  | singleFn => rfl
  | _ => cases hg

/-- The lists that a language on the way accepts: quoted data, `let`, `fn`, and lists of
forms. -/
theorem accepts_list_cases {items : List Tree} (h : (g.language n).accepts (.list items) = true) :
    (∃ d, items = [.symbol "quote", d]) ∨
      (∃ bs body, bs ≠ [] ∧ (∀ b ∈ bs, (g.language n).accepts b.2 = true) ∧
        (∀ t ∈ body, (g.language n).accepts t = true) ∧ .list items = letTree bs body) ∨
      (∃ ps body, body ≠ [] ∧ (g.oneInFn = true → body.length = 1) ∧
        (∀ t ∈ body, (g.language n).accepts t = true) ∧ .list items = fnTree ps body) ∨
      (items ≠ [] ∧ ∀ t ∈ items, (g.language n).accepts t = true) := by
  obtain ⟨e, he, hf⟩ := accepts_iff_exists.mp h
  rcases clause_cases he with hc | hc | ⟨q, hq, hc⟩ | ⟨q, hq, hc⟩ | hc
  · rw [fits_atomName_list hc] at hf
    cases hf
  · rw [hc] at hf
    obtain ⟨word, hword⟩ := (Clause.fits_iff_captures rfl).mp hf
    exact .inl (captures_quotation_iff.mp hword).1
  · rw [hc] at hf
    obtain ⟨word, hword⟩ := (Clause.fits_iff_captures rfl).mp hf
    obtain ⟨bs, body, hne, hbs, -, hbody, rfl, -⟩ := captures_let_iff.mp hword
    exact .inr (.inl ⟨bs, body, hne, hbs, hbody, rfl⟩)
  · rw [hc] at hf
    obtain ⟨word, hword⟩ := (Clause.fits_iff_captures rfl).mp hf
    obtain ⟨ps, body, hallows, hbody, rfl, -⟩ := captures_fn_iff.mp hword
    refine .inr (.inr (.inl ⟨ps, body, ne_nil_of_allows hq hallows, fun hg => ?_, hbody, rfl⟩))
    rw [quantifier_of_oneInFn hg he hq hc] at hallows
    exact hallows
  · exact .inr (.inr (.inr (accepts_of_fits_flat hc hf)))

theorem accepts_bindingItems {bs : List (String × Tree)} (hne : bs ≠ [])
    (hbs : ∀ b ∈ bs, (g.language n).accepts b.2 = true) :
    (g.language n).accepts (.list (bindingItems bs)) = true := by
  apply accepts_list (bindingItems_ne_nil hne)
  intro t ht
  obtain ⟨b, hb, rfl | rfl⟩ := mem_bindingItems.mp ht
  · exact accepts_atom _
  · exact hbs b hb

/-- An accepted list is a quoted datum, a function without parameters, or a list of accepted
items: bindings and parameters are such lists as well, unless there are no parameters. -/
theorem accepts_items_cases {items : List Tree} (h : (g.language n).accepts (.list items) = true) :
    (∃ d, items = [.symbol "quote", d]) ∨
      (∃ body, body ≠ [] ∧ (g.oneInFn = true → body.length = 1) ∧
        (∀ t ∈ body, (g.language n).accepts t = true) ∧ .list items = fnTree [] body) ∨
      (items ≠ [] ∧ ∀ t ∈ items, (g.language n).accepts t = true) := by
  rcases accepts_list_cases h with hquote | ⟨bs, body, hne, hbs, hbody, heq⟩ |
    ⟨ps, body, hne, single, hbody, heq⟩ | hitems
  · exact .inl hquote
  · cases heq
    exact .inr (.inr ⟨by simp, List.forall_mem_cons.mpr
      ⟨accepts_atom _, List.forall_mem_cons.mpr ⟨accepts_bindingItems hne hbs, hbody⟩⟩⟩)
  · cases ps with
    | nil => exact .inr (.inl ⟨body, hne, single, hbody, heq⟩)
    | cons p ps =>
      cases heq
      have hparameters : (g.language n).accepts (.list ((p :: ps).map Tree.symbol)) = true := by
        apply accepts_list (by simp)
        intro t ht
        obtain ⟨name, -, rfl⟩ := List.mem_map.mp ht
        exact accepts_atom _
      exact .inr (.inr ⟨by simp, List.forall_mem_cons.mpr
        ⟨accepts_atom _, List.forall_mem_cons.mpr ⟨hparameters, hbody⟩⟩⟩)
  · exact .inr (.inr hitems)

/-- Whatever a language on the way accepts is a program. -/
theorem program_of_accepts {t : Tree} (h : (g.language n).accepts t = true) : Program t := by
  induction t with
  | atom a => exact .atom a
  | list items ih =>
    rcases accepts_items_cases h with ⟨d, rfl⟩ | ⟨body, hne, -, hbody, heq⟩ | ⟨hne, hitems⟩
    · exact .quoted d
    · cases heq
      exact .thunk hne fun t ht => ih t (by simp [ht]) (hbody t ht)
    · exact .items hne fun t ht => ih t ht (hitems t ht)

end

/-! ## Forms at each stage -/

namespace Stage

/-- The entry for `let`, if `n` ids were spent before. -/
def letEntry (n : Nat) (g : Stage) : Entry :=
  if g.oneInLet then entry n 14 letOne false else entry n 10 letForm false

/-- The entry for `fn`, if `n` ids were spent before. -/
def fnEntry (n : Nat) (g : Stage) : Entry :=
  if g.oneInFn then entry n 15 fnOne false else entry n 11 fnForm false

end Stage

def IsQuote (items : List Tree) : Prop := ∃ d, items = [.symbol "quote", d]

def IsIfThen (items : List Tree) : Prop := ∃ a b, items = [.symbol "if", a, b]

def IsLet (items : List Tree) : Prop :=
  ∃ bs body, bs ≠ [] ∧ (∀ b ∈ bs, Program b.2) ∧ body ≠ [] ∧ .list items = letTree bs body

def IsFn (items : List Tree) : Prop := ∃ ps body, body ≠ [] ∧ .list items = fnTree ps body

section

variable {n : Nat} {g : Stage}

theorem isQuote_of_fits {items : List Tree}
    (h : (g.language n).fits quotation (.list items) = true) : IsQuote items := by
  obtain ⟨word, hword⟩ := Clause.fits_list_iff.mp h
  exact (captures_quotation_iff.mp hword).1

theorem isIfThen_of_fits {items : List Tree}
    (h : (g.language n).fits ifThen (.list items) = true) : IsIfThen items := by
  obtain ⟨word, hword⟩ := Clause.fits_list_iff.mp h
  obtain ⟨a, b, -, -, heq, -⟩ := captures_ifThen_iff.mp hword
  exact ⟨a, b, heq⟩

theorem isLet_of_fits {q : Quantifier} (hq : q ≠ .zeroOrMore) {items : List Tree}
    (h : (g.language n).fits (headed "let" [bindings, .terminal "ε" q]) (.list items) = true) :
    IsLet items := by
  obtain ⟨word, hword⟩ := Clause.fits_list_iff.mp h
  obtain ⟨bs, body, hbs, values, hallows, -, heq, -⟩ := captures_let_iff.mp hword
  exact ⟨bs, body, hbs, fun b hb => program_of_accepts (values b hb), ne_nil_of_allows hq hallows,
    congrArg Tree.list heq⟩

theorem isFn_of_fits {q : Quantifier} (hq : q ≠ .zeroOrMore) {items : List Tree}
    (h : (g.language n).fits (headed "fn" [parameters, .terminal "ε" q]) (.list items) = true) :
    IsFn items := by
  obtain ⟨word, hword⟩ := Clause.fits_list_iff.mp h
  obtain ⟨ps, body, hallows, -, heq, -⟩ := captures_fn_iff.mp hword
  exact ⟨ps, body, ne_nil_of_allows hq hallows, congrArg Tree.list heq⟩

end

/-- The items of a list that is no quoted datum, no `let` and no function. -/
structure Plain (items : List Tree) : Prop where
  not_quote : ¬ IsQuote items
  not_let : ¬ IsLet items
  not_fn : ¬ IsFn items

/-- The programs of a stage, by their forms. A list of forms is a form of that kind only if it
is of no other kind. -/
inductive Form (g : Stage) : Tree → Prop where
  | atom (a : Atom) : Form g (.atom a)
  | quoted (d : Tree) : Form g (quoteTree d)
  | letForm {bs : List (String × Tree)} {body : List Tree} (hbs : bs ≠ []) (hbody : body ≠ [])
      (values : ∀ b ∈ bs, Form g b.2) (forms : ∀ t ∈ body, Form g t)
      (single : g.oneInLet = true → body.length = 1) : Form g (letTree bs body)
  | fnForm {ps : List String} {body : List Tree} (hbody : body ≠ [])
      (forms : ∀ t ∈ body, Form g t) (single : g.oneInFn = true → body.length = 1) :
      Form g (fnTree ps body)
  | plain {items : List Tree} (hne : items ≠ []) (forms : ∀ t ∈ items, Form g t)
      (hplain : Plain items) (hif : g ≠ .surface → ¬ IsIfThen items) : Form g (.list items)

section

variable {n : Nat} {g : Stage}

/-- Every program is a form of the surface language. -/
theorem Program.form {t : Tree} (h : Program t) : Form .surface t := by
  induction hn : t.height using Nat.strong_induction_on generalizing t with
  | _ m ih =>
    subst hn
    have hlow : ∀ u, u.height < t.height → Program u → Form .surface u := by
      intro u hu hp
      exact ih _ hu hp rfl
    cases h with
    | atom a => exact .atom a
    | quoted d => exact .quoted d
    | thunk hne hbody =>
      refine .fnForm hne ?_ nofun
      intro u hu
      exact hlow u (Tree.height_lt_of_mem (by simp [hu])) (hbody u hu)
    | @items ts hne hts =>
      have hforms : ∀ u ∈ ts, Form .surface u := by
        intro u hu
        exact hlow u (Tree.height_lt_of_mem hu) (hts u hu)
      by_cases hquote : IsQuote ts
      · obtain ⟨d, rfl⟩ := hquote
        exact .quoted d
      by_cases hlet : IsLet ts
      · obtain ⟨bs, body, hbs, hvalues, hbody, heq⟩ := hlet
        cases heq
        apply Form.letForm hbs hbody _ (fun u hu => hforms u (by simp [hu])) nofun
        intro b hb
        have hv : b.2.height < (Tree.list (bindingItems bs)).height :=
          Tree.height_lt_of_mem (mem_bindingItems.mpr ⟨b, hb, .inr rfl⟩)
        exact hlow b.2 (hv.trans (Tree.height_lt_of_mem (by simp))) (hvalues b hb)
      by_cases hfn : IsFn ts
      · obtain ⟨ps, body, hbody, heq⟩ := hfn
        cases heq
        exact .fnForm hbody (fun u hu => hforms u (by simp [hu])) nofun
      · exact .plain hne hforms ⟨hquote, hlet, hfn⟩ (absurd rfl)

theorem letEntry_mem : g.letEntry n ∈ g.entries n := by
  cases g <;> simp [Stage.letEntry, Stage.oneInLet, Stage.entries]

theorem fnEntry_mem : g.fnEntry n ∈ g.entries n := by
  cases g <;> simp [Stage.fnEntry, Stage.oneInFn, Stage.entries]

/-- The quantifier of a body that is one form only, or one form or more. -/
def bodyQuantifier (single : Bool) : Quantifier := if single then .one else .oneOrMore

theorem bodyQuantifier_allows {single : Bool} {body : List Tree} (hne : body ≠ [])
    (h : single = true → body.length = 1) : (bodyQuantifier single).Allows body.length := by
  unfold bodyQuantifier
  cases single with
  | true => exact h rfl
  | false => exact List.length_pos_iff.mpr hne

theorem letEntry_clause :
    (g.letEntry n).clause = headed "let" [bindings, .terminal "ε" (bodyQuantifier g.oneInLet)] := by
  cases g <;> rfl

theorem fnEntry_clause :
    (g.fnEntry n).clause = headed "fn" [parameters, .terminal "ε" (bodyQuantifier g.oneInFn)] := by
  cases g <;> rfl

theorem captures_letEntry {bs : List (String × Tree)} {body : List Tree} (hbs : bs ≠ [])
    (hbody : body ≠ []) (values : ∀ b ∈ bs, (g.language n).accepts b.2 = true)
    (forms : ∀ t ∈ body, (g.language n).accepts t = true)
    (single : g.oneInLet = true → body.length = 1) :
    (g.language n).captures (g.letEntry n).clause
        (.symbol "let" :: .list (bindingItems bs) :: body) =
      some (.literal "let" .one :: bindings ::
        List.replicate body.length (.terminal "ε" (bodyQuantifier g.oneInLet))) := by
  rw [letEntry_clause]
  exact captures_let_iff.mpr
    ⟨bs, body, hbs, values, bodyQuantifier_allows hbody single, forms, rfl, rfl⟩

theorem captures_fnEntry (ps : List String) {body : List Tree} (hbody : body ≠ [])
    (forms : ∀ t ∈ body, (g.language n).accepts t = true)
    (single : g.oneInFn = true → body.length = 1) :
    (g.language n).captures (g.fnEntry n).clause
        (.symbol "fn" :: .list (ps.map Tree.symbol) :: body) =
      some (.literal "fn" .one :: parameters ::
        List.replicate body.length (.terminal "ε" (bodyQuantifier g.oneInFn))) := by
  rw [fnEntry_clause]
  exact captures_fn_iff.mpr ⟨ps, body, bodyQuantifier_allows hbody single, forms, rfl, rfl⟩

theorem fits_letEntry {bs : List (String × Tree)} {body : List Tree} (hbs : bs ≠ [])
    (hbody : body ≠ []) (values : ∀ b ∈ bs, (g.language n).accepts b.2 = true)
    (forms : ∀ t ∈ body, (g.language n).accepts t = true)
    (single : g.oneInLet = true → body.length = 1) :
    (g.language n).fits (g.letEntry n).clause (letTree bs body) = true := by
  apply (Clause.fits_iff_captures _).mpr
  · exact ⟨_, captures_letEntry hbs hbody values forms single⟩
  · rw [letEntry_clause]
    rfl

theorem fits_fnEntry (ps : List String) {body : List Tree} (hbody : body ≠ [])
    (forms : ∀ t ∈ body, (g.language n).accepts t = true)
    (single : g.oneInFn = true → body.length = 1) :
    (g.language n).fits (g.fnEntry n).clause (fnTree ps body) = true := by
  apply (Clause.fits_iff_captures _).mpr
  · exact ⟨_, captures_fnEntry ps hbody forms single⟩
  · rw [fnEntry_clause]
    rfl

theorem accepts_letTree {bs : List (String × Tree)} {body : List Tree} (hbs : bs ≠ [])
    (hbody : body ≠ []) (values : ∀ b ∈ bs, (g.language n).accepts b.2 = true)
    (forms : ∀ t ∈ body, (g.language n).accepts t = true)
    (single : g.oneInLet = true → body.length = 1) :
    (g.language n).accepts (letTree bs body) = true :=
  accepts_iff_exists.mpr ⟨_, letEntry_mem, fits_letEntry hbs hbody values forms single⟩

theorem accepts_fnTree {ps : List String} {body : List Tree} (hbody : body ≠ [])
    (forms : ∀ t ∈ body, (g.language n).accepts t = true)
    (single : g.oneInFn = true → body.length = 1) :
    (g.language n).accepts (fnTree ps body) = true :=
  accepts_iff_exists.mpr ⟨_, fnEntry_mem, fits_fnEntry ps hbody forms single⟩

/-- The language of a stage accepts the forms of the stage. -/
theorem Form.accepts {t : Tree} (h : Form g t) : (g.language n).accepts t = true := by
  induction h with
  | atom a => exact accepts_atom a
  | quoted d => exact accepts_quoteTree d
  | letForm hbs hbody _ _ single ihv ihf => exact accepts_letTree hbs hbody ihv ihf single
  | fnForm hbody _ single ihf => exact accepts_fnTree hbody ihf single
  | plain hne _ _ _ ihf => exact accepts_list hne ihf

theorem captures_bindings {bs : List (String × Tree)} (hbs : bs ≠ [])
    (values : ∀ b ∈ bs, Form g b.2) :
    (g.language n).captures bindings (bindingItems bs) = some (bindingWord bs.length) :=
  captures_bindings_iff.mpr ⟨bs, hbs, rfl, fun b hb => (values b hb).accepts, rfl⟩

theorem captures_ifThen {a b : Tree} (ha : Form g a) (hb : Form g b) :
    (g.language n).captures ifThen [.symbol "if", a, b] =
      some [.literal "if" .one, oneForm, oneForm] :=
  captures_ifThen_iff.mpr ⟨a, b, ha.accepts, hb.accepts, rfl, rfl⟩

theorem captures_letTree {bs : List (String × Tree)} {body : List Tree} (hbs : bs ≠ [])
    (hbody : body ≠ []) (values : ∀ b ∈ bs, Form g b.2) (forms : ∀ t ∈ body, Form g t)
    (single : g.oneInLet = true → body.length = 1) :
    (g.language n).captures (g.letEntry n).clause
        (.symbol "let" :: .list (bindingItems bs) :: body) =
      some (.literal "let" .one :: bindings ::
        List.replicate body.length (.terminal "ε" (bodyQuantifier g.oneInLet))) :=
  captures_letEntry hbs hbody (fun b hb => (values b hb).accepts)
    (fun t ht => (forms t ht).accepts) single

theorem captures_fnTree (ps : List String) {body : List Tree} (hbody : body ≠ [])
    (forms : ∀ t ∈ body, Form g t) (single : g.oneInFn = true → body.length = 1) :
    (g.language n).captures (g.fnEntry n).clause
        (.symbol "fn" :: .list (ps.map Tree.symbol) :: body) =
      some (.literal "fn" .one :: parameters ::
        List.replicate body.length (.terminal "ε" (bodyQuantifier g.oneInFn))) :=
  captures_fnEntry ps hbody (fun t ht => (forms t ht).accepts) single

/-- The surface language accepts exactly the programs. -/
theorem surface_accepts_iff {t : Tree} :
    (Stage.surface.language n).accepts t = true ↔ Form .surface t :=
  ⟨fun h => (program_of_accepts h).form, Form.accepts⟩

end

end TreePasses.Surface
