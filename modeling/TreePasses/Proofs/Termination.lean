-- Languages in which matching and transforming come to an end: all that are made by edits which
-- never register for any form a name that is an entry of its own.
import TreePasses.Proofs.BoundedCalls
import TreePasses.Proofs.SoundLanguages
import TreePasses.Tree.Edit

namespace TreePasses

/-! ## Languages made by edits -/

namespace Edit

/-- An edit does not register for any form a name that is an entry of its own. -/
def Careful (l : Language) : Edit → Prop
  | .register name .expression => ∀ e ∈ l.entries, ∀ q, e.clause ≠ .terminal name q
  | _ => True

/-- What an edit makes: a registration leaves the entries as they are, and any other edit leaves the
terminals, and puts in no name alone for any form. -/
theorem apply_eq_ok {l l' : Language} {edit : Edit} {s s' : Supply}
    (h : (edit.apply l).run.run s = (.ok l', s')) :
    (∃ name terminal, edit = .register name terminal ∧ l' = l.register name terminal) ∨
      l'.terminals = l.terminals ∧
        ∀ e ∈ l'.entries, e ∈ l.entries ∨ l.isLeftRecursive e.clause = false := by
  have hnew : ∀ {pattern : String} {c : Clause}, l.admissible pattern = .ok c →
      l.isLeftRecursive c = false := fun hc =>
    (Language.objection?_eq_none_iff.mp (Language.admissible_eq_ok_iff.mp hc).2).2.1
  cases edit with
  | register name terminal =>
    cases h
    exact .inl ⟨name, terminal, rfl, rfl⟩
  | append pattern verbatim =>
    cases hc : l.admissible pattern with
    | error e =>
      rw [apply, Language.append_of_error verbatim hc] at h
      cases h
    | ok c =>
      rw [apply, Language.append_of_ok verbatim hc] at h
      cases h
      refine .inr ⟨rfl, fun e he => ?_⟩
      rcases List.mem_append.mp he with he | he
      · exact .inl he
      · cases List.mem_singleton.mp he
        exact .inr (hnew hc)
  | prepend pattern verbatim =>
    cases hc : l.admissible pattern with
    | error e =>
      have hfail : ((prepend pattern verbatim).apply l).run.run s = (.error e, s) :=
        Build.run_bind_of_error (Language.prepend_of_error verbatim hc s)
      rw [hfail] at h
      cases h
    | ok c =>
      rw [apply, Build.run_map_of_ok (Language.prepend_of_ok verbatim hc s)] at h
      cases h
      refine .inr ⟨rfl, fun e he => ?_⟩
      rcases List.mem_cons.mp he with rfl | he
      · exact .inr (hnew hc)
      · exact .inl he
  | erase pattern =>
    rw [apply, Language.erase] at h
    cases he : l.entryFor pattern with
    | error e =>
      rw [he] at h
      cases h
    | ok e =>
      rw [he] at h
      cases h
      exact .inr ⟨rfl, fun x hx => .inl (List.mem_of_mem_eraseP hx)⟩
  | rename name =>
    cases h
    exact .inr ⟨rfl, fun e he => .inl he⟩

end Edit

namespace Language

/-- A language that comes from nothing by edits, all of them careful. -/
inductive Made : Language → Prop where
  | empty (name : String) : Made (.empty name)
  | edit {l l' : Language} (hl : Made l) (edit : Edit) (hcareful : edit.Careful l) (s s' : Supply)
      (h : (edit.apply l).run.run s = (.ok l', s')) : Made l'

theorem isLeftRecursive_eq_false_iff {l : Language} {c : Clause} : l.isLeftRecursive c = false ↔
    ∀ name q, c = .terminal name q → l.terminal? name ≠ some .expression := by
  cases c <;> simp [isLeftRecursive]

theorem isLeftRecursive_congr {l l' : Language} (h : l'.terminals = l.terminals) (c : Clause) :
    l'.isLeftRecursive c = l.isLeftRecursive c := by
  cases c with
  | terminal name q => simp [isLeftRecursive, terminal?, h]
  | _ => rfl

theorem terminal?_register {l : Language} {name other : String} {terminal : Terminal} :
    (l.register name terminal).terminal? other =
      if other = expressionName then some .expression
      else if other = name then some terminal else l.terminals.lookup other := by
  unfold terminal? register
  split
  · rfl
  · by_cases h : other = name
    · simp [h]
    · have hne : (other == name) = false := by simpa using h
      simp [List.lookup_cons, h, hne]

/-- A registration makes an entry a name for any form only if it is the name registered. -/
theorem Grounded.register {l : Language} (hl : l.Grounded) {name : String} {terminal : Terminal}
    (hcareful : (Edit.register name terminal).Careful l) : (l.register name terminal).Grounded := by
  intro e he
  rw [isLeftRecursive_eq_false_iff]
  intro other q hc
  have hold := isLeftRecursive_eq_false_iff.mp (hl e he) other q hc
  rw [terminal?] at hold
  rw [terminal?_register]
  by_cases hε : other = expressionName
  · simp [hε] at hold
  · by_cases hname : other = name
    · subst hname
      rw [if_neg hε, if_pos rfl]
      rintro ⟨⟩
      exact hcareful e he q hc
    · rw [if_neg hε] at hold
      rwa [if_neg hε, if_neg hname]

theorem Made.grounded {l : Language} (hl : l.Made) : l.Grounded := by
  induction hl with
  | empty name =>
    intro e he
    cases he
  | @edit l l' _ edit hcareful s s' h ih =>
    rcases Edit.apply_eq_ok h with ⟨name, terminal, rfl, rfl⟩ | ⟨hterminals, hentries⟩
    · exact ih.register hcareful
    · intro e he
      rw [isLeftRecursive_congr hterminals]
      rcases hentries e he with hold | hnew
      · exact ih e hold
      · exact hnew

/-- Where the first entry is a name alone for any form, no number of calls gives an answer. -/
theorem bounded_entryOf_eq_none {l : Language} {name : String} {q : Quantifier} {e : Entry}
    {es : List Entry} (hentries : l.entries = e :: es) (hc : e.clause = .terminal name q)
    (hk : l.terminal? name = some .expression) (calls : Nat) (t : Tree) :
    Bounded.entryOf l calls t = none := by
  induction calls using Nat.strongRecOn with
  | ind calls ih =>
    match calls with
    | 0 => rfl
    | 1 =>
      unfold Bounded.entryOf
      rw [hentries]
      rfl
    | calls + 2 =>
      -- The entry asks what form the same tree is, with two calls less.
      have hfits : Bounded.fits l (calls + 1) e.clause t = none := by
        have hinside : Bounded.firstOf l calls l.entries t = none := ih calls (by omega)
        rw [hc, Bounded.fits, hk]
        simp only [hinside]
        rfl
      unfold Bounded.entryOf
      rw [hentries, Bounded.firstOf, hfits]
      rfl

/-- A registration that is not careful: the first entry becomes a name for any form, and there is no
answer for any tree. -/
theorem no_answer_after_register {l : Language} {name : String} {q : Quantifier} {e : Entry}
    {es : List Entry} (hentries : l.entries = e :: es) (hc : e.clause = .terminal name q)
    (calls : Nat) (t : Tree) : Bounded.entryOf (l.register name .expression) calls t = none := by
  have hentries' : (l.register name .expression).entries = e :: es := hentries
  refine bounded_entryOf_eq_none hentries' hc ?_ calls t
  rw [terminal?_register]
  simp

/-! ## The laws -/

/-- In a language made by edits that never register for any form a name that is an entry of its own,
no entry is a name alone for any form. Then matching and transforming come to an end on every tree,
whatever the clause and whatever the rules: with enough calls there is an answer, it is the one that
the language gives, and no number of calls gives another one. After a registration that is not
careful, if it is about the first entry, no number of calls tells what form a tree is. -/
theorem matching_and_transforming_come_to_an_end (l : Language) (hl : l.Made) :
    (∀ e ∈ l.entries, ∀ name q, e.clause = .terminal name q →
      l.terminal? name ≠ some .expression) ∧
    (∀ c t, Settles (Bounded.fits l · c t) (l.fits c t)) ∧
    (∀ c items, Settles (Bounded.captures l · c items) (l.captures c items)) ∧
    (∀ t, Settles (Bounded.accepts l · t) (l.accepts t)) ∧
    (∀ t, Settles (Bounded.entryOf l · t) (l.entryOf? t)) ∧
    (∀ rules e t, Settles (Bounded.transformForm l rules · e t) (l.transformForm rules e t)) ∧
    ∀ name q e es, l.entries = e :: es → e.clause = .terminal name q →
      ∀ calls t, Bounded.entryOf (l.register name .expression) calls t = none := by
  have hground := hl.grounded
  refine ⟨?_, settles_fits hground, settles_captures hground, settles_accepts hground,
    settles_entryOf hground, settles_transformForm hground, ?_⟩
  · exact fun e he => isLeftRecursive_eq_false_iff.mp (hground e he)
  · exact fun name q e es hentries hc => no_answer_after_register hentries hc

/-- Constants, and sums of any number of forms, which a name of its own stands for. -/
def sums : Language :=
  ⟨"sums", [⟨⟨1⟩, .list [.literal "sum" .one, .terminal "e" .zeroOrMore] .one, false⟩,
    ⟨⟨0⟩, .terminal "n" .one, false⟩], [("e", .expression), ("n", .constant)]⟩

/-- The name for any form is registered while another name is an entry of its own. -/
theorem made_sums : sums.Made := by
  have hn : ((empty "sums").register "n" .constant).admissible "n" = .ok (.terminal "n" .one) := by
    decide +kernel
  have hnumbers : Made ⟨"sums", [⟨⟨0⟩, .terminal "n" .one, false⟩], [("n", .constant)]⟩ :=
    ((Made.empty "sums").edit (.register "n" .constant) trivial ⟨0⟩ ⟨0⟩ rfl).edit
      (.append "n" false) trivial ⟨0⟩ ⟨1⟩ (append_of_ok false hn ⟨0⟩)
  have hcareful : (Edit.register "e" .expression).Careful
      ⟨"sums", [⟨⟨0⟩, .terminal "n" .one, false⟩], [("n", .constant)]⟩ := by
    simp [Edit.Careful]
  have hforms := hnumbers.edit (.register "e" .expression) hcareful ⟨1⟩ ⟨1⟩ rfl
  have he : admissible ⟨"sums", [⟨⟨0⟩, .terminal "n" .one, false⟩],
      [("e", .expression), ("n", .constant)]⟩ "('sum e*)" =
        .ok (.list [.literal "sum" .one, .terminal "e" .zeroOrMore] .one) := by decide +kernel
  exact hforms.edit (.prepend "('sum e*)" false) trivial ⟨1⟩ ⟨2⟩
    (Build.run_map_of_ok (prepend_of_ok false he ⟨1⟩))

/-- A sum inside a sum. -/
def nestedSum : Tree := .list [.symbol "sum", .list [.symbol "sum"], .atom (.bool true)]

theorem a_nested_sum_settles :
    sums.Made ∧ (∀ e ∈ sums.entries, ∀ name q, e.clause = .terminal name q →
      sums.terminal? name ≠ some .expression) ∧
    Settles (Bounded.accepts sums · nestedSum) true ∧
    Settles (Bounded.fits sums · (.list [.group [.group [] .zeroOrMore] .oneOrMore,
      .terminal "e" .oneOrMore] .one) (.list [nestedSum, nestedSum])) true ∧
    Settles (Bounded.transformForm sums ⟨[(⟨1⟩, Tree.append (.symbol "end"))]⟩ ·
        ⟨⟨1⟩, .list [.literal "sum" .one, .terminal "e" .zeroOrMore] .one, false⟩ nestedSum)
      (.list [.symbol "sum", .list [.symbol "sum", .symbol "end"], .atom (.bool true),
        .symbol "end"]) := by
  obtain ⟨hentries, hfits, -, haccepts, -, htransform, -⟩ :=
    matching_and_transforming_come_to_an_end sums made_sums
  refine ⟨made_sums, hentries, ?_, ?_, ?_⟩
  · have h : sums.accepts nestedSum = true := by decide +kernel
    exact h ▸ haccepts nestedSum
  · have h : sums.fits (.list [.group [.group [] .zeroOrMore] .oneOrMore,
        .terminal "e" .oneOrMore] .one) (.list [nestedSum, nestedSum]) = true := by decide +kernel
    exact h ▸ hfits _ _
  · have h : sums.transformForm ⟨[(⟨1⟩, Tree.append (.symbol "end"))]⟩
        ⟨⟨1⟩, .list [.literal "sum" .one, .terminal "e" .zeroOrMore] .one, false⟩ nestedSum =
        .list [.symbol "sum", .list [.symbol "sum", .symbol "end"], .atom (.bool true),
          .symbol "end"] := by decide +kernel
    exact h ▸ htransform _ _ _

end Language

end TreePasses
