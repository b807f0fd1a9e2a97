-- A pass leaves a form of the kind that it was, unless the pass is for that kind. There is one
-- exception: a list that starts with `let` and an `if` without an else is an application before
-- the `if` gets its else, and a `let` after.
import TreePasses.Proofs.Preservation
import TreePasses.Proofs.SurfaceMembership
import TreePasses.Proofs.SurfaceTyping

namespace TreePasses.Surface

/-! ## Entries with a keyword and after them -/

namespace Stage

/-- The entries before the one for applications. -/
def keyed (n : Nat) (g : Stage) : List Entry := (g.entries n).dropLast.dropLast

end Stage

/-- The keyword that a clause starts with. -/
def keyword? : Clause → Option String
  | .list (.literal keyword .one :: _) .one => some keyword
  | _ => none

theorem exists_headed {c : Clause} {keyword : String} (h : keyword? c = some keyword) :
    ∃ body, c = headed keyword body := by
  unfold keyword? at h
  split at h
  · cases h
    exact ⟨_, rfl⟩
  · cases h

section

variable {n : Nat} {g : Stage}

theorem entries_eq_keyed :
    g.entries n = g.keyed n ++ [entry n 12 application false, entry n 13 symbols false] := by
  cases g <;> rfl

theorem mem_of_mem_keyed {e : Entry} (he : e ∈ g.keyed n) : e ∈ g.entries n := by
  rw [entries_eq_keyed]
  exact List.mem_append_left _ he

theorem quotation_mem_keyed : entry n 3 quotation true ∈ g.keyed n := by
  cases g <;> simp [Stage.keyed, Stage.entries]

theorem letEntry_mem_keyed : g.letEntry n ∈ g.keyed n := by
  cases g <;> simp [Stage.keyed, Stage.entries, Stage.letEntry, Stage.oneInLet]

theorem fnEntry_mem_keyed : g.fnEntry n ∈ g.keyed n := by
  cases g <;> simp [Stage.keyed, Stage.entries, Stage.fnEntry, Stage.oneInFn]

/-- A list is of the kind of an entry with a keyword, or it is an application. -/
theorem entryOf?_list_cases {items : List Tree} {e : Entry}
    (he : (g.language n).entryOf? (.list items) = some e) :
    e ∈ g.keyed n ∨ (e = entry n 12 application false ∧
      (∀ t ∈ items, (g.language n).accepts t = true) ∧
      ∀ x ∈ g.keyed n, (g.language n).fits x.clause (.list items) = false) := by
  have hentries : (g.language n).entries = g.entries n := rfl
  unfold Language.entryOf? at he
  rw [hentries, entries_eq_keyed, List.find?_append, Option.or_eq_some_iff] at he
  rcases he with hkeyed | ⟨hnone, hlast⟩
  · exact .inl (List.mem_of_find?_eq_some hkeyed)
  -- The last entry is for lists of symbols only, and these are applications already.
  have hflat : items ≠ [] ∧ ∀ t ∈ items, (g.language n).accepts t = true := by
    have hf := List.find?_some hlast
    rcases List.mem_cons.mp (List.mem_of_find?_eq_some hlast) with rfl | hlast
    · exact accepts_of_fits_flat rfl hf
    · rw [List.mem_singleton.mp hlast] at hf
      exact accepts_of_fits_flat rfl hf
  have happ : (g.language n).fits application (.list items) = true :=
    fits_application_iff.mpr hflat
  have hfirst := List.find?_cons_of_pos (a := entry n 12 application false)
    (p := fun e => (g.language n).fits e.clause (.list items))
    (l := [entry n 13 symbols false]) happ
  rw [hlast, Option.some_inj] at hfirst
  refine .inr ⟨hfirst, hflat.2, fun x hx => ?_⟩
  simpa using List.find?_eq_none.mp hnone x hx

/-- A list of forms is an application, if no entry with a keyword fits. -/
theorem entryOf?_application {items : List Tree} (hne : items ≠ [])
    (hitems : ∀ t ∈ items, (g.language n).accepts t = true)
    (hkeyed : ∀ x ∈ g.keyed n, (g.language n).fits x.clause (.list items) = false) :
    (g.language n).entryOf? (.list items) = some (entry n 12 application false) := by
  have hentries : (g.language n).entries = g.entries n := rfl
  have hnone : (g.keyed n).find? (fun e => (g.language n).fits e.clause (.list items)) = none := by
    rw [List.find?_eq_none]
    intro x hx
    rw [hkeyed x hx]
    simp
  unfold Language.entryOf?
  rw [hentries, entries_eq_keyed, List.find?_append, hnone, Option.none_or]
  exact List.find?_cons_of_pos (fits_application_iff.mpr ⟨hne, hitems⟩)

end

section

variable {n : Nat} {k : Step}

/-! ## Atoms and lists with a keyword -/

/-- The names for atoms, in the order in which they are tried. -/
def atomNames (n : Nat) : List Entry :=
  [entry n 0 primitiveName false, entry n 1 symbolName false, entry n 2 constantAtom false]

/-- Only names for atoms fit an atom, and they are the same at each stage. -/
theorem entryOf?_atom (g : Stage) (a : Atom) : (g.language n).entryOf? (.atom a) =
    (atomNames n).find? fun e => (Stage.surface.language n).fits e.clause (.atom a) := by
  have hnames : (g.entries n).filter (fun e => !e.clause.isList) = atomNames n := by
    cases g <;> rfl
  have hfit : ∀ e : Entry, decide ((!e.clause.isList) = true ∧
      (g.language n).fits e.clause (.atom a) = true) = (g.language n).fits e.clause (.atom a) := by
    intro e
    cases e.clause with
    | list body q => rfl
    | _ => simp [Clause.isList]
  have hfirst : (g.language n).entryOf? (.atom a) =
      (atomNames n).find? fun e => (g.language n).fits e.clause (.atom a) := by
    rw [← hnames, List.find?_filter]
    simp only [hfit]
    rfl
  rw [hfirst]
  rfl

/-- An entry with a keyword that has no rule is the first for its keyword in the next language. -/
theorem first_for_keyword {e : Entry} (he : e ∈ k.source.keyed n)
    (hname : isAtomName e.clause = false) (hr : e.clause ≠ k.ruledClause) :
    ∃ keyword body, e.clause = headed keyword body ∧
      (k.target.entries n).find? (fun x => couldFit keyword x.clause) = some e := by
  have hall : ((k.source.keyed 0).all fun e => decide (e.clause = k.ruledClause) ||
      isAtomName e.clause || (keyword? e.clause).any fun keyword =>
        (k.target.entries 0).find? (fun x => couldFit keyword x.clause) = some e) = true := by
    cases k <;> rfl
  have hmap : k.source.keyed n = (k.source.keyed 0).map
      fun e => entry n e.id.index.toNat e.clause e.verbatim := by
    cases k <;> rfl
  rw [hmap] at he
  obtain ⟨row, hrow, rfl⟩ := List.mem_map.mp he
  have hkind := List.all_eq_true.mp hall row hrow
  simp only [Bool.or_eq_true, decide_eq_true_eq, Option.any_eq_true] at hkind
  rcases hkind with (h | h) | ⟨keyword, hkeyword, hfirst⟩
  · exact absurd h hr
  · exact absurd (h.symm.trans hname) nofun
  · obtain ⟨body, hbody⟩ := exists_headed hkeyword
    refine ⟨keyword, body, hbody, ?_⟩
    rw [entries_eq_map, List.find?_map]
    exact congrArg (Option.map _) hfirst

/-- A form that starts with a keyword stays of its kind. -/
theorem kind_of_keyed {items : List Tree} {e : Entry}
    (he : (k.source.language n).entryOf? (.list items) = some e) (hkeyed : e ∈ k.source.keyed n)
    (hr : e.clause ≠ k.ruledClause) :
    (k.target.language n).entryOf? (k.convert n (.list items)) = some e := by
  obtain ⟨hmem, hf⟩ := Language.entryOf?_spec he
  have hname : isAtomName e.clause = false := by
    rw [Bool.eq_false_iff]
    intro hname
    rw [fits_atomName_list hname] at hf
    cases hf
  have hrule : (k.pass n).rules.get? e.id = none := by rw [Step.get?_eq hmem, if_neg hr]
  have hnew : (k.target.language n).fits e.clause (k.convert n (.list items)) = true := by
    rw [convert_eq_of_entryOf? he]
    exact (k.wellTyped n).fits_transformForm he hrule
  obtain ⟨keyword, body, hc, hfirst⟩ := first_for_keyword hkeyed hname hr
  obtain ⟨new, hlist⟩ := exists_convert_list (n := n) (k := k) items
  rw [hlist] at hnew ⊢
  obtain ⟨word, hword⟩ := Clause.fits_list_iff.mp (hc ▸ hnew)
  obtain ⟨rest, -, rfl, -, -⟩ := captures_headed_iff.mp hword
  exact entryOf?_keyword hfirst hnew

/-! ## Applications -/

/-- A list that starts with `let` and reads as one once the `if` in it has an else. -/
def BecomesLet (t : Tree) : Prop :=
  ∃ a name body, body ≠ [] ∧
    t = .list (.symbol "let" :: .list [.symbol "if", a, .symbol name] :: body)

theorem fits_of_fits_convert {c : Clause} (hc : isFlatPart c = true) {t : Tree}
    (ht : (k.source.language n).accepts t = true)
    (hf : c.fits (k.target.language n).holds (k.convert n t) = true) :
    c.fits (k.source.language n).holds t = true := by
  rcases flatItem_of_fits hc hf with ⟨q, rfl, -⟩ | ⟨⟨name, hname⟩, ⟨keyword, q, rfl⟩ | ⟨q, rfl⟩⟩
  · exact ht
  · rw [hname] at hf
    rw [convert_eq_atom_iff.mp hname]
    exact hf
  · rw [convert_eq_atom_iff.mp hname]
    exact fits_symbol_iff.mpr ⟨name, rfl⟩

theorem matched_of_map {word : List Clause} {items : List Tree}
    (hparts : ∀ c ∈ word, isFlatPart c = true)
    (hitems : ∀ t ∈ items, (k.source.language n).accepts t = true)
    (h : Clause.Matched (k.target.language n).holds word (items.map (k.convert n))) :
    Clause.Matched (k.source.language n).holds word items := by
  induction items generalizing word with
  | nil =>
    cases h
    exact .nil
  | cons t ts ih =>
    obtain ⟨c, cs, hct, hcs, rfl⟩ := List.forall₂_cons_right_iff.mp h
    obtain ⟨hc, hparts⟩ := List.forall_mem_cons.mp hparts
    obtain ⟨ht, hitems⟩ := List.forall_mem_cons.mp hitems
    exact .cons (fits_of_fits_convert hc ht hct) (ih hparts hitems hcs)

/-- Items that make a flat list after a pass made one before. -/
theorem fits_flat_of_map {e : Entry} (he : e ∈ k.target.entries n) (hc : isFlat e.clause = true)
    {items : List Tree} (hitems : ∀ t ∈ items, (k.source.language n).accepts t = true)
    (hf : (k.target.language n).fits e.clause (.list (items.map (k.convert n))) = true) :
    (k.source.language n).fits e.clause (.list items) = true := by
  have htail := allTailQuantified he
  obtain ⟨body, q, heq⟩ : ∃ body q, e.clause = .list body q := by
    cases hclause : e.clause with
    | list body q => exact ⟨body, q, rfl⟩
    | _ =>
      rw [hclause] at hc
      cases hc
  rw [heq] at hc hf htail ⊢
  have hbody : Clause.tailQuantified body = true := htail body (by simp [Clause.listBodies])
  simp only [isFlat, Bool.and_eq_true, List.all_eq_true] at hc
  obtain ⟨word, hword⟩ := Clause.fits_list_iff.mp hf
  obtain ⟨hspells, hmatched⟩ := (Clause.captures_iff hbody).mp hword
  have hmem := Clause.mem_of_spellsAll (fun d hd => isGroup_of_isFlatPart (hc.2 d hd)) hspells
  refine Clause.fits_list_iff.mpr ⟨word, (Clause.captures_iff hbody).mpr ⟨hspells, ?_⟩⟩
  exact matched_of_map (fun c hcw => hc.2 c (hmem c hcw)) hitems hmatched

/-- The flat lists with a keyword are all there before the pass. -/
theorem flat_keyed_source {x : Entry} (hx : x ∈ k.target.keyed n) (hc : isFlat x.clause = true) :
    ∃ y ∈ k.source.keyed n, y.clause = x.clause := by
  have hall : ((k.target.keyed n).all fun x => !isFlat x.clause ||
      (k.source.keyed n).any fun y => y.clause = x.clause) = true := by
    cases k <;> rfl
  have hkept := List.all_eq_true.mp hall x hx
  simpa [hc] using hkept

/-- Items that make a form with a keyword after a pass made one before, but for the `let` that
shows only after. -/
theorem keyed_of_map {items : List Tree}
    (hitems : ∀ t ∈ items, (k.source.language n).accepts t = true) {x : Entry}
    (hx : x ∈ k.target.keyed n)
    (hf : (k.target.language n).fits x.clause (.list (items.map (k.convert n))) = true) :
    (∃ y ∈ k.source.keyed n, (k.source.language n).fits y.clause (.list items) = true) ∨
      (k = .ifs ∧ BecomesLet (.list items)) := by
  have hmem := mem_of_mem_keyed hx
  have hmany : k.source.oneInFn = false := by cases k <;> rfl
  rcases clause_cases hmem with hc | hc | ⟨q, hq, hc⟩ | ⟨q, hq, hc⟩ | hc
  · rw [fits_atomName_list hc] at hf
    cases hf
  · obtain ⟨d, rfl⟩ := isQuote_of_map (isQuote_of_fits (hc ▸ hf))
    exact .inl ⟨_, quotation_mem_keyed, Clause.fits_list_iff.mpr ⟨_, captures_quotation d⟩⟩
  · rcases isLet_of_map hitems (isLet_of_fits hq (hc ▸ hf)) with
      ⟨bs, body, hbs, values, hbody, heq⟩ | ⟨hk, a, name, body, hbody, rfl⟩
    · cases heq
      refine .inl ⟨_, letEntry_mem_keyed, fits_letEntry hbs hbody
        (fun b hb => (values b hb).accepts hmany) (fun t ht => hitems t (by simp [ht])) ?_⟩
      -- A clause for one form only is there for good, so the body has one form before as well.
      intro hone
      have htarget : k.target.oneInLet = true := by cases k <;> trivial
      rw [hc, quantifier_of_oneInLet htarget hmem hq hc] at hf
      obtain ⟨word, hword⟩ := Clause.fits_list_iff.mp hf
      obtain ⟨_, new, -, -, hlen, -, heq, -⟩ := captures_let_iff.mp hword
      injection heq with _ heq
      injection heq with _ heq
      rw [← heq, List.length_map] at hlen
      exact hlen
    · exact .inr ⟨hk, a, name, body, hbody, rfl⟩
  · obtain ⟨ps, body, hbody, heq⟩ := isFn_of_map hitems (isFn_of_fits hq (hc ▸ hf))
    cases heq
    exact .inl ⟨_, fnEntry_mem_keyed, fits_fnEntry ps hbody
      (fun t ht => hitems t (by simp [ht])) (by simp [hmany])⟩
  · obtain ⟨y, hy, heq⟩ := flat_keyed_source hx hc
    refine .inl ⟨y, hy, ?_⟩
    rw [heq]
    exact fits_flat_of_map hmem hc hitems hf

theorem accepts_convert {t : Tree} (h : (k.source.language n).accepts t = true) :
    (k.target.language n).accepts (k.convert n t) = true :=
  (k.wellTyped n).fits_transform (c := oneForm) (fun _ hb => by cases hb) h

theorem application_ne_ruled : application ≠ k.ruledClause := by
  cases k <;> decide

/-- A form without a rule stays of its kind. -/
theorem kind_of_convert {t : Tree} {e : Entry} (he : (k.source.language n).entryOf? t = some e)
    (hr : e.clause ≠ k.ruledClause) (hlet : ¬ (k = .ifs ∧ BecomesLet t)) :
    (k.target.language n).entryOf? (k.convert n t) = some e := by
  cases t with
  | atom a =>
    rw [convert_atom, entryOf?_atom, ← entryOf?_atom k.source]
    exact he
  | list items =>
    rcases entryOf?_list_cases he with hkeyed | ⟨rfl, hitems, hnone⟩
    · exact kind_of_keyed he hkeyed hr
    have hf := (Language.entryOf?_spec he).2
    have hne := (accepts_of_fits_flat rfl hf).1
    -- An entry that fits only after the pass would take the list away from the application.
    rw [convert_flat he rfl hr]
    apply entryOf?_application (by simpa using hne)
      (List.forall_mem_map.mpr fun t ht => accepts_convert (hitems t ht))
    intro x hx
    rw [Bool.eq_false_iff]
    intro hx'
    rcases keyed_of_map hitems hx hx' with ⟨y, hy, hfy⟩ | hnew
    · rw [hnone y hy] at hfy
      cases hfy
    · exact hlet hnew

/-! ## Lists that become a `let` -/

/-- Before, such a list is an application: bindings come in twos, and there are three items. -/
theorem application_of_becomesLet {t : Tree} (h : BecomesLet t) {e : Entry}
    (he : (Stage.surface.language n).entryOf? t = some e) : e = entry n 12 application false := by
  obtain ⟨a, name, body, hbody, rfl⟩ := h
  have hf := (Language.entryOf?_spec he).2
  have hlets : ((Stage.surface.keyed n).all fun e => !couldFit "let" e.clause ||
      e.clause = letForm) = true := rfl
  rcases entryOf?_list_cases he with hkeyed | ⟨heq, -, -⟩
  · have hkind := List.all_eq_true.mp hlets e hkeyed
    simp only [Bool.or_eq_true, Bool.not_eq_true', decide_eq_true_eq] at hkind
    rcases hkind with hother | hlet
    · rw [fits_eq_false_of_couldFit hother] at hf
      cases hf
    · obtain ⟨word, hword⟩ := Clause.fits_list_iff.mp (hlet ▸ hf)
      obtain ⟨bs, _, -, -, -, -, heq, -⟩ := captures_let_iff.mp hword
      injection heq with _ heq
      injection heq with heq
      injection heq with heq
      have hlen := congrArg List.length heq
      rw [length_bindingItems] at hlen
      simp only [List.length_cons, List.length_nil] at hlen
      omega
  · exact heq

theorem accepts_of_accepts_ifThen {g : Stage} {a b : Tree}
    (h : (g.language n).accepts (.list [.symbol "if", a, b]) = true) :
    (g.language n).accepts a = true := by
  rcases accepts_items_cases h with ⟨d, heq⟩ | ⟨body, -, -, -, heq⟩ | ⟨-, hitems⟩
  · simp at heq
  · simp [fnTree] at heq
  · exact hitems a (by simp)

/-- After, it is a `let`: the `if` with its else reads as two bindings. -/
theorem entryOf?_of_becomesLet {t : Tree} (h : BecomesLet t)
    (he : (Stage.surface.language n).entryOf? t = some (entry n 12 application false)) :
    (Stage.twoArmed.language n).entryOf? (Step.ifs.convert n t) =
      some (entry n 10 letForm false) := by
  obtain ⟨a, name, body, hbody, rfl⟩ := h
  have hitems := (accepts_of_fits_flat rfl (Language.entryOf?_spec he).2).2
  have ha : (Stage.surface.language n).accepts a = true :=
    accepts_of_accepts_ifThen (hitems (.list [.symbol "if", a, .symbol name]) (by simp))
  have hconvert : Step.ifs.convert n
      (.list (.symbol "let" :: .list [.symbol "if", a, .symbol name] :: body)) =
        letTree [("if", Step.ifs.convert n a), (name, .symbol "nil")]
          (body.map (Step.ifs.convert n)) := by
    rw [convert_flat (k := .ifs) he rfl application_ne_ruled, List.map_cons, List.map_cons,
      convert_atom, convert_ifThen (surface_accepts_iff.mp ha) (.atom _), convert_atom]
    rfl
  rw [hconvert]
  apply entryOf?_keyword rfl
  refine fits_letEntry (g := .twoArmed) (by simp) (by simpa using hbody) ?_ ?_ nofun
  · intro b hb
    simp only [List.mem_cons, List.not_mem_nil, or_false] at hb
    rcases hb with rfl | rfl
    · exact accepts_convert (k := .ifs) ha
    · exact accepts_atom _
  · exact List.forall_mem_map.mpr fun t ht =>
      accepts_convert (k := .ifs) (hitems t (by simp [ht]))

end

/-! ## The laws -/

/-- Each pass takes the forms of its source language, and those without a rule in the pass stay
of their kind: the entry that fits first is the same before and after. Only where the pass for
`if` meets a list that becomes a `let` does an application become one. -/
theorem the_passes_keep_the_kind_of_a_form (s : Supply) (p : Pipeline)
    (hp : (compiler.run.run s).1 = .ok p) (pass : Pass) (hpass : pass ∈ p.passes) (t : Tree)
    (e : Entry) (he : pass.source.entryOf? t = some e) (hrule : pass.rules.get? e.id = none) :
    ∃ u, pass.run t = .ok u ∧
      (¬ (pass.name = "remove-one-armed-if" ∧ BecomesLet t) → pass.target.entryOf? u = some e) ∧
      (pass.name = "remove-one-armed-if" ∧ BecomesLet t → e.clause = application ∧
        ∃ e', pass.target.entryOf? u = some e' ∧ e'.clause = letForm ∧ e'.id ≠ e.id) := by
  rw [compiler_run] at hp
  injection hp with hp
  subst hp
  obtain ⟨k, rfl⟩ : ∃ k : Step, pass = k.pass s.created := by
    simp only [pipeline, List.mem_cons, List.not_mem_nil, or_false] at hpass
    rcases hpass with rfl | rfl | rfl
    · exact ⟨.ifs, rfl⟩
    · exact ⟨.lets, rfl⟩
    · exact ⟨.fns, rfl⟩
  have hname : (k.pass s.created).name = "remove-one-armed-if" ↔ k = .ifs := by
    cases k <;> simp [Step.pass, Step.target, Stage.name]
  have hsource : (k.source.language s.created).entryOf? t = some e := he
  have hacc : (k.source.language s.created).accepts t = true := by
    rw [Language.accepts_eq_isSome grounded, hsource]
    rfl
  have hr : e.clause ≠ k.ruledClause := by
    intro hr
    rw [Step.get?_eq (Language.entryOf?_spec hsource).1, if_pos hr] at hrule
    cases hrule
  rw [hname]
  refine ⟨k.convert s.created t, by rw [pass_run_eq, if_pos hacc], ?_, ?_⟩
  · exact kind_of_convert hsource hr
  · rintro ⟨rfl, hlet⟩
    obtain rfl := application_of_becomesLet hlet hsource
    refine ⟨rfl, _, entryOf?_of_becomesLet hlet hsource, rfl, ?_⟩
    intro hid
    injection hid with hid
    exact absurd (eq_of_id_eq (by decide) (by decide) hid) (by decide)

/-- A list that starts like one that becomes a `let`, but for its `if` ending in no name. -/
def almostLet : Tree :=
  .list [.symbol "let", .list [.symbol "if", .symbol "a", .atom (.bool true)],
    .list [.symbol "if", .symbol "b", .symbol "c"]]

theorem the_pass_for_if_leaves_almost_a_let_an_application :
    (Step.ifs.pass 0).source.entryOf? almostLet = some (entry 0 12 application false) ∧
      ∃ u, (Step.ifs.pass 0).run almostLet = .ok u ∧ u ≠ almostLet ∧
        (Step.ifs.pass 0).target.entryOf? u = some (entry 0 12 application false) := by
  have hp : (compiler.run.run ⟨0⟩).1 = .ok (pipeline 0) := by rw [compiler_run]
  have he : (Step.ifs.pass 0).source.entryOf? almostLet =
      some (entry 0 12 application false) := by decide +kernel
  have hlet : ¬ BecomesLet almostLet := by
    rintro ⟨a, name, body, -, heq⟩
    simp [almostLet] at heq
  obtain ⟨u, hu, hkept, -⟩ := the_passes_keep_the_kind_of_a_form ⟨0⟩ (pipeline 0) hp
    (Step.ifs.pass 0) (by simp [pipeline]) almostLet _ he rfl
  refine ⟨he, u, hu, ?_, hkept fun h => hlet h.2⟩
  rintro rfl
  revert hu
  decide +kernel

/-- An `if` without an else where the bindings of a `let` belong. -/
def hiddenLet : Tree :=
  .list [.symbol "let", .list [.symbol "if", .symbol "a", .symbol "b"], .symbol "y"]

theorem the_pass_for_if_makes_a_let_of_an_application :
    (compiler.run.run ⟨0⟩).1 = .ok (pipeline 0) ∧ Step.ifs.pass 0 ∈ (pipeline 0).passes ∧
      ∃ e e' u, (Step.ifs.pass 0).source.entryOf? hiddenLet = some e ∧
        (Step.ifs.pass 0).rules.get? e.id = none ∧ (Step.ifs.pass 0).run hiddenLet = .ok u ∧
        (Step.ifs.pass 0).target.entryOf? u = some e' ∧ e'.id ≠ e.id := by
  refine ⟨by rw [compiler_run], by simp [pipeline], entry 0 12 application false,
    entry 0 10 letForm false,
    letTree [("if", .symbol "a"), ("b", .symbol "nil")] [.symbol "y"], ?_, rfl, ?_, ?_, ?_⟩
  · decide +kernel
  · decide +kernel
  · decide +kernel
  · decide

end TreePasses.Surface
