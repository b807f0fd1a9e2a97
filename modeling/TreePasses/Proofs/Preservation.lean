-- Each pass makes forms of the next stage out of the forms of its own stage. A list of forms
-- stays one, but for a list that starts with `let` and an `if` without an else: once the `if`
-- has its else, it reads as bindings, and the list is a `let`.
import TreePasses.Proofs.Conversion

namespace TreePasses.Surface

section

variable {n : Nat} {k : Step}

/-! ## Items one by one -/

/-- What a tree tells after a pass about the tree before it: an atom was that atom, and a program
was a program. -/
structure Kept (old new : Tree) : Prop where
  atom : ∀ a, new = .atom a → old = .atom a
  program : Program new → Program old

theorem Kept.refl (t : Tree) : Kept t t := ⟨fun _ h => h, fun h => h⟩

theorem kept_map {items : List Tree} (h : ∀ t ∈ items, (k.source.language n).accepts t = true) :
    List.Forall₂ Kept items (items.map (k.convert n)) := by
  refine List.forall₂_map_right_iff.mpr (List.forall₂_same.mpr fun t ht => ⟨?_, ?_⟩)
  · exact fun a => convert_eq_atom_iff.mp
  · exact fun _ => program_of_accepts (h t ht)

theorem exists_transform_bindings (items : List Tree) :
    ∃ new, (k.source.language n).transform (k.pass n).rules (.list items) bindings = .list new := by
  have hrebuild : (k.source.language n).transform (k.pass n).rules (.list items) bindings =
      (k.source.language n).rebuild bindings (.list items)
        ((k.source.language n).transformAll (k.pass n).rules items) := rfl
  rw [hrebuild]
  unfold Language.rebuild
  simp only
  split <;> exact ⟨_, rfl⟩

theorem exists_groupBody (head : Tree) (inner : List Tree) {body : List Tree} (hne : body ≠ []) :
    ∃ one, groupBody (.list (head :: .list inner :: body)) = .list [head, .list inner, one] := by
  obtain ⟨one, hone⟩ := List.length_eq_one_iff.mp (length_wrapBody hne)
  exact ⟨one, by rw [groupBody_eq, hone]⟩

theorem rule_eq_groupBody {keyword : String} (hkeyword : keyword ≠ "if") {body : List Clause}
    (h : headed keyword body = k.ruledClause) : k.rule = groupBody := by
  cases k with
  | ifs => exact absurd (keyword_eq_of_headed_eq h) hkeyword
  | _ => rfl

/-- A form with a list after its keyword has its items kept one by one, or its body becomes one
form. -/
theorem convert_binder_cases {keyword : String} {old inner body : List Tree} {c : Clause}
    {q : Quantifier} {e : Entry} (hkeyword : keyword ≠ "if") (hquote : keyword ≠ "quote")
    (he : (k.source.language n).entryOf? (.list (.symbol keyword :: .list old :: body)) = some e)
    (hc : e.clause = headed keyword [c, .terminal "ε" q])
    (hword : (k.source.language n).captures e.clause (.symbol keyword :: .list old :: body) =
      some (.literal keyword .one :: c :: List.replicate body.length (.terminal "ε" q)))
    (hinner : (k.source.language n).transform (k.pass n).rules (.list old) c = .list inner)
    (hkept : Kept (.list old) (.list inner)) (hne : body ≠ [])
    (forms : ∀ t ∈ body, (k.source.language n).accepts t = true) :
    (∃ new, k.convert n (.list (.symbol keyword :: .list old :: body)) = .list new ∧
        List.Forall₂ Kept (.symbol keyword :: .list old :: body) new) ∨
      ∃ head inner one, k.convert n (.list (.symbol keyword :: .list old :: body)) =
        .list [head, .list inner, one] := by
  have hmem : e ∈ k.source.entries n := (Language.entryOf?_spec he).1
  have hverbatim : e.verbatim = false := by
    apply verbatim_eq_false hmem
    intro hquotation
    exact hquote (keyword_eq_of_headed_eq (hc.symm.trans hquotation))
  have hlist := convert_headed he hverbatim hword hinner
  rw [Step.apply_eq hmem] at hlist
  by_cases hr : e.clause = k.ruledClause
  · rw [if_pos hr, rule_eq_groupBody hkeyword (hc ▸ hr)] at hlist
    have hmap : body.map (k.convert n) ≠ [] := by simpa using hne
    obtain ⟨one, hone⟩ := exists_groupBody (.symbol keyword) inner hmap
    exact .inr ⟨_, _, one, hlist.trans hone⟩
  · rw [if_neg hr] at hlist
    exact .inl ⟨_, hlist, .cons (.refl _) (.cons hkept (kept_map forms))⟩

/-- What becomes of an accepted list: its items are kept one by one, or it is an `if` that gets its
else, or its body becomes one form. -/
theorem convert_list_cases {items : List Tree}
    (h : (k.source.language n).accepts (.list items) = true) :
    (∃ new, k.convert n (.list items) = .list new ∧ List.Forall₂ Kept items new) ∨
      (k = .ifs ∧ ∃ a b, items = [.symbol "if", a, b] ∧ Form .surface a ∧ Form .surface b) ∨
      ∃ head inner one, k.convert n (.list items) = .list [head, .list inner, one] := by
  rw [Language.accepts_eq_isSome grounded] at h
  obtain ⟨e, he⟩ := Option.isSome_iff_exists.mp h
  obtain ⟨hmem, hf⟩ := Language.entryOf?_spec he
  rcases clause_cases hmem with hc | hc | ⟨q, hq, hc⟩ | ⟨q, hq, hc⟩ | hc
  · rw [fits_atomName_list hc] at hf
    cases hf
  · obtain ⟨d, rfl⟩ := isQuote_of_fits (hc ▸ hf)
    exact .inl ⟨_, convert_quoteTree d, List.forall₂_same.mpr fun t _ => .refl t⟩
  · obtain ⟨word, hword⟩ := (Clause.fits_iff_captures (by rw [hc]; rfl)).mp hf
    obtain ⟨bs, body, hbs, values, hallows, forms, rfl, rfl⟩ := captures_let_iff.mp (hc ▸ hword)
    obtain ⟨inner, hinner⟩ := exists_transform_bindings (n := n) (k := k) (bindingItems bs)
    have hkept : Kept (.list (bindingItems bs)) (.list inner) :=
      ⟨nofun, fun _ => program_bindingItems hbs fun b hb => program_of_accepts (values b hb)⟩
    exact (convert_binder_cases (by decide) (by decide) he hc hword hinner hkept
      (ne_nil_of_allows hq hallows) forms).imp_right .inr
  · obtain ⟨word, hword⟩ := (Clause.fits_iff_captures (by rw [hc]; rfl)).mp hf
    obtain ⟨ps, body, hallows, forms, rfl, rfl⟩ := captures_fn_iff.mp (hc ▸ hword)
    exact (convert_binder_cases (by decide) (by decide) he hc hword (transform_parameters ps)
      (.refl _) (ne_nil_of_allows hq hallows) forms).imp_right .inr
  · by_cases hr : e.clause = k.ruledClause
    · have hk := eq_ifs_of_ruled_flat hc hr
      subst hk
      obtain ⟨word, hword⟩ := (Clause.fits_iff_captures (isList_of_isFlat hc)).mp hf
      obtain ⟨a, b, ha, hb, rfl, -⟩ := captures_ifThen_iff.mp (hr ▸ hword)
      exact .inr (.inl ⟨rfl, a, b, rfl, surface_accepts_iff.mp ha, surface_accepts_iff.mp hb⟩)
    · exact .inl ⟨_, convert_flat he hc hr, kept_map (accepts_of_fits_flat hc hf).2⟩

/-! ## What reads as bindings or as parameters -/

theorem length_bindingItems (bs : List (String × Tree)) :
    (bindingItems bs).length = 2 * bs.length := by
  induction bs with
  | nil => rfl
  | cons b bs ih =>
    rw [bindingItems_cons, List.length_cons, List.length_cons, ih, List.length_cons]
    omega

theorem bindings_of_kept {items : List Tree} {bs : List (String × Tree)}
    (h : List.Forall₂ Kept items (bindingItems bs)) (values : ∀ b ∈ bs, Program b.2) :
    ∃ old, old.length = bs.length ∧ items = bindingItems old ∧ ∀ b ∈ old, Program b.2 := by
  induction bs generalizing items with
  | nil =>
    cases h
    exact ⟨[], rfl, rfl, by simp⟩
  | cons b bs ih =>
    obtain ⟨hvalue, hvalues⟩ := List.forall_mem_cons.mp values
    rw [bindingItems_cons] at h
    obtain ⟨t, tail, hname, htail, rfl⟩ := List.forall₂_cons_right_iff.mp h
    obtain ⟨v, rest, hv, hrest, rfl⟩ := List.forall₂_cons_right_iff.mp htail
    obtain ⟨old, hlen, rfl, hold⟩ := ih hrest hvalues
    refine ⟨(b.1, v) :: old, by simp [hlen], ?_,
      List.forall_mem_cons.mpr ⟨hv.program hvalue, hold⟩⟩
    rw [hname.atom _ rfl, bindingItems_cons]

theorem symbols_of_kept {items : List Tree} {ps : List String}
    (h : List.Forall₂ Kept items (ps.map Tree.symbol)) : items = ps.map Tree.symbol := by
  induction ps generalizing items with
  | nil =>
    cases h
    rfl
  | cons p ps ih =>
    obtain ⟨t, rest, hname, hrest, rfl⟩ := List.forall₂_cons_right_iff.mp h
    rw [hname.atom _ rfl, ih hrest, List.map_cons]

/-- Only bindings become bindings, and an `if` without an else that ends in a symbol. -/
theorem bindings_of_convert {t : Tree} (h : (k.source.language n).accepts t = true)
    {bs : List (String × Tree)} (hbs : bs ≠ []) (values : ∀ b ∈ bs, Program b.2)
    (heq : k.convert n t = .list (bindingItems bs)) :
    (∃ old, old ≠ [] ∧ (∀ b ∈ old, Program b.2) ∧ t = .list (bindingItems old)) ∨
      (k = .ifs ∧ ∃ a name, t = .list [.symbol "if", a, .symbol name]) := by
  cases t with
  | atom a =>
    rw [convert_atom] at heq
    cases heq
  | list items =>
    rcases convert_list_cases h with ⟨new, hnew, hkept⟩ | ⟨rfl, a, b, rfl, ha, hb⟩ |
      ⟨head, inner, one, hnew⟩
    · rw [hnew] at heq
      injection heq with heq
      subst heq
      obtain ⟨old, hlen, rfl, hold⟩ := bindings_of_kept hkept values
      refine .inl ⟨old, ?_, hold, rfl⟩
      rintro rfl
      exact hbs (List.length_eq_zero_iff.mp hlen.symm)
    · rw [convert_ifThen ha hb] at heq
      injection heq with heq
      match bs, heq with
      | [_], heq => simp at heq
      | _ :: second :: _, heq =>
        simp only [bindingItems_cons, List.cons.injEq] at heq
        obtain ⟨-, -, hname, -⟩ := heq
        exact .inr ⟨rfl, a, second.1, by rw [convert_eq_atom_iff.mp hname]⟩
    · rw [hnew] at heq
      injection heq with heq
      have hlen := congrArg List.length heq
      rw [length_bindingItems] at hlen
      simp only [List.length_cons, List.length_nil] at hlen
      omega

/-- Only parameters become parameters. -/
theorem symbols_of_convert {t : Tree} (h : (k.source.language n).accepts t = true)
    {ps : List String} (heq : k.convert n t = .list (ps.map Tree.symbol)) :
    ∃ old : List String, t = .list (old.map Tree.symbol) := by
  cases t with
  | atom a =>
    rw [convert_atom] at heq
    cases heq
  | list items =>
    rcases convert_list_cases h with ⟨new, hnew, hkept⟩ | ⟨rfl, a, b, rfl, ha, hb⟩ |
      ⟨head, inner, one, hnew⟩
    · rw [hnew] at heq
      injection heq with heq
      subst heq
      exact ⟨ps, by rw [symbols_of_kept hkept]⟩
    · rw [convert_ifThen ha hb] at heq
      injection heq with heq
      have hall := all_symbols_iff.mpr ⟨ps, heq⟩
      obtain ⟨x, hx⟩ := hall (Step.ifs.convert n a) (by simp)
      obtain ⟨y, hy⟩ := hall (Step.ifs.convert n b) (by simp)
      exact ⟨["if", x, y], by rw [convert_eq_atom_iff.mp hx, convert_eq_atom_iff.mp hy]; rfl⟩
    · rw [hnew] at heq
      injection heq with heq
      obtain ⟨name, hname⟩ := all_symbols_iff.mpr ⟨ps, heq⟩ (.list inner) (by simp)
      cases hname

/-! ## Lists of one kind after and before -/

theorem isQuote_of_map {items : List Tree} (h : IsQuote (items.map (k.convert n))) :
    IsQuote items := by
  obtain ⟨d, h⟩ := h
  obtain ⟨t, rest, rfl, ht, h⟩ := List.map_eq_cons_iff.mp h
  obtain ⟨d, rest, rfl, -, h⟩ := List.map_eq_cons_iff.mp h
  rw [List.map_eq_nil_iff.mp h, convert_eq_atom_iff.mp ht]
  exact ⟨d, rfl⟩

theorem isIfThen_of_map {items : List Tree} (h : IsIfThen (items.map (k.convert n))) :
    IsIfThen items := by
  obtain ⟨a, b, h⟩ := h
  obtain ⟨t, rest, rfl, ht, h⟩ := List.map_eq_cons_iff.mp h
  obtain ⟨a, rest, rfl, -, h⟩ := List.map_eq_cons_iff.mp h
  obtain ⟨b, rest, rfl, -, h⟩ := List.map_eq_cons_iff.mp h
  rw [List.map_eq_nil_iff.mp h, convert_eq_atom_iff.mp ht]
  exact ⟨a, b, rfl⟩

theorem isFn_of_map {items : List Tree} (h : ∀ t ∈ items, (k.source.language n).accepts t = true)
    (hfn : IsFn (items.map (k.convert n))) : IsFn items := by
  obtain ⟨ps, body, hbody, heq⟩ := hfn
  injection heq with heq
  obtain ⟨t, rest, rfl, ht, heq⟩ := List.map_eq_cons_iff.mp heq
  obtain ⟨u, rest, rfl, hu, rfl⟩ := List.map_eq_cons_iff.mp heq
  obtain ⟨old, rfl⟩ := symbols_of_convert (h u (by simp)) hu
  exact ⟨old, rest, by simpa using hbody, by rw [convert_eq_atom_iff.mp ht]; rfl⟩

theorem isLet_of_map {items : List Tree} (h : ∀ t ∈ items, (k.source.language n).accepts t = true)
    (hlet : IsLet (items.map (k.convert n))) :
    IsLet items ∨ (k = .ifs ∧ ∃ a name body, body ≠ [] ∧
      items = .symbol "let" :: .list [.symbol "if", a, .symbol name] :: body) := by
  obtain ⟨bs, body, hbs, values, hbody, heq⟩ := hlet
  injection heq with heq
  obtain ⟨t, rest, rfl, ht, heq⟩ := List.map_eq_cons_iff.mp heq
  obtain ⟨u, rest, rfl, hu, rfl⟩ := List.map_eq_cons_iff.mp heq
  rw [convert_eq_atom_iff.mp ht]
  have hrest : rest ≠ [] := by simpa using hbody
  rcases bindings_of_convert (h u (by simp)) hbs values hu with
    ⟨old, hne, hold, rfl⟩ | ⟨hk, a, name, rfl⟩
  · exact .inl ⟨old, rest, hne, hold, hrest, rfl⟩
  · exact .inr ⟨hk, a, name, rest, hrest, rfl⟩

/-- A list of forms of no other kind stays one, unless it starts with `let`. -/
theorem Plain.map {items : List Tree} (hplain : Plain items)
    (forms : ∀ t ∈ items, Form k.source t) (hhead : k = .ifs → items.head? ≠ some (.symbol "let")) :
    Plain (items.map (k.convert n)) where
  not_quote := by
    intro h
    exact hplain.not_quote (isQuote_of_map h)
  not_fn := by
    intro h
    exact hplain.not_fn (isFn_of_map (fun t ht => (forms t ht).accepts) h)
  not_let := by
    intro h
    rcases isLet_of_map (fun t ht => (forms t ht).accepts) h with h | ⟨hk, a, name, body, -, rfl⟩
    · exact hplain.not_let h
    · exact hhead hk rfl

/-- A list that starts with another symbol than a keyword for a kind of its own is of no such
kind. -/
theorem plain_of_head {name : String} (h : name ∉ ["quote", "let", "fn"]) (rest : List Tree) :
    Plain (.symbol name :: rest) := by
  refine ⟨?_, ?_, ?_⟩
  · rintro ⟨d, heq⟩
    cases heq
    simp at h
  · rintro ⟨bs, body, -, -, -, heq⟩
    cases heq
    simp at h
  · rintro ⟨ps, body, -, heq⟩
    cases heq
    simp at h

/-! ## Forms of the next stage -/

/-- The items of such a list are forms. -/
theorem Form.of_head {g : Stage} {name : String} (hname : name ∉ ["quote", "let", "fn"])
    {rest : List Tree} (h : Form g (.list (.symbol name :: rest))) : ∀ t ∈ rest, Form g t := by
  generalize ht : Tree.list (.symbol name :: rest) = t at h
  cases h with
  | atom a => cases ht
  | quoted d =>
    cases ht
    simp at hname
  | letForm _ _ _ _ _ =>
    cases ht
    simp at hname
  | fnForm _ _ _ =>
    cases ht
    simp at hname
  | plain _ forms _ _ =>
    cases ht
    exact fun t ht => forms t (List.mem_cons_of_mem _ ht)

theorem Form.doForm {g : Stage} {body : List Tree} (forms : ∀ t ∈ body, Form g t) :
    Form g (.list (.symbol "do" :: body)) := by
  apply Form.plain (by simp) (List.forall_mem_cons.mpr ⟨.atom _, forms⟩)
    (plain_of_head (by decide) _)
  rintro - ⟨a, b, heq⟩
  simp at heq

theorem forms_convertBody {g : Stage} {wraps : Bool} {body : List Tree}
    (forms : ∀ t ∈ body, Form g (k.convert n t)) : ∀ t ∈ convertBody n k wraps body, Form g t := by
  have hmap : ∀ t ∈ body.map (k.convert n), Form g t := List.forall_mem_map.mpr forms
  intro t ht
  cases wraps with
  | false => exact hmap t ht
  | true =>
    rcases mem_wrapBody ht with ht | rfl
    · exact hmap t ht
    · exact .doForm hmap

theorem length_convertBody {wraps : Bool} {body : List Tree} (hne : body ≠ [])
    (h : wraps = false → body.length = 1) : (convertBody n k wraps body).length = 1 := by
  cases wraps with
  | false => simpa [convertBody] using h rfl
  | true => exact length_wrapBody (by simpa using hne)

theorem convertBody_ne_nil {wraps : Bool} {body : List Tree} (hne : body ≠ []) :
    convertBody n k wraps body ≠ [] := by
  cases wraps with
  | false => simpa [convertBody] using hne
  | true => exact wrapBody_ne_nil (by simpa using hne)

/-- Once the `if` that starts it has its else, a list that starts with `let` is a form of the next
stage, be it as a `let`. -/
theorem Form.of_new_let {a b : Tree} {body : List Tree}
    (hif : Form .surface (.list [.symbol "if", a, b]))
    (hnew : Form .twoArmed (Step.ifs.convert n (.list [.symbol "if", a, b])))
    (forms : ∀ t ∈ body, Form .twoArmed t)
    (hlet : IsLet (.symbol "let" :: Step.ifs.convert n (.list [.symbol "if", a, b]) :: body)) :
    Form .twoArmed
      (.list (.symbol "let" :: Step.ifs.convert n (.list [.symbol "if", a, b]) :: body)) := by
  have hparts := hif.of_head (by decide)
  rw [convert_ifThen (hparts a (by simp)) (hparts b (by simp))] at hnew hlet ⊢
  obtain ⟨bs, body, hbs, -, hbody, heq⟩ := hlet
  rw [heq]
  injection heq with heq
  injection heq with _ heq
  injection heq with hitems heq
  injection hitems with hitems
  subst heq
  apply Form.letForm hbs hbody _ forms nofun
  intro b hb
  have hmem := mem_bindingItems.mpr ⟨b, hb, .inr rfl⟩
  rw [← hitems] at hmem
  rcases List.mem_cons.mp hmem with hhead | hrest
  · rw [hhead]
    exact .atom _
  · exact hnew.of_head (by decide) _ hrest

/-- A pass makes forms of the next stage. -/
theorem Form.convert {t : Tree} (h : Form k.source t) : Form k.target (k.convert n t) := by
  induction h with
  | atom a =>
    rw [convert_atom]
    exact .atom a
  | quoted d =>
    rw [convert_quoteTree]
    exact .quoted d
  | letForm hbs hbody values forms single ihv ihf =>
    rw [convert_letTree hbs hbody values forms single]
    apply Form.letForm (by simpa [convertBindings] using hbs) (convertBody_ne_nil hbody)
      (List.forall_mem_map.mpr ihv) (forms_convertBody ihf)
    intro hone
    apply length_convertBody hbody
    intro hk
    apply single
    cases k <;> simp_all [Step.target, Step.source, Stage.oneInLet]
  | fnForm hbody forms single ihf =>
    rw [convert_fnTree hbody forms single]
    apply Form.fnForm (convertBody_ne_nil hbody) (forms_convertBody ihf)
    intro hone
    apply length_convertBody hbody
    intro hk
    apply single
    cases k <;> simp_all [Step.target, Step.source, Stage.oneInFn]
  | @plain items hne forms hplain hif ihf =>
    by_cases hifs : k = .ifs ∧ IsIfThen items
    · obtain ⟨rfl, a, b, rfl⟩ := hifs
      rw [convert_ifThen (forms a (by simp)) (forms b (by simp))]
      refine .plain (by simp) ?_ (plain_of_head (by decide) _) ?_
      · simp [ihf, Form.atom]
      · rintro - ⟨a, b, heq⟩
        simp at heq
    rw [convert_plain hne forms hplain fun hk hi => hifs ⟨hk, hi⟩]
    have accepted : ∀ t ∈ items, (k.source.language n).accepts t = true :=
      fun t ht => (forms t ht).accepts
    by_cases hlet : IsLet (items.map (k.convert n))
    · -- The list is a `let` only now: its `if` had no else before.
      rcases isLet_of_map accepted hlet with hold | ⟨rfl, a, name, body, -, rfl⟩
      · exact absurd hold hplain.not_let
      · rw [List.map_cons, List.map_cons, convert_atom] at hlet ⊢
        exact .of_new_let (forms _ (by simp)) (ihf _ (by simp))
          (List.forall_mem_map.mpr fun t ht => ihf t (by simp [ht])) hlet
    · have hquote : ¬ IsQuote (items.map (k.convert n)) := by
        intro h
        exact hplain.not_quote (isQuote_of_map h)
      have hfn : ¬ IsFn (items.map (k.convert n)) := by
        intro h
        exact hplain.not_fn (isFn_of_map accepted h)
      apply Form.plain (by simpa using hne) (List.forall_mem_map.mpr ihf) ⟨hquote, hlet, hfn⟩
      intro _ hi
      by_cases hk : k = .ifs
      · exact hifs ⟨hk, isIfThen_of_map hi⟩
      · exact hif (by cases k <;> simp_all [Step.source]) (isIfThen_of_map hi)

end

end TreePasses.Surface
