-- Where forms stand in each form of the surface language and of the languages after it, and that
-- each of them is a form of the same stage.
import TreePasses.Proofs.Conversion
import TreePasses.Proofs.Positions

namespace TreePasses.Surface

section

variable {n : Nat} {g : Stage}

/-! ## Inside each clause -/

theorem formsIn_form (q : Quantifier) (t : Tree) :
    (g.language n).formsIn t (.terminal "ε" q) = (g.language n).positions t :=
  Language.formsIn_expression rfl q t

theorem formsIn_name (q : Quantifier) (t : Tree) :
    (g.language n).formsIn t (.terminal "s" q) = [] :=
  Language.formsIn_terminal (fun h => by cases h) q t

theorem formsIn_datum (q : Quantifier) (t : Tree) :
    (g.language n).formsIn t (.terminal "d" q) = [] :=
  Language.formsIn_terminal (fun h => by cases h) q t

theorem formsInAll_forms (q : Quantifier) (items : List Tree) :
    (g.language n).formsInAll items (List.replicate items.length (.terminal "ε" q)) =
      items.flatMap (g.language n).positions := by
  rw [Language.formsInAll_replicate]
  simp only [formsIn_form]

theorem formsInAll_bindings (bs : List (String × Tree)) :
    (g.language n).formsInAll (bindingItems bs) (bindingWord bs.length) =
      bs.flatMap fun b => (g.language n).positions b.2 := by
  induction bs with
  | nil => rfl
  | cons b bs ih =>
    have hword : bindingWord (bs.length + 1) =
        .terminal "s" .one :: .terminal "ε" .one :: bindingWord bs.length := rfl
    rw [List.length_cons, hword, bindingItems_cons, Language.formsInAll, Language.formsInAll,
      formsIn_name, formsIn_form, ih]
    rfl

theorem formsIn_bindings {bs : List (String × Tree)} (hbs : bs ≠ [])
    (values : ∀ b ∈ bs, Form g b.2) :
    (g.language n).formsIn (.list (bindingItems bs)) bindings =
      bs.flatMap fun b => (g.language n).positions b.2 := by
  have hword := captures_bindings (n := n) hbs values
  unfold bindings at hword ⊢
  rw [Language.formsIn_list hword, formsInAll_bindings]

theorem formsIn_parameters (ps : List String) :
    (g.language n).formsIn (.list (ps.map Tree.symbol)) parameters = [] := by
  have hword := captures_parameters (n := n) (g := g) ps
  unfold parameters at hword ⊢
  rw [Language.formsIn_list hword, Language.formsInAll_replicate]
  simp [formsIn_name]

/-! ## The positions of each form -/

theorem positions_quoteTree (d : Tree) :
    (g.language n).positions (quoteTree d) = [quoteTree d] := by
  unfold quoteTree
  rw [Language.positions_list (entryOf?_quoteTree d) (captures_quotation d), Language.formsInAll,
    Language.formsInAll, Language.formsIn_literal, formsIn_datum]
  rfl

theorem positions_letTree {bs : List (String × Tree)} {body : List Tree} (hbs : bs ≠ [])
    (hbody : body ≠ []) (values : ∀ b ∈ bs, Form g b.2) (forms : ∀ t ∈ body, Form g t)
    (single : g.oneInLet = true → body.length = 1) :
    (g.language n).positions (letTree bs body) = letTree bs body ::
      ((bs.flatMap fun b => (g.language n).positions b.2) ++
        body.flatMap (g.language n).positions) := by
  have hword := captures_letTree (n := n) hbs hbody values forms single
  unfold letTree
  rw [Language.positions_list (entryOf?_letTree hbs hbody values forms single) hword,
    Language.formsInAll, Language.formsInAll, Language.formsIn_literal, formsIn_bindings hbs values,
    formsInAll_forms]
  rfl

theorem positions_fnTree {ps : List String} {body : List Tree} (hbody : body ≠ [])
    (forms : ∀ t ∈ body, Form g t) (single : g.oneInFn = true → body.length = 1) :
    (g.language n).positions (fnTree ps body) =
      fnTree ps body :: body.flatMap (g.language n).positions := by
  have hword := captures_fnTree (n := n) ps hbody forms single
  unfold fnTree
  rw [Language.positions_list (entryOf?_fnTree hbody forms single) hword,
    Language.formsInAll, Language.formsInAll, Language.formsIn_literal, formsIn_parameters,
    formsInAll_forms]
  rfl

theorem exists_of_mem_formsInAll {word : List Clause} {items : List Tree}
    (h : List.Forall₂ (FlatItem (g.language n).accepts) word items) {x : Tree}
    (hx : x ∈ (g.language n).formsInAll items word) :
    ∃ t ∈ items, x ∈ (g.language n).positions t := by
  induction h with
  | nil => cases hx
  | @cons c t word items hitem _ ih =>
    rw [Language.formsInAll] at hx
    rcases List.mem_append.mp hx with hx | hx
    · rcases hitem with ⟨q, rfl, -⟩ | ⟨-, ⟨keyword, q, rfl⟩ | ⟨q, rfl⟩⟩
      · rw [formsIn_form] at hx
        exact ⟨t, List.mem_cons_self, hx⟩
      · rw [Language.formsIn_literal] at hx
        cases hx
      · rw [formsIn_name] at hx
        cases hx
    · obtain ⟨u, hu, hx⟩ := ih hx
      exact ⟨u, List.mem_cons_of_mem _ hu, hx⟩

theorem mem_formsInAll_of_mem {word : List Clause} {items : List Tree}
    (h : List.Forall₂ (FlatItem (g.language n).accepts) word items) {t x : Tree} (ht : t ∈ items)
    (hx : x ∈ (g.language n).positions t) :
    x ∈ (g.language n).formsInAll items word ∨ ∃ a, x = .atom a := by
  induction h with
  | nil => cases ht
  | @cons c u word items hitem _ ih =>
    rw [Language.formsInAll, List.mem_append]
    rcases List.mem_cons.mp ht with rfl | ht
    · rcases hitem with ⟨q, rfl, -⟩ | ⟨⟨name, rfl⟩, -⟩
      · rw [formsIn_form]
        exact .inl (.inl hx)
      · rw [Language.positions_atom] at hx
        exact .inr ⟨_, List.mem_singleton.mp hx⟩
    · exact (ih ht).imp_left .inr

theorem positions_plain {items : List Tree} (hne : items ≠ []) (forms : ∀ t ∈ items, Form g t)
    (hplain : Plain items) :
    ∃ word, List.Forall₂ (FlatItem (g.language n).accepts) word items ∧
      (g.language n).positions (.list items) =
        .list items :: (g.language n).formsInAll items word := by
  obtain ⟨e, word, he, -, hflat, hword⟩ := entryOf?_plain (n := n) hne forms hplain
  exact ⟨word, (captures_flat hflat hword).2, Language.positions_list he hword⟩

/-- Whatever stands in a form is a form. -/
theorem Form.of_mem_positions {t : Tree} (h : Form g t) :
    ∀ x ∈ (g.language n).positions t, Form g x := by
  induction h with
  | atom a =>
    rw [Language.positions_atom]
    simp [Form.atom]
  | quoted d =>
    rw [positions_quoteTree]
    simp [Form.quoted]
  | letForm hbs hbody values forms single ihv ihf =>
    rw [positions_letTree hbs hbody values forms single]
    simp only [List.mem_cons, List.mem_append, List.mem_flatMap]
    rintro x (rfl | ⟨b, hb, hx⟩ | ⟨t, ht, hx⟩)
    · exact .letForm hbs hbody values forms single
    · exact ihv b hb x hx
    · exact ihf t ht x hx
  | fnForm hbody forms single ihf =>
    rw [positions_fnTree hbody forms single]
    simp only [List.mem_cons, List.mem_flatMap]
    rintro x (rfl | ⟨t, ht, hx⟩)
    · exact .fnForm hbody forms single
    · exact ihf t ht x hx
  | plain hne forms hplain hif ihf =>
    obtain ⟨word, hflat, hpositions⟩ := positions_plain (n := n) hne forms hplain
    rw [hpositions]
    intro x hx
    rcases List.mem_cons.mp hx with rfl | hx
    · exact .plain hne forms hplain hif
    · obtain ⟨t, ht, hx⟩ := exists_of_mem_formsInAll hflat hx
      exact ihf t ht x hx

end

end TreePasses.Surface
