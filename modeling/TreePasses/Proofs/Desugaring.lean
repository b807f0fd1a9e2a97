-- The laws of what the compiler gives: it is what one walk over the program gives, which treats
-- each form by its kind in the surface language, unless a list that starts with `let` is no `let`
-- there; and whatever the program, none of the forms that the passes are for is left, so compiling
-- once more changes nothing.
import TreePasses.Proofs.Preservation
import TreePasses.Proofs.SurfacePositions

namespace TreePasses.Surface

/-! ## All passes in a row -/

/-- What the passes make of a form, one after the other. -/
def compiled (n : Nat) (t : Tree) : Tree :=
  Step.fns.convert n (Step.lets.convert n (Step.ifs.convert n t))

section

variable {n : Nat}

theorem form_compiled {t : Tree} (h : Form .surface t) : Form .singleFn (compiled n t) :=
  ((h.convert (k := .ifs)).convert (k := .lets)).convert (k := .fns)

/-- The compiler takes what the surface language accepts, and no later check fails. -/
theorem pipeline_run_eq (n : Nat) (t : Tree) : (pipeline n).run t =
    if (Stage.surface.language n).accepts t then .ok (compiled n t)
    else .error (.inputMismatch "remove-one-armed-if" t) := by
  have hpasses : (pipeline n).passes = [Step.ifs.pass n, Step.lets.pass n, Step.fns.pass n] := rfl
  unfold Pipeline.run Pipeline.checkOutput
  simp only [hpasses, List.foldlM_cons, List.foldlM_nil]
  cases hacc : (Stage.surface.language n).accepts t with
  | false =>
    have hifs : (Step.ifs.pass n).run t = .error (.inputMismatch "remove-one-armed-if" t) := by
      rw [pass_run_eq]
      exact if_neg (by simp [Step.source, hacc])
    rw [hifs]
    rfl
  | true =>
    have hform : Form .surface t := surface_accepts_iff.mp hacc
    have hifs : (Step.ifs.pass n).run t = .ok (Step.ifs.convert n t) := by
      rw [pass_run_eq]
      exact if_pos hacc
    have hlets : (Step.lets.pass n).run (Step.ifs.convert n t) =
        .ok (Step.lets.convert n (Step.ifs.convert n t)) := by
      rw [pass_run_eq]
      exact if_pos (hform.convert (k := .ifs)).accepts
    have hfns : (Step.fns.pass n).run (Step.lets.convert n (Step.ifs.convert n t)) =
        .ok (compiled n t) := by
      rw [pass_run_eq]
      exact if_pos ((hform.convert (k := .ifs)).convert (k := .lets)).accepts
    have hout : (Stage.singleFn.language n).accepts (compiled n t) = true :=
      (form_compiled hform).accepts
    rw [hifs]
    simp only [bind, Except.bind, hlets, hfns]
    exact if_pos hout

/-! ## The passes on each form -/

theorem convert_head {k : Step} {name : String} (hname : name ∉ ["quote", "let", "fn"])
    {rest : List Tree} (forms : ∀ t ∈ rest, Form k.source t)
    (hif : k = .ifs → ¬ IsIfThen (.symbol name :: rest)) :
    k.convert n (.list (.symbol name :: rest)) =
      .list (.symbol name :: rest.map (k.convert n)) := by
  rw [convert_plain (by simp) (List.forall_mem_cons.mpr ⟨.atom _, forms⟩) (plain_of_head hname _)
    hif, List.map_cons, convert_atom]

/-- A body made one form is converted form by form. -/
theorem map_wrapBody {k : Step} {body : List Tree} (forms : ∀ t ∈ body, Form k.source t) :
    (wrapBody body).map (k.convert n) = wrapBody (body.map (k.convert n)) := by
  match body with
  | [] => rfl
  | [_] => rfl
  | first :: second :: rest =>
    rw [wrapBody, List.map_singleton,
      convert_head (by decide) forms fun _ ⟨_, _, heq⟩ => by simp at heq]
    rfl

theorem forms_map {k : Step} {items : List Tree} (forms : ∀ t ∈ items, Form k.source t) :
    ∀ t ∈ items.map (k.convert n), Form k.target t :=
  List.forall_mem_map.mpr fun t ht => (forms t ht).convert

theorem forms_convertBindings {k : Step} {bs : List (String × Tree)}
    (values : ∀ b ∈ bs, Form k.source b.2) : ∀ b ∈ convertBindings n k bs, Form k.target b.2 :=
  List.forall_mem_map.mpr fun b hb => (values b hb).convert

theorem compiled_letTree {bs : List (String × Tree)} {body : List Tree} (hbs : bs ≠ [])
    (hbody : body ≠ []) (values : ∀ b ∈ bs, Form .surface b.2)
    (forms : ∀ t ∈ body, Form .surface t) :
    compiled n (letTree bs body) =
      letTree (bs.map fun b => (b.1, compiled n b.2)) (wrapBody (body.map (compiled n))) := by
  have values₁ := forms_convertBindings (n := n) (k := .ifs) values
  have forms₁ := forms_map (n := n) (k := .ifs) forms
  have hbs₁ : convertBindings n .ifs bs ≠ [] := by simpa [convertBindings] using hbs
  have hbody₁ : body.map (Step.ifs.convert n) ≠ [] := by simpa using hbody
  have values₂ := forms_convertBindings (n := n) (k := .lets) values₁
  have forms₂ := forms_map (n := n) (k := .lets) forms₁
  have hbs₂ : convertBindings n .lets (convertBindings n .ifs bs) ≠ [] := by
    simpa [convertBindings] using hbs
  have hbody₂ : (body.map (Step.ifs.convert n)).map (Step.lets.convert n) ≠ [] := by
    simpa using hbody
  have hwrapped : ∀ t ∈ convertBody n .lets true (body.map (Step.ifs.convert n)),
      Form .singleLet t := forms_convertBody fun t ht => (forms₁ t ht).convert (k := .lets)
  have hifs : Step.ifs.convert n (letTree bs body) = letTree (convertBindings n .ifs bs)
      (body.map (Step.ifs.convert n)) :=
    convert_letTree hbs hbody values forms fun h => by cases h
  have hlets : Step.lets.convert n
      (letTree (convertBindings n .ifs bs) (body.map (Step.ifs.convert n))) =
        letTree (convertBindings n .lets (convertBindings n .ifs bs))
          (wrapBody ((body.map (Step.ifs.convert n)).map (Step.lets.convert n))) :=
    convert_letTree hbs₁ hbody₁ values₁ forms₁ fun h => by cases h
  have hfns : Step.fns.convert n
      (letTree (convertBindings n .lets (convertBindings n .ifs bs))
        (wrapBody ((body.map (Step.ifs.convert n)).map (Step.lets.convert n)))) =
      letTree (convertBindings n .fns (convertBindings n .lets (convertBindings n .ifs bs)))
        ((wrapBody ((body.map (Step.ifs.convert n)).map (Step.lets.convert n))).map
          (Step.fns.convert n)) :=
    convert_letTree hbs₂ (wrapBody_ne_nil hbody₂) values₂ hwrapped fun _ => length_wrapBody hbody₂
  unfold compiled
  rw [hifs, hlets, hfns, map_wrapBody forms₂]
  simp only [convertBindings, List.map_map, Function.comp_def]

theorem compiled_fnTree {ps : List String} {body : List Tree} (hbody : body ≠ [])
    (forms : ∀ t ∈ body, Form .surface t) :
    compiled n (fnTree ps body) = fnTree ps (wrapBody (body.map (compiled n))) := by
  have forms₁ := forms_map (n := n) (k := .ifs) forms
  have forms₂ := forms_map (n := n) (k := .lets) forms₁
  have hifs : Step.ifs.convert n (fnTree ps body) = fnTree ps (body.map (Step.ifs.convert n)) :=
    convert_fnTree hbody forms fun h => by cases h
  have hlets : Step.lets.convert n (fnTree ps (body.map (Step.ifs.convert n))) =
      fnTree ps ((body.map (Step.ifs.convert n)).map (Step.lets.convert n)) :=
    convert_fnTree (by simpa using hbody) forms₁ fun h => by cases h
  have hfns : Step.fns.convert n
      (fnTree ps ((body.map (Step.ifs.convert n)).map (Step.lets.convert n))) =
      fnTree ps (wrapBody (((body.map (Step.ifs.convert n)).map (Step.lets.convert n)).map
        (Step.fns.convert n))) :=
    convert_fnTree (by simpa using hbody) forms₂ fun h => by cases h
  unfold compiled
  rw [hifs, hlets, hfns, List.map_map, List.map_map]
  rfl

theorem compiled_ifThen {a b : Tree} (ha : Form .surface a) (hb : Form .surface b) :
    compiled n (.list [.symbol "if", a, b]) =
      .list [.symbol "if", compiled n a, compiled n b, .symbol "nil"] := by
  have forms₁ : ∀ t ∈ [Step.ifs.convert n a, Step.ifs.convert n b, .symbol "nil"],
      Form .twoArmed t :=
    List.forall_mem_cons.mpr ⟨ha.convert (k := .ifs),
      List.forall_mem_cons.mpr ⟨hb.convert (k := .ifs), by simp [Form.atom]⟩⟩
  have forms₂ := forms_map (n := n) (k := .lets) forms₁
  unfold compiled
  rw [convert_ifThen ha hb, convert_head (k := .lets) (by decide) forms₁ (fun h => by cases h),
    convert_head (k := .fns) (by decide) forms₂ (fun h => by cases h)]
  simp [convert_atom]

theorem compiled_plain {items : List Tree} (hne : items ≠ [])
    (forms : ∀ t ∈ items, Form .surface t) (hplain : Plain items) (hif : ¬ IsIfThen items)
    (hhead : items.head? ≠ some (.symbol "let")) :
    compiled n (.list items) = .list (items.map (compiled n)) := by
  have forms₁ := forms_map (n := n) (k := .ifs) forms
  have hplain₁ := hplain.map (n := n) (k := .ifs) forms fun _ => hhead
  have forms₂ := forms_map (n := n) (k := .lets) forms₁
  have hplain₂ := hplain₁.map (n := n) (k := .lets) forms₁ (fun h => by cases h)
  unfold compiled
  rw [convert_plain (k := .ifs) hne forms hplain fun _ => hif,
    convert_plain (k := .lets) (by simpa using hne) forms₁ hplain₁ (fun h => by cases h),
    convert_plain (k := .fns) (by simpa using hne) forms₂ hplain₂ (fun h => by cases h),
    List.map_map, List.map_map]
  rfl

end

/-! ## The walk -/

/-- The first clause of a language that fits a tree. -/
def kindIn (l : Language) (t : Tree) : Option Clause := (l.entryOf? t).map (·.clause)

mutual

/-- A program without the forms that can be written with others, each form taken by its kind. -/
def desugar (l : Language) : Tree → Tree
  | .atom a => .atom a
  | .list items =>
    if kindIn l (.list items) = some quotation then .list items
    else if kindIn l (.list items) = some ifThen then
      .list (desugarAll l items ++ [.symbol "nil"])
    else if kindIn l (.list items) = some letForm then .list (desugarLet l items)
    else if kindIn l (.list items) = some fnForm then .list (desugarFn l items)
    else .list (desugarAll l items)
termination_by structural t => t

def desugarAll (l : Language) : List Tree → List Tree
  | [] => []
  | t :: ts => desugar l t :: desugarAll l ts
termination_by structural ts => ts

/-- The names of the bindings stay, and the body becomes one form. -/
def desugarLet (l : Language) : List Tree → List Tree
  | head :: bindings :: body => head :: desugarBindings l bindings :: wrapBody (desugarAll l body)
  | items => items
termination_by structural items => items

/-- The parameters stay, and the body becomes one form. -/
def desugarFn (l : Language) : List Tree → List Tree
  | head :: parameters :: body => head :: parameters :: wrapBody (desugarAll l body)
  | items => items
termination_by structural items => items

def desugarBindings (l : Language) : Tree → Tree
  | .atom a => .atom a
  | .list items => .list (desugarValues l items)
termination_by structural t => t

/-- Names, each with a form after it. -/
def desugarValues (l : Language) : List Tree → List Tree
  | name :: value :: rest => name :: desugar l value :: desugarValues l rest
  | items => items
termination_by structural items => items

end

theorem desugarAll_eq_map (l : Language) (items : List Tree) :
    desugarAll l items = items.map (desugar l) := by
  induction items with
  | nil => rfl
  | cons t ts ih => rw [desugarAll, ih, List.map_cons]

theorem desugarValues_bindingItems (l : Language) (bs : List (String × Tree)) :
    desugarValues l (bindingItems bs) =
      bindingItems (bs.map fun b => (b.1, desugar l b.2)) := by
  induction bs with
  | nil => rfl
  | cons b bs ih => rw [bindingItems_cons, desugarValues, ih, List.map_cons, bindingItems_cons]

section

variable {n : Nat}

theorem kindIn_eq {l : Language} {t : Tree} {e : Entry} (h : l.entryOf? t = some e) :
    kindIn l t = some e.clause := by
  unfold kindIn
  rw [h, Option.map_some]

theorem desugar_quoteTree (d : Tree) :
    desugar (Stage.surface.language n) (quoteTree d) = quoteTree d := by
  have hkind := kindIn_eq (entryOf?_quoteTree (n := n) (g := .surface) d)
  unfold quoteTree
  rw [desugar]
  exact if_pos hkind

theorem desugar_ifThen {a b : Tree} (ha : Form .surface a) (hb : Form .surface b) :
    desugar (Stage.surface.language n) (.list [.symbol "if", a, b]) =
      .list [.symbol "if", desugar (Stage.surface.language n) a,
        desugar (Stage.surface.language n) b, .symbol "nil"] := by
  have hkind : kindIn (Stage.surface.language n) (.list [.symbol "if", a, b]) = some ifThen :=
    kindIn_eq (entryOf?_ifThen ha hb)
  rw [desugar, hkind, if_neg (by decide), if_pos rfl, desugarAll_eq_map]
  rfl

theorem desugar_letTree {bs : List (String × Tree)} {body : List Tree} (hbs : bs ≠ [])
    (hbody : body ≠ []) (values : ∀ b ∈ bs, Form .surface b.2)
    (forms : ∀ t ∈ body, Form .surface t) :
    desugar (Stage.surface.language n) (letTree bs body) =
      letTree (bs.map fun b => (b.1, desugar (Stage.surface.language n) b.2))
        (wrapBody (body.map (desugar (Stage.surface.language n)))) := by
  have hkind : kindIn (Stage.surface.language n) (letTree bs body) = some letForm :=
    kindIn_eq (entryOf?_letTree hbs hbody values forms (fun h => by cases h))
  unfold letTree at hkind ⊢
  rw [desugar, hkind, if_neg (by decide), if_neg (by decide), if_pos rfl, desugarLet,
    desugarBindings, desugarValues_bindingItems, desugarAll_eq_map]

theorem desugar_fnTree {ps : List String} {body : List Tree} (hbody : body ≠ [])
    (forms : ∀ t ∈ body, Form .surface t) :
    desugar (Stage.surface.language n) (fnTree ps body) =
      fnTree ps (wrapBody (body.map (desugar (Stage.surface.language n)))) := by
  have hkind : kindIn (Stage.surface.language n) (fnTree ps body) = some fnForm :=
    kindIn_eq (entryOf?_fnTree hbody forms (fun h => by cases h))
  unfold fnTree at hkind ⊢
  rw [desugar, hkind, if_neg (by decide), if_neg (by decide), if_neg (by decide), if_pos rfl,
    desugarFn, desugarAll_eq_map]

theorem desugar_plain {items : List Tree} (hne : items ≠ [])
    (forms : ∀ t ∈ items, Form .surface t) (hplain : Plain items) (hif : ¬ IsIfThen items) :
    desugar (Stage.surface.language n) (.list items) =
      .list (items.map (desugar (Stage.surface.language n))) := by
  obtain ⟨e, word, he, -, hflat, hword⟩ := entryOf?_plain (n := n) hne forms hplain
  have hother : ∀ c, isFlat c = false → some e.clause ≠ some c := by
    rintro c hc heq
    cases heq
    rw [hc] at hflat
    cases hflat
  have hnotif : some e.clause ≠ some ifThen := by
    intro heq
    injection heq with heq
    rw [heq] at hword
    obtain ⟨a, b, -, -, heq, -⟩ := captures_ifThen_iff.mp hword
    exact hif ⟨a, b, heq⟩
  rw [desugar, kindIn_eq he, if_neg (hother _ rfl), if_neg hnotif, if_neg (hother _ rfl),
    if_neg (hother _ rfl), desugarAll_eq_map]

end

/-! ## Lists that start with `let` -/

/-- Whether a tree is a list that starts with a symbol. -/
def startsWith (name : String) : Tree → Bool
  | .list (.symbol first :: _) => first = name
  | _ => false

/-- No form in a tree starts with `let` and is an application all the same. -/
def NoLooseLet (l : Language) (t : Tree) : Prop :=
  ∀ x ∈ l.positions t, startsWith "let" x = true → kindIn l x ≠ some application

instance (l : Language) (t : Tree) : Decidable (NoLooseLet l t) :=
  inferInstanceAs (Decidable (∀ x ∈ l.positions t, _))

section

variable {n : Nat}

/-- A list that starts with `let` and is no `let` is an application. -/
theorem kindIn_loose_let {rest : List Tree} (forms : ∀ t ∈ rest, Form .surface t)
    (hplain : Plain (.symbol "let" :: rest)) :
    kindIn (Stage.surface.language n) (.list (.symbol "let" :: rest)) = some application := by
  have hentries : (Stage.surface.language n).entries = (Stage.surface.entries n).take 12 ++
      entry n 12 application false :: [entry n 13 symbols false] := rfl
  have hall : (((Stage.surface.entries n).take 12).all fun e =>
      !couldFit "let" e.clause || e.clause = letForm) = true := rfl
  have hfits : (Stage.surface.language n).fits application (.list (.symbol "let" :: rest)) =
      true :=
    fits_application_iff.mpr ⟨by simp, List.forall_mem_cons.mpr
      ⟨accepts_atom _, fun t ht => (forms t ht).accepts⟩⟩
  refine kindIn_eq (List.find?_eq_some_iff_append.mpr ⟨hfits, _, _, hentries, fun e he => ?_⟩)
  rw [Bool.not_eq_true', Bool.eq_false_iff]
  intro hf
  have hkind := List.all_eq_true.mp hall e he
  simp only [Bool.or_eq_true, Bool.not_eq_true', decide_eq_true_eq] at hkind
  rcases hkind with hc | hc
  · rw [fits_eq_false_of_couldFit hc] at hf
    cases hf
  · exact hplain.not_let (isLet_of_fits (q := .oneOrMore) nofun (hc ▸ hf))

/-- If no `let` is loose, each form keeps its kind from pass to pass. -/
theorem compiled_eq_desugar {t : Tree} (h : Form .surface t)
    (hlet : NoLooseLet (Stage.surface.language n) t) :
    compiled n t = desugar (Stage.surface.language n) t := by
  induction h with
  | atom a =>
    unfold compiled
    rw [convert_atom, convert_atom, convert_atom]
    rfl
  | quoted d =>
    unfold compiled
    rw [convert_quoteTree, convert_quoteTree, convert_quoteTree, desugar_quoteTree]
  | @letForm bs body hbs hbody values forms single ihv ihf =>
    have hpositions := positions_letTree (n := n) hbs hbody values forms single
    have hvalues : ∀ b ∈ bs, compiled n b.2 = desugar (Stage.surface.language n) b.2 := by
      intro b hb
      apply ihv b hb
      intro x hx
      apply hlet x
      rw [hpositions]
      exact List.mem_cons_of_mem _ (List.mem_append_left _ (List.mem_flatMap.mpr ⟨b, hb, hx⟩))
    have hforms : ∀ t ∈ body, compiled n t = desugar (Stage.surface.language n) t := by
      intro t ht
      apply ihf t ht
      intro x hx
      apply hlet x
      rw [hpositions]
      exact List.mem_cons_of_mem _ (List.mem_append_right _ (List.mem_flatMap.mpr ⟨t, ht, hx⟩))
    rw [compiled_letTree hbs hbody values forms, desugar_letTree hbs hbody values forms,
      List.map_congr_left hforms, List.map_congr_left fun b hb => by rw [hvalues b hb]]
  | @fnForm ps body hbody forms single ihf =>
    have hforms : ∀ t ∈ body, compiled n t = desugar (Stage.surface.language n) t := by
      intro t ht
      apply ihf t ht
      intro x hx
      apply hlet x
      rw [positions_fnTree hbody forms single]
      exact List.mem_cons_of_mem _ (List.mem_flatMap.mpr ⟨t, ht, hx⟩)
    rw [compiled_fnTree hbody forms, desugar_fnTree hbody forms, List.map_congr_left hforms]
  | @plain items hne forms hplain _ ihf =>
    obtain ⟨word, hflat, hpositions⟩ := positions_plain (n := n) hne forms hplain
    have hitems : ∀ t ∈ items, compiled n t = desugar (Stage.surface.language n) t := by
      intro t ht
      apply ihf t ht
      intro x hx hstart
      -- Keywords are no positions, but they are atoms, and no atom starts with `let`.
      rcases mem_formsInAll_of_mem hflat ht hx with hx | ⟨a, rfl⟩
      · exact hlet x (hpositions ▸ List.mem_cons_of_mem _ hx) hstart
      · cases hstart
    by_cases hif : IsIfThen items
    · obtain ⟨a, b, rfl⟩ := hif
      rw [compiled_ifThen (forms a (by simp)) (forms b (by simp)),
        desugar_ifThen (forms a (by simp)) (forms b (by simp)), hitems a (by simp),
        hitems b (by simp)]
    · have hhead : items.head? ≠ some (.symbol "let") := by
        intro hhead
        obtain ⟨rest, rfl⟩ := List.head?_eq_some_iff.mp hhead
        refine hlet _ (Language.mem_positions_self _) rfl (kindIn_loose_let ?_ hplain)
        exact fun t ht => forms t (List.mem_cons_of_mem _ ht)
      rw [compiled_plain hne forms hplain hif hhead, desugar_plain hne forms hplain hif,
        List.map_congr_left hitems]

end

/-! ## The forms of the last stage -/

theorem Form.not_isIfThen {items : List Tree} (h : Form .singleFn (.list items)) :
    ¬ IsIfThen items := by
  rintro ⟨a, b, rfl⟩
  generalize ht : Tree.list [.symbol "if", a, b] = t at h
  cases h with
  | plain _ _ _ hif =>
    cases ht
    exact hif (by decide) ⟨a, b, rfl⟩
  | _ => simp [quoteTree, letTree, fnTree] at ht

theorem Form.length_of_isLet {items : List Tree} (h : Form .singleFn (.list items))
    (hlet : IsLet items) : items.length = 3 := by
  generalize ht : Tree.list items = t at h
  obtain ⟨bs, body, hbs, values, hbody, heq⟩ := hlet
  cases h with
  | letForm _ _ _ _ single =>
    cases ht
    simp [single rfl]
  | plain _ _ hplain _ =>
    cases ht
    exact absurd ⟨bs, body, hbs, values, hbody, heq⟩ hplain.not_let
  | _ =>
    cases heq
    simp [quoteTree, fnTree] at ht

theorem Form.length_of_isFn {items : List Tree} (h : Form .singleFn (.list items))
    (hfn : IsFn items) : items.length = 3 := by
  generalize ht : Tree.list items = t at h
  obtain ⟨ps, body, hbody, heq⟩ := hfn
  cases h with
  | fnForm _ _ single =>
    cases ht
    simp [single rfl]
  | plain _ _ hplain _ =>
    cases ht
    exact absurd ⟨ps, body, hbody, heq⟩ hplain.not_fn
  | _ =>
    cases heq
    simp [quoteTree, letTree] at ht

/-- A form of the last stage is a form of every stage. -/
theorem Form.of_singleFn {g : Stage} {t : Tree} (h : Form .singleFn t) : Form g t := by
  induction h with
  | atom a => exact .atom a
  | quoted d => exact .quoted d
  | letForm hbs hbody _ _ single ihv ihf =>
    exact .letForm hbs hbody ihv ihf fun _ => single rfl
  | fnForm hbody _ single ihf => exact .fnForm hbody ihf fun _ => single rfl
  | plain hne _ hplain hif ihf =>
    exact .plain hne ihf hplain fun _ => hif (by decide)

/-- A body of one form is one form already. -/
theorem convertBody_eq_self {n : Nat} {k : Step} {wraps : Bool} {body : List Tree}
    (hone : body.length = 1) (hsame : ∀ t ∈ body, k.convert n t = t) :
    convertBody n k wraps body = body := by
  obtain ⟨t, rfl⟩ := List.length_eq_one_iff.mp hone
  have ht := hsame t (by simp)
  unfold convertBody
  cases wraps <;> simp [wrapBody, ht]

/-- No pass changes a form of the last stage. -/
theorem convert_eq_self {n : Nat} {k : Step} {t : Tree} (h : Form .singleFn t) :
    k.convert n t = t := by
  induction h with
  | atom a => exact convert_atom a
  | quoted d => exact convert_quoteTree d
  | @letForm bs body hbs hbody values forms single ihv ihf =>
    have hbindings : convertBindings n k bs = bs := by
      unfold convertBindings
      rw [List.map_congr_left fun b hb => by rw [ihv b hb], List.map_id']
    rw [convert_letTree hbs hbody (fun b hb => (values b hb).of_singleFn)
      (fun t ht => (forms t ht).of_singleFn) fun _ => single rfl, hbindings,
      convertBody_eq_self (single rfl) ihf]
  | fnForm hbody forms single ihf =>
    rw [convert_fnTree hbody (fun t ht => (forms t ht).of_singleFn) fun _ => single rfl,
      convertBody_eq_self (single rfl) ihf]
  | plain hne forms hplain hif ihf =>
    rw [convert_plain hne (fun t ht => (forms t ht).of_singleFn) hplain
      fun _ => hif (by decide), List.map_congr_left ihf, List.map_id']

/-! ## The laws -/

/-- The compiler gives what one walk over the program gives, unless some list starts with `let`
and is an application all the same. -/
theorem compiling_is_one_desugaring (s : Supply) (p : Pipeline)
    (hp : (compiler.run.run s).1 = .ok p) (t : Tree) (ht : p.base.accepts t = true)
    (hlet : NoLooseLet p.base t) : p.run t = .ok (desugar p.base t) := by
  rw [compiler_run] at hp
  injection hp with hp
  subst hp
  have hform : Form .surface t := surface_accepts_iff.mp ht
  rw [pipeline_run_eq, compiled_eq_desugar hform hlet]
  exact if_pos ht

/-- A program with each of the forms that the passes are for, inside one another. -/
def sugared : Tree :=
  letTree [("x", .list [.symbol "if", .symbol "a", .symbol "b"])]
    [fnTree [] [.list [.symbol "if", .symbol "x", .symbol "y"],
      .list [.symbol "f", quoteTree (.list [.symbol "if", .symbol "a", .symbol "b"])]],
      .list [.symbol "not", .symbol "x"]]

/-- What remains of that program. -/
def sugarless : Tree :=
  letTree [("x", .list [.symbol "if", .symbol "a", .symbol "b", .symbol "nil"])]
    [.list [.symbol "do",
      fnTree [] [.list [.symbol "do",
        .list [.symbol "if", .symbol "x", .symbol "y", .symbol "nil"],
        .list [.symbol "f", quoteTree (.list [.symbol "if", .symbol "a", .symbol "b"])]]],
      .list [.symbol "not", .symbol "x"]]]

theorem sugared_becomes_sugarless :
    (compiler.run.run ⟨0⟩).1 = .ok (pipeline 0) ∧ (pipeline 0).base.accepts sugared = true ∧
      NoLooseLet (pipeline 0).base sugared ∧ (pipeline 0).run sugared = .ok sugarless := by
  have hp : (compiler.run.run ⟨0⟩).1 = .ok (pipeline 0) := by rw [compiler_run]
  have ht : (pipeline 0).base.accepts sugared = true := by decide +kernel
  have hlet : NoLooseLet (pipeline 0).base sugared := by decide +kernel
  have hwalk : desugar (pipeline 0).base sugared = sugarless := by decide +kernel
  refine ⟨hp, ht, hlet, ?_⟩
  rw [compiling_is_one_desugaring ⟨0⟩ (pipeline 0) hp sugared ht hlet, hwalk]

/-- In what the compiler gives no form is an `if` without an else, and none is a `let` or a
function with more than one form in its body. -/
theorem a_compiled_program_has_no_sugar_left (s : Supply) (p : Pipeline)
    (hp : (compiler.run.run s).1 = .ok p) (t : Tree) (ht : p.base.accepts t = true) :
    ∃ u, p.run t = .ok u ∧ ∀ x ∈ p.current.positions u,
      p.base.fits ifThen x = false ∧
        ∀ items, x = .list items → 3 < items.length →
          p.base.fits letForm x = false ∧ p.base.fits fnForm x = false := by
  rw [compiler_run] at hp
  injection hp with hp
  subst hp
  have hform : Form .surface t := surface_accepts_iff.mp ht
  refine ⟨compiled s.created t, ?_, ?_⟩
  · rw [pipeline_run_eq]
    exact if_pos ht
  intro x hx
  have hx : Form .singleFn x := (form_compiled hform).of_mem_positions x hx
  cases x with
  | atom a => exact ⟨rfl, nofun⟩
  | list items =>
    refine ⟨?_, ?_⟩
    · apply Bool.eq_false_iff.mpr
      intro hf
      exact hx.not_isIfThen (isIfThen_of_fits hf)
    · intro others heq hlen
      cases heq
      refine ⟨?_, ?_⟩
      · apply Bool.eq_false_iff.mpr
        intro hf
        have hthree := hx.length_of_isLet (isLet_of_fits (q := .oneOrMore) nofun hf)
        omega
      · apply Bool.eq_false_iff.mpr
        intro hf
        have hthree := hx.length_of_isFn (isFn_of_fits (q := .oneOrMore) nofun hf)
        omega

/-- A list that starts with `let` and is no `let`: its bindings lack a form, but it will be a `let`
once the `if` in their place has its else. -/
def looseLet : Tree :=
  .list [.symbol "let", .list [.symbol "if", .symbol "a", .symbol "b"],
    .list [.symbol "let", .symbol "x"], .symbol "y"]

theorem a_loose_let_has_no_sugar_left :
    (compiler.run.run ⟨0⟩).1 = .ok (pipeline 0) ∧ (pipeline 0).base.accepts looseLet = true ∧
      ∃ u, (pipeline 0).run looseLet = .ok u ∧ ∀ x ∈ (pipeline 0).current.positions u,
        (pipeline 0).base.fits ifThen x = false ∧
          ∀ items, x = .list items → 3 < items.length →
            (pipeline 0).base.fits letForm x = false ∧
              (pipeline 0).base.fits fnForm x = false := by
  have hp : (compiler.run.run ⟨0⟩).1 = .ok (pipeline 0) := by rw [compiler_run]
  have ht : (pipeline 0).base.accepts looseLet = true := by decide +kernel
  exact ⟨hp, ht, a_compiled_program_has_no_sugar_left ⟨0⟩ (pipeline 0) hp looseLet ht⟩

/-- What the compiler gives, it takes and gives again. -/
theorem compiling_again_changes_nothing (s : Supply) (p : Pipeline)
    (hp : (compiler.run.run s).1 = .ok p) (t u : Tree) (h : p.run t = .ok u) :
    p.run u = .ok u := by
  rw [compiler_run] at hp
  injection hp with hp
  subst hp
  rw [pipeline_run_eq] at h
  by_cases hacc : (Stage.surface.language s.created).accepts t = true
  · rw [if_pos hacc] at h
    injection h with h
    have hform : Form .singleFn u := h ▸ form_compiled (surface_accepts_iff.mp hacc)
    have hagain : (Stage.surface.language s.created).accepts u = true := hform.of_singleFn.accepts
    have hsame : compiled s.created u = u := by
      unfold compiled
      rw [convert_eq_self hform, convert_eq_self hform, convert_eq_self hform]
    rw [pipeline_run_eq, if_pos hagain, hsame]
  · rw [if_neg hacc] at h
    cases h

/-- What becomes of the loose `let`: its bindings are complete, and the other one stays loose. -/
def tightLet : Tree :=
  letTree [("if", .symbol "a"), ("b", .symbol "nil")]
    [.list [.symbol "do", .list [.symbol "let", .symbol "x"], .symbol "y"]]

theorem compiling_a_loose_let_again_changes_nothing :
    (compiler.run.run ⟨0⟩).1 = .ok (pipeline 0) ∧ (pipeline 0).run looseLet = .ok tightLet ∧
      (pipeline 0).run tightLet = .ok tightLet := by
  have hp : (compiler.run.run ⟨0⟩).1 = .ok (pipeline 0) := by rw [compiler_run]
  have hrun : (pipeline 0).run looseLet = .ok tightLet := by decide +kernel
  exact ⟨hp, hrun, compiling_again_changes_nothing ⟨0⟩ (pipeline 0) hp looseLet tightLet hrun⟩

end TreePasses.Surface
