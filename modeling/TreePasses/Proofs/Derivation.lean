-- What clauses mean, apart from how matching goes about it: the items of a list are split among
-- the clauses of a body, each as often as it may stand, and a form is whatever has the shape of
-- some clause. Matching finds nothing else, and it finds all of it in a language whose lists repeat
-- only at their end.
import TreePasses.Proofs.SurfaceTyping

namespace TreePasses

namespace Language

/-! ## Derivations -/

mutual

/-- A tree is a form if it has the shape of one of the clauses. -/
inductive Derives (l : Language) : Tree → Prop where
  | entry {e : Entry} {t : Tree} (he : e ∈ l.entries) (h : HasShape l e.clause t) : Derives l t

/-- A single tree has the shape of a clause. No tree has the shape of a group. -/
inductive HasShape (l : Language) : Clause → Tree → Prop where
  | list {body : List Clause} {q : Quantifier} {items : List Tree} (h : Splits l body items) :
      HasShape l (.list body q) (.list items)
  | literal (name : String) (q : Quantifier) : HasShape l (.literal name q) (.symbol name)
  /-- A name for a class of trees, which does not depend on what the forms are. -/
  | terminal {name : String} {k : Terminal} {q : Quantifier} {t : Tree}
      (hk : l.terminal? name = some k) (h : k.holds (fun _ => false) t = true) :
      HasShape l (.terminal name q) t
  /-- A name for any form. -/
  | form {name : String} {q : Quantifier} {t : Tree}
      (hk : l.terminal? name = some .expression) (h : Derives l t) :
      HasShape l (.terminal name q) t

/-- Neighbouring items that a clause stands for once: a single item, or a chunk that is split
among the body of a group. -/
inductive StandsOnce (l : Language) : Clause → List Tree → Prop where
  | item {c : Clause} {t : Tree} (h : HasShape l c t) : StandsOnce l c [t]
  | chunk {body : List Clause} {q : Quantifier} {items : List Tree} (h : Splits l body items) :
      StandsOnce l (.group body q) items

/-- Items that are split among the clauses of a body, from left to right. -/
inductive Splits (l : Language) : List Clause → List Tree → Prop where
  | nil : Splits l [] []
  | cons {c : Clause} {cs : List Clause} {chunks : List (List Tree)} {rest : List Tree}
      (hq : c.quantifier.Allows chunks.length) (h : ∀ chunk ∈ chunks, StandsOnce l c chunk)
      (hrest : Splits l cs rest) : Splits l (c :: cs) (chunks.flatten ++ rest)

end

/-- In each clause of the language, all lists repeat only at their end. -/
def TailQuantified (l : Language) : Prop := ∀ e ∈ l.entries, e.clause.AllTailQuantified

end Language

/-! ## Words, one repetition at a time -/

namespace Clause

/-- The words of a clause that stands once. -/
def SpellsOnce : Clause → List Clause → Prop
  | .group body _, word => SpellsAll body word
  | c, word => word = [c]

theorem repeats_iff_once {c : Clause} {word : List Clause} :
    c.Repeats word ↔ ∃ chunks : List (List Clause), c.quantifier.Allows chunks.length ∧
      (∀ chunk ∈ chunks, chunk = [c]) ∧ word = chunks.flatten := by
  constructor
  · rintro ⟨n, hn, rfl⟩
    refine ⟨List.replicate n [c], by simpa using hn, ?_, by simp⟩
    exact fun chunk hchunk => List.eq_of_mem_replicate hchunk
  · rintro ⟨chunks, hn, hsame, rfl⟩
    refine ⟨chunks.length, hn, ?_⟩
    rw [List.eq_replicate_of_mem hsame]
    simp

/-- A word of a clause is made of words of the clause standing once. -/
theorem spells_iff_once {c : Clause} {word : List Clause} :
    c.Spells word ↔ ∃ chunks : List (List Clause), c.quantifier.Allows chunks.length ∧
      (∀ chunk ∈ chunks, c.SpellsOnce chunk) ∧ word = chunks.flatten := by
  cases c with
  | group body q => simp only [Spells, SpellsOnce, quantifier]
  | _ => simp only [Spells, SpellsOnce, repeats_iff_once]

section

variable {holds : String → Tree → Bool}

/-- Items that match words one after the other fall into chunks, one for each word. -/
theorem Matched.split_flatten {words : List (List Clause)} {items : List Tree}
    (h : Matched holds words.flatten items) :
    ∃ chunks, items = chunks.flatten ∧ List.Forall₂ (Matched holds) words chunks := by
  induction words generalizing items with
  | nil =>
    cases h
    exact ⟨[], rfl, .nil⟩
  | cons word words ih =>
    obtain ⟨front, back, rfl, hfront, hback⟩ := Matched.split (List.flatten_cons ▸ h)
    obtain ⟨chunks, rfl, hchunks⟩ := ih hback
    exact ⟨front :: chunks, rfl, .cons hfront hchunks⟩

/-- Chunks that each match a word match these words one after the other. -/
theorem exists_matched_flatten {spells : List Clause → Prop} {chunks : List (List Tree)}
    (h : ∀ chunk ∈ chunks, ∃ word, spells word ∧ Matched holds word chunk) :
    ∃ words : List (List Clause), words.length = chunks.length ∧ (∀ word ∈ words, spells word) ∧
      Matched holds words.flatten chunks.flatten := by
  induction chunks with
  | nil => exact ⟨[], rfl, by simp, .nil⟩
  | cons chunk chunks ih =>
    obtain ⟨⟨word, hword, hm⟩, hrest⟩ := List.forall_mem_cons.mp h
    obtain ⟨words, hlen, hwords, hms⟩ := ih hrest
    exact ⟨word :: words, by simp [hlen], List.forall_mem_cons.mpr ⟨hword, hwords⟩, hm.append hms⟩

end

end Clause

namespace Language

open Clause (Matched SpellsAll)

variable {l : Language}

/-! ## What is found is derived -/

section

variable {accepted : Tree → Bool}

theorem splits_of_spellsAll_of {body : List Clause}
    (hb : ∀ c ∈ body, ∀ word items, c.SpellsOnce word →
      Matched (l.holdsGiven accepted) word items → l.StandsOnce c items)
    {word : List Clause} {items : List Tree} (hw : SpellsAll body word)
    (hm : Matched (l.holdsGiven accepted) word items) : l.Splits body items := by
  induction body generalizing word items with
  | nil =>
    cases hw
    cases hm
    exact .nil
  | cons c cs ih =>
    obtain ⟨first, others, hfirst, hothers, rfl⟩ := hw
    obtain ⟨front, rest, rfl, hfront, hrest⟩ := hm.split
    obtain ⟨words, hq, hwords, rfl⟩ := Clause.spells_iff_once.mp hfirst
    obtain ⟨chunks, rfl, hchunks⟩ := hfront.split_flatten
    refine .cons (hchunks.length_eq ▸ hq) ?_ (ih (fun d hd => hb d (by simp [hd])) hothers hrest)
    intro chunk hchunk
    obtain ⟨word, hword, hmatched⟩ := Clause.exists_of_forall₂ hchunks hchunk
    exact hb c (by simp) word chunk (hwords word hword) hmatched

theorem hasShape_terminal {name : String} (q : Quantifier) {t : Tree}
    (haccepted : accepted t = true → l.Derives t) (h : l.holdsGiven accepted name t = true) :
    l.HasShape (.terminal name q) t := by
  unfold holdsGiven at h
  cases hk : l.terminal? name with
  | none => simp [hk] at h
  | some k =>
    simp only [hk] at h
    cases k with
    | expression => exact .form hk (haccepted h)
    | _ => exact .terminal hk h

theorem hasShape_of_fits_of {c : Clause} {t : Tree}
    (haccepted : ∀ u, accepted u = true → l.Derives u)
    (hb : ∀ body, c.body? = some body → ∀ d ∈ body, ∀ word items, d.SpellsOnce word →
      Matched (l.holdsGiven accepted) word items → l.StandsOnce d items)
    (h : c.fits (l.holdsGiven accepted) t = true) : l.HasShape c t := by
  cases c with
  | list body q =>
    cases t with
    | atom a => cases h
    | list items =>
      obtain ⟨word, hword⟩ := Clause.fits_list_iff.mp h
      obtain ⟨hspells, hm⟩ := Clause.captures_explained hword
      exact .list (splits_of_spellsAll_of (hb body rfl) hspells hm)
  | group body q => cases h
  | literal name q =>
    rw [Clause.fits_literal_iff.mp h]
    exact .literal name q
  | terminal name q => exact hasShape_terminal q (haccepted t) h

/-- What a clause takes once, it stands for once. -/
theorem standsOnce_of_spellsOnce (haccepted : ∀ u, accepted u = true → l.Derives u) {c : Clause}
    {word : List Clause} {items : List Tree} (hw : c.SpellsOnce word)
    (hm : Matched (l.holdsGiven accepted) word items) : l.StandsOnce c items := by
  induction c generalizing word items with
  | group body q ih => exact .chunk (splits_of_spellsAll_of (fun d hd _ _ => ih d hd) hw hm)
  | list body q ih =>
    cases hw
    obtain ⟨t, _, ht, hnil, rfl⟩ := List.forall₂_cons_left_iff.mp hm
    cases hnil
    refine .item (hasShape_of_fits_of haccepted ?_ ht)
    rintro _ ⟨⟩ d hd word items
    exact ih d hd
  | _ =>
    cases hw
    obtain ⟨t, _, ht, hnil, rfl⟩ := List.forall₂_cons_left_iff.mp hm
    cases hnil
    exact .item (hasShape_of_fits_of haccepted (fun _ hbody => by cases hbody) ht)

theorem derives_of_acceptsWithin {depth : Nat} {t : Tree} (h : l.acceptsWithin depth t = true) :
    l.Derives t := by
  induction depth generalizing t with
  | zero => cases h
  | succ depth ih =>
    obtain ⟨e, he, hfits⟩ := List.any_eq_true.mp h
    refine .entry he (hasShape_of_fits_of (fun u => ih) ?_ hfits)
    intro body _ d _ word items
    exact standsOnce_of_spellsOnce fun u => ih

end

/-- Whatever a language accepts, it derives. -/
theorem derives_of_accepts {t : Tree} (h : l.accepts t = true) : l.Derives t :=
  derives_of_acceptsWithin h

/-! ## What is derived is found -/

theorem holds_terminal {accepted : Tree → Bool} {k : Terminal} {t : Tree}
    (h : k.holds (fun _ => false) t = true) : k.holds accepted t = true := by
  cases k with
  | expression => cases h
  | _ => exact h

mutual

theorem accepts_of_derives (hground : l.Grounded) (htail : l.TailQuantified) {t : Tree} :
    l.Derives t → l.accepts t = true
  | .entry he h => by
    rw [accepts_eq_any hground]
    exact List.any_eq_true.mpr ⟨_, he, fits_of_hasShape hground htail h (htail _ he)⟩

theorem fits_of_hasShape (hground : l.Grounded) (htail : l.TailQuantified) {c : Clause} {t : Tree} :
    l.HasShape c t → c.AllTailQuantified → l.fits c t = true
  | .list h, hc => by
    obtain ⟨word, hw, hm⟩ := exists_word_of_splits hground htail h fun body hbody =>
      hc body (List.mem_cons_of_mem _ hbody)
    have hend := hc _ List.mem_cons_self
    exact Clause.fits_list_iff.mpr ⟨word, (Clause.captures_iff hend).mpr ⟨hw, hm⟩⟩
  | .literal name q, _ => Clause.fits_literal_iff.mpr rfl
  | .terminal hk h, _ => by
    simp only [fits, Clause.fits, holds, holdsGiven, hk]
    exact holds_terminal h
  | .form hk h, _ => by
    simp only [fits, Clause.fits, holds, holdsGiven, hk]
    exact accepts_of_derives hground htail h

theorem exists_word_of_standsOnce (hground : l.Grounded) (htail : l.TailQuantified) {c : Clause}
    {items : List Tree} : l.StandsOnce c items → c.AllTailQuantified →
      ∃ word, c.SpellsOnce word ∧ Matched l.holds word items
  | .item h, hc => by
    have hfits := fits_of_hasShape hground htail h hc
    refine ⟨[c], ?_, .cons hfits .nil⟩
    cases c with
    | group body q => cases hfits
    | _ => rfl
  | .chunk h, hc => exists_word_of_splits hground htail h hc

/-- Items that are split among a body match one of its words. -/
theorem exists_word_of_splits (hground : l.Grounded) (htail : l.TailQuantified)
    {body : List Clause} {items : List Tree} : l.Splits body items →
      (∀ inner ∈ Clause.listBodiesIn body, Clause.tailQuantified inner = true) →
      ∃ word, SpellsAll body word ∧ Matched l.holds word items
  | .nil, _ => ⟨[], rfl, .nil⟩
  | .cons hq h hrest, hbodies => by
    obtain ⟨words, hlen, hwords, hm⟩ := Clause.exists_matched_flatten fun chunk hchunk =>
      exists_word_of_standsOnce hground htail (h chunk hchunk) fun inner hinner =>
        hbodies inner (List.mem_append_left _ hinner)
    obtain ⟨others, hothers, hmore⟩ := exists_word_of_splits hground htail hrest
      fun inner hinner => hbodies inner (List.mem_append_right _ hinner)
    have hfirst := Clause.spells_iff_once.mpr ⟨words, hlen ▸ hq, hwords, rfl⟩
    exact ⟨words.flatten ++ others, ⟨_, _, hfirst, hothers, rfl⟩, hm.append hmore⟩

end

end Language

/-! ## The laws -/

theorem Surface.tailQuantified (n : Nat) (g : Surface.Stage) : (g.language n).TailQuantified :=
  fun _ he => Surface.allTailQuantified he

/-- A language whose lists repeat only at their end, and with no name alone for any form among its
clauses, accepts exactly what it derives. The surface language is such a language, and so is the
target of each pass of the compiler. -/
theorem Language.greedy_matching_finds_every_derivation (s s' : Supply) :
    (∀ l : Language, l.Grounded → l.TailQuantified → ∀ t, l.accepts t = true ↔ l.Derives t) ∧
      ∃ base p, (Surface.language.run.run s).1 = .ok base ∧
        (Surface.compiler.run.run s').1 = .ok p ∧ p.passes.length = 3 ∧
        ∀ l ∈ base :: p.passes.map (·.target), l.Grounded ∧ l.TailQuantified := by
  refine ⟨?_, _, _, by rw [Surface.language_run], by rw [Surface.compiler_run], rfl, ?_⟩
  · intro l hground htail t
    exact ⟨derives_of_accepts, accepts_of_derives hground htail⟩
  · have hstage : ∀ n (g : Surface.Stage),
        (g.language n).Grounded ∧ (g.language n).TailQuantified :=
      fun n g => ⟨Surface.grounded, Surface.tailQuantified n g⟩
    have htargets : (Surface.pipeline s'.created).passes.map (·.target) =
        [.twoArmed, .singleLet, .singleFn].map (Surface.Stage.language s'.created) := rfl
    rw [htargets]
    intro l hl
    rcases List.mem_cons.mp hl with rfl | hl
    · exact hstage _ _
    · obtain ⟨g, -, rfl⟩ := List.mem_map.mp hl
      exact hstage _ g

namespace Surface

/-- A `let` that binds a function without parameters and a quoted datum that is no form. -/
def letOfThunk : Tree :=
  letTree [("f", fnTree [] [.symbol "x", .symbol "y"]), ("z", quoteTree (.list []))]
    [.list [.symbol "f", .symbol "z"]]

theorem the_surface_language_derives_a_let :
    (Stage.surface.language 0).Grounded ∧ (Stage.surface.language 0).TailQuantified ∧
      (Stage.surface.language 0).Derives letOfThunk ∧
      ¬ (Stage.surface.language 0).Derives (.list [letOfThunk, .list []]) := by
  have hground : (Stage.surface.language 0).Grounded := grounded
  have htail := tailQuantified 0 .surface
  have hiff := (Language.greedy_matching_finds_every_derivation ⟨0⟩ ⟨0⟩).1 _ hground htail
  refine ⟨hground, htail, (hiff _).mp (by decide +kernel), ?_⟩
  rw [← hiff]
  decide +kernel

end Surface

end TreePasses
