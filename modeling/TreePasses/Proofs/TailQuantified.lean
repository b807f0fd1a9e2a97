-- Bodies in which only the end may repeat. A body takes greedily and gives nothing back, so in
-- general it misses some of its words; one that repeats only at its end finds them all.
import TreePasses.Proofs.Words

namespace TreePasses.Clause

/-! ## Fixed clauses -/

mutual

/-- Whether a clause stands once, and so does each clause in it if it is a group. -/
def isFixed : Clause → Bool
  | .group body q => q = .one && allFixed body
  | .list _ q => q = .one
  | .literal _ q => q = .one
  | .terminal _ q => q = .one

/-- Whether all clauses of a body are fixed. -/
def allFixed : List Clause → Bool
  | [] => true
  | c :: cs => c.isFixed && allFixed cs

end

mutual

/-- The clauses of a clause that are no groups, with groups laid open. -/
def parts : Clause → List Clause
  | .group body _ => bodyParts body
  | .list body q => [.list body q]
  | .literal name q => [.literal name q]
  | .terminal name q => [.terminal name q]

/-- The clauses of a body that are no groups, with groups laid open. -/
def bodyParts : List Clause → List Clause
  | [] => []
  | c :: cs => c.parts ++ bodyParts cs

end

theorem quantifier_of_isFixed {c : Clause} (h : c.isFixed = true) : c.quantifier = .one := by
  cases c <;> simp_all [isFixed, quantifier]

theorem repeats_one {c : Clause} (hq : c.quantifier = .one) {word : List Clause}
    (h : c.Repeats word) : word = [c] := by
  obtain ⟨n, hn, rfl⟩ := h
  rw [hq] at hn
  cases hn
  rfl

theorem spellsAll_of_allFixed_of {body : List Clause}
    (hb : ∀ c ∈ body, c.isFixed = true → ∀ word, c.Spells word → word = c.parts)
    (hf : allFixed body = true) {word : List Clause} (h : SpellsAll body word) :
    word = bodyParts body := by
  induction body generalizing word with
  | nil => exact h
  | cons c cs ih =>
    simp only [allFixed, Bool.and_eq_true] at hf
    obtain ⟨first, others, h1, h2, rfl⟩ := h
    rw [hb c (by simp) hf.1 first h1, ih (fun d hd => hb d (by simp [hd])) hf.2 h2]
    rfl

/-- A fixed clause has one word only. -/
theorem eq_parts_of_isFixed {c : Clause} (hc : c.isFixed = true) {word : List Clause}
    (h : c.Spells word) : word = c.parts := by
  induction c generalizing word with
  | group body q ih =>
    simp only [isFixed, Bool.and_eq_true, decide_eq_true_eq] at hc
    obtain ⟨rfl, hf⟩ := hc
    obtain ⟨chunks, hn, hwords, rfl⟩ := h
    obtain ⟨chunk, rfl⟩ := List.length_eq_one_iff.mp hn
    rw [List.flatten_singleton]
    exact spellsAll_of_allFixed_of (fun c hc hf word => ih c hc hf) hf (hwords chunk (by simp))
  | list body q _ => exact repeats_one (quantifier_of_isFixed hc) h
  | literal name q => exact repeats_one (quantifier_of_isFixed hc) h
  | terminal name q => exact repeats_one (quantifier_of_isFixed hc) h

/-- A body of fixed clauses has one word only. -/
theorem eq_bodyParts_of_allFixed {body : List Clause} (hf : allFixed body = true)
    {word : List Clause} (h : SpellsAll body word) : word = bodyParts body :=
  spellsAll_of_allFixed_of (fun _ _ hc _ hw => eq_parts_of_isFixed hc hw) hf h

theorem spellsAll_bodyParts_of {body : List Clause}
    (hb : ∀ c ∈ body, c.isFixed = true → c.Spells c.parts) (hf : allFixed body = true) :
    SpellsAll body (bodyParts body) := by
  induction body with
  | nil => rfl
  | cons c cs ih =>
    simp only [allFixed, Bool.and_eq_true] at hf
    have hothers := ih (fun d hd => hb d (by simp [hd])) hf.2
    exact ⟨c.parts, bodyParts cs, hb c (by simp) hf.1, hothers, rfl⟩

theorem spells_parts {c : Clause} (hc : c.isFixed = true) : c.Spells c.parts := by
  have honce := quantifier_of_isFixed hc
  induction c with
  | group body q ih =>
    simp only [isFixed, Bool.and_eq_true, decide_eq_true_eq] at hc
    obtain ⟨rfl, hf⟩ := hc
    have hbody := spellsAll_bodyParts_of (fun c hc hf => ih c hc hf (quantifier_of_isFixed hf)) hf
    exact ⟨[bodyParts body], rfl, by simpa using hbody, by simp [parts]⟩
  | list body q _ => exact ⟨1, by rw [honce]; rfl, rfl⟩
  | literal name q => exact ⟨1, by rw [honce]; rfl, rfl⟩
  | terminal name q => exact ⟨1, by rw [honce]; rfl, rfl⟩

/-- The one word of a body of fixed clauses is its clauses with groups laid open. -/
theorem spellsAll_iff_of_allFixed {body : List Clause} (hf : allFixed body = true)
    {word : List Clause} : SpellsAll body word ↔ word = bodyParts body := by
  refine ⟨eq_bodyParts_of_allFixed hf, ?_⟩
  rintro rfl
  exact spellsAll_bodyParts_of (fun _ _ => spells_parts) hf

/-- A group of fixed clauses has the one word of its body, as often as it may stand. -/
theorem spells_group_iff_of_allFixed {body : List Clause} (hf : allFixed body = true)
    {q : Quantifier} {word : List Clause} :
    (group body q).Spells word ↔
      ∃ k, q.Allows k ∧ word = (List.replicate k (bodyParts body)).flatten := by
  constructor
  · rintro ⟨chunks, hn, hwords, rfl⟩
    have hsame : chunks = List.replicate chunks.length (bodyParts body) :=
      List.eq_replicate_of_mem fun chunk hc => eq_bodyParts_of_allFixed hf (hwords chunk hc)
    exact ⟨chunks.length, hn, by rw [← hsame]⟩
  · rintro ⟨k, hk, rfl⟩
    refine ⟨List.replicate k (bodyParts body), by simpa using hk, ?_, rfl⟩
    intro chunk hc
    exact (spellsAll_iff_of_allFixed hf).mpr (List.eq_of_mem_replicate hc)

theorem spellsAll_singleton_iff {c : Clause} {word : List Clause} :
    SpellsAll [c] word ↔ c.Spells word := by
  simp [SpellsAll]

/-! ## Taking the words of fixed clauses -/

theorem take_once {holds : String → Tree → Bool} {c : Clause} (hg : c.isGroup = false)
    (hq : c.quantifier = .one) {word : List Clause} (hw : c.Spells word) {front : List Tree}
    (hm : Matched holds word front) (rest : List Tree) :
    c.take holds (front ++ rest) = some (word, rest) := by
  have hword := repeats_one hq ((spells_iff_repeats hg word).mp hw)
  subst hword
  obtain ⟨t, _, ht, hnil, rfl⟩ := List.forall₂_cons_left_iff.mp hm
  cases hnil
  rw [take_of_isGroup hg, hq]
  simp [takeItems, ht]

theorem takeAll_of_allFixed_of {holds : String → Tree → Bool} {body : List Clause}
    (hb : ∀ c ∈ body, c.isFixed = true → ∀ word front, c.Spells word → Matched holds word front →
      ∀ rest, c.take holds (front ++ rest) = some (word, rest))
    (hf : allFixed body = true) {word : List Clause} (hw : SpellsAll body word)
    {front : List Tree} (hm : Matched holds word front) (rest : List Tree) :
    takeAll holds body (front ++ rest) = some (word, rest) := by
  induction body generalizing word front with
  | nil =>
    cases hw
    cases hm
    rfl
  | cons c cs ih =>
    simp only [allFixed, Bool.and_eq_true] at hf
    obtain ⟨first, others, h1, h2, rfl⟩ := hw
    obtain ⟨xs, ys, rfl, hx, hy⟩ := hm.split
    rw [takeAll, List.append_assoc, hb c (by simp) hf.1 first xs h1 hx]
    simp only
    rw [ih (fun d hd => hb d (by simp [hd])) hf.2 h2 hy]

/-- A fixed clause takes its word from the front, whatever follows. -/
theorem take_of_isFixed {holds : String → Tree → Bool} {c : Clause} (hc : c.isFixed = true)
    {word : List Clause} (hw : c.Spells word) {front : List Tree}
    (hm : Matched holds word front) (rest : List Tree) :
    c.take holds (front ++ rest) = some (word, rest) := by
  induction c generalizing word front rest with
  | group body q ih =>
    simp only [isFixed, Bool.and_eq_true, decide_eq_true_eq] at hc
    obtain ⟨rfl, hf⟩ := hc
    obtain ⟨chunks, hn, hwords, rfl⟩ := hw
    obtain ⟨chunk, rfl⟩ := List.length_eq_one_iff.mp hn
    rw [List.flatten_singleton] at hm ⊢
    simp only [take, takeGroup]
    exact takeAll_of_allFixed_of (fun c hc hf word front hw hm rest => ih c hc hf hw hm rest) hf
      (hwords chunk (by simp)) hm rest
  | list body q _ => exact take_once rfl (quantifier_of_isFixed hc) hw hm rest
  | literal name q => exact take_once rfl (quantifier_of_isFixed hc) hw hm rest
  | terminal name q => exact take_once rfl (quantifier_of_isFixed hc) hw hm rest

/-- A body of fixed clauses takes its word from the front, whatever follows. -/
theorem takeAll_of_allFixed {holds : String → Tree → Bool} {body : List Clause}
    (hf : allFixed body = true) {front : List Tree} (hm : Matched holds (bodyParts body) front)
    (rest : List Tree) : takeAll holds body (front ++ rest) = some (bodyParts body, rest) :=
  takeAll_of_allFixed_of (fun _ _ hc _ _ hw hm rest => take_of_isFixed hc hw hm rest) hf
    ((spellsAll_iff_of_allFixed hf).mpr rfl) hm rest

/-! ## Repetition at the end -/

mutual

/-- Whether a clause may stand last where only the end may repeat: a fixed clause, any clause
that is no group, a group that stands once and itself repeats only at its end, or a repeated
group of fixed clauses. -/
def mayEnd : Clause → Bool
  | .group body q => allFixed body || q = .one && tailQuantified body
  | .list _ _ => true
  | .literal _ _ => true
  | .terminal _ _ => true

/-- Whether all clauses of a body but the last are fixed, and the last may stand last. -/
def tailQuantified : List Clause → Bool
  | [] => true
  | [c] => c.mayEnd
  | c :: d :: cs => c.isFixed && tailQuantified (d :: cs)

end

/-- A clause that is no group and stands last takes all items that match it. -/
theorem take_repeated {holds : String → Tree → Bool} {c : Clause} (hg : c.isGroup = false)
    {word : List Clause} (hw : c.Spells word) {items : List Tree} (hm : Matched holds word items) :
    c.take holds items = some (word, []) := by
  obtain ⟨n, hn, rfl⟩ := (spells_iff_repeats hg word).mp hw
  obtain ⟨rfl, hall⟩ := matched_replicate.mp hm
  have htake : items.takeWhile (c.fits holds) = items := List.takeWhile_eq_self_iff.mpr hall
  rw [take_of_isGroup hg]
  unfold takeItems
  cases hq : c.quantifier with
  | one =>
    rw [hq] at hn
    obtain ⟨t, rfl⟩ := List.length_eq_one_iff.mp hn
    simp [hall t (by simp)]
  | zeroOrMore => simp [htake]
  | oneOrMore =>
    rw [hq] at hn
    simp [htake, List.ne_nil_of_length_pos hn]

/-- Chunks of fixed clauses that make up all items are all found. A chunk without items is
found once only, but then there are no items at all. -/
theorem takeChunks_of_allFixed {holds : String → Tree → Bool} {body : List Clause}
    (hf : allFixed body = true) {k : Nat} {items : List Tree}
    (hm : Matched holds (List.replicate k (bodyParts body)).flatten items) :
    (takeChunks (takeAll holds body) items).1.flatten =
        (List.replicate k (bodyParts body)).flatten ∧
      (takeChunks (takeAll holds body) items).2 = [] ∧
      (0 < k → (takeChunks (takeAll holds body) items).1 ≠ []) := by
  induction k generalizing items with
  | zero =>
    cases hm
    rw [takeChunks]
    cases hs : takeAll holds body [] with
    | none => simp
    | some step =>
      obtain ⟨chunk, rest⟩ := step
      obtain ⟨rfl, hl⟩ := takeAll_fair holds body _ _ _ hs
      simpa using hl
  | succ k ih =>
    rw [List.replicate_succ, List.flatten_cons] at hm ⊢
    obtain ⟨front, back, rfl, hfront, hback⟩ := hm.split
    obtain ⟨ih1, ih2, -⟩ := ih hback
    rw [takeChunks, takeAll_of_allFixed hf hfront back]
    simp only
    split
    · simp [ih1, ih2]
    · rename_i hlt
      -- A chunk of no items: the one word of the body is empty, and so are all other chunks.
      have hnil : front = [] := by
        simp only [List.length_append, not_lt] at hlt
        exact List.length_eq_zero_iff.mp (by omega)
      subst hnil
      have hparts : bodyParts body = [] := List.forall₂_nil_right_iff.mp hfront
      have hrest : (List.replicate k (bodyParts body)).flatten = [] := by simp [hparts]
      rw [hrest] at hback
      cases hback
      simp [hrest]

theorem takeGroup_of_allFixed {holds : String → Tree → Bool} {body : List Clause}
    {q : Quantifier} (hf : allFixed body = true) {word : List Clause}
    (hw : Spells (.group body q) word) {items : List Tree} (hm : Matched holds word items) :
    takeGroup q (takeAll holds body) items = some (word, []) := by
  obtain ⟨k, hk, rfl⟩ := (spells_group_iff_of_allFixed hf).mp hw
  obtain ⟨h1, h2, h3⟩ := takeChunks_of_allFixed hf hm
  unfold takeGroup
  cases q with
  | one =>
    cases hk
    rw [List.replicate_one, List.flatten_singleton] at hm ⊢
    simpa using takeAll_of_allFixed hf hm []
  | zeroOrMore => simp [h1, h2]
  | oneOrMore => simp [h1, h2, h3 hk]

theorem takeAll_of_tailQuantified_of {holds : String → Tree → Bool} {body : List Clause}
    (hb : ∀ c ∈ body, c.mayEnd = true → ∀ word items, c.Spells word → Matched holds word items →
      c.take holds items = some (word, []))
    (ht : tailQuantified body = true) {word : List Clause} (hw : SpellsAll body word)
    {items : List Tree} (hm : Matched holds word items) :
    takeAll holds body items = some (word, []) := by
  induction body generalizing word items with
  | nil =>
    cases hw
    cases hm
    rfl
  | cons c cs ih =>
    obtain ⟨first, others, h1, h2, rfl⟩ := hw
    cases cs with
    | nil =>
      cases h2
      rw [List.append_nil] at hm ⊢
      simp [takeAll, hb c (by simp) ht first items h1 hm]
    | cons d ds =>
      simp only [tailQuantified, Bool.and_eq_true] at ht
      obtain ⟨xs, ys, rfl, hx, hy⟩ := hm.split
      rw [takeAll, take_of_isFixed ht.1 h1 hx]
      simp only
      rw [ih (fun e he => hb e (by simp [he])) ht.2 h2 hy]

theorem take_of_mayEnd {holds : String → Tree → Bool} {c : Clause} (hc : c.mayEnd = true)
    {word : List Clause} (hw : c.Spells word) {items : List Tree}
    (hm : Matched holds word items) : c.take holds items = some (word, []) := by
  induction c generalizing word items with
  | group body q ih =>
    simp only [mayEnd, Bool.or_eq_true, Bool.and_eq_true, decide_eq_true_eq] at hc
    rcases hc with hf | ⟨rfl, ht⟩
    · exact takeGroup_of_allFixed hf hw hm
    · obtain ⟨chunks, hn, hwords, rfl⟩ := hw
      obtain ⟨chunk, rfl⟩ := List.length_eq_one_iff.mp hn
      rw [List.flatten_singleton] at hm ⊢
      simp only [take, takeGroup]
      exact takeAll_of_tailQuantified_of (fun c hc he word items hw hm => ih c hc he hw hm) ht
        (hwords chunk (by simp)) hm
  | list body q _ => exact take_repeated rfl hw hm
  | literal name q => exact take_repeated rfl hw hm
  | terminal name q => exact take_repeated rfl hw hm

/-- A body that repeats only at its end takes every word of its own that the items match. -/
theorem takeAll_of_tailQuantified {holds : String → Tree → Bool} {body : List Clause}
    (ht : tailQuantified body = true) {word : List Clause} (hw : SpellsAll body word)
    {items : List Tree} (hm : Matched holds word items) :
    takeAll holds body items = some (word, []) :=
  takeAll_of_tailQuantified_of (fun _ _ hc _ _ hw hm => take_of_mayEnd hc hw hm) ht hw hm

/-! ## Captures by shape -/

section

variable {holds : String → Tree → Bool} {q : Quantifier} {items : List Tree} {word : List Clause}

/-- A list that repeats only at its end captures exactly the words that the items match. -/
theorem captures_iff {body : List Clause} (ht : tailQuantified body = true) :
    captures holds (.list body q) items = some word ↔
      SpellsAll body word ∧ Matched holds word items := by
  constructor
  · exact captures_explained
  · rintro ⟨hw, hm⟩
    exact captures_eq_some_iff.mpr (takeAll_of_tailQuantified ht hw hm)

theorem captures_nil_iff :
    captures holds (.list [] q) items = some word ↔ items = [] ∧ word = [] := by
  rw [captures_eq_some_iff, takeAll]
  simp only [Option.some.injEq, Prod.mk.injEq]
  constructor
  · rintro ⟨rfl, rfl⟩
    exact ⟨rfl, rfl⟩
  · rintro ⟨rfl, rfl⟩
    exact ⟨rfl, rfl⟩

/-- A clause that stands once captures the first item. -/
theorem captures_cons_iff {c : Clause} {cs : List Clause} (hg : c.isGroup = false)
    (hq : c.quantifier = .one) :
    captures holds (.list (c :: cs) q) items = some word ↔
      ∃ t rest others, items = t :: rest ∧ c.fits holds t = true ∧
        captures holds (.list cs q) rest = some others ∧ word = c :: others := by
  rw [captures_eq_some_iff, takeAll, take_of_isGroup hg, hq]
  unfold takeItems
  cases items with
  | nil => simp
  | cons t rest =>
    by_cases ht : c.fits holds t = true
    · simp only [ht, if_true, List.cons.injEq]
      cases hr : takeAll holds cs rest with
      | none =>
        simp only [reduceCtorEq, false_iff]
        rintro ⟨t', rest', others, ⟨rfl, rfl⟩, -, hothers, -⟩
        rw [captures_eq_some_iff, hr] at hothers
        cases hothers
      | some taken =>
        obtain ⟨others, left⟩ := taken
        simp only [List.cons_append, List.nil_append, Option.some.injEq, Prod.mk.injEq]
        constructor
        · rintro ⟨rfl, rfl⟩
          exact ⟨t, rest, others, ⟨rfl, rfl⟩, ht, captures_eq_some_iff.mpr hr, rfl⟩
        · rintro ⟨t', rest', others', ⟨rfl, rfl⟩, -, hothers, rfl⟩
          rw [captures_eq_some_iff, hr] at hothers
          cases hothers
          exact ⟨rfl, rfl⟩
    · simp only [ht]
      simp only [Bool.false_eq_true, if_false, reduceCtorEq, List.cons.injEq, false_iff]
      rintro ⟨t', rest', others, ⟨rfl, rfl⟩, ht', -⟩
      exact ht ht'

/-- A group that stands alone and once captures like its body. -/
theorem captures_group_once (body : List Clause) :
    captures holds (.list [.group body .one] q) items = captures holds (.list body q) items := by
  unfold captures
  simp only [takeAll, take, takeGroup]
  cases takeAll holds body items <;> simp

/-- A clause that stands alone and may repeat captures all items. -/
theorem captures_repeated_iff {c : Clause} (hg : c.isGroup = false) :
    captures holds (.list [c] q) items = some word ↔
      c.quantifier.Allows items.length ∧ (∀ t ∈ items, c.fits holds t = true) ∧
        word = List.replicate items.length c := by
  have hend : tailQuantified [c] = true := by cases c <;> simp_all [tailQuantified, mayEnd, isGroup]
  rw [captures_iff hend]
  simp only [SpellsAll, spells_iff_repeats hg]
  constructor
  · rintro ⟨⟨first, others, ⟨n, hn, rfl⟩, rfl, rfl⟩, hm⟩
    rw [List.append_nil] at hm ⊢
    obtain ⟨rfl, hall⟩ := matched_replicate.mp hm
    exact ⟨hn, hall, rfl⟩
  · rintro ⟨hn, hall, rfl⟩
    exact ⟨⟨_, [], ⟨_, hn, rfl⟩, rfl, (List.append_nil _).symm⟩, matched_replicate.mpr ⟨rfl, hall⟩⟩

end

end TreePasses.Clause
