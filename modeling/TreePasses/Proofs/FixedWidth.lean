-- Groups of fixed width. If every clause of a group stands once, also in the groups inside it, each
-- chunk has as many items as there are clauses. A repeated group takes whole chunks, as many as
-- there are, and leaves the items of a chunk that fails part-way.
import TreePasses.Language.Basic
import TreePasses.Proofs.TailQuantified
import Mathlib.Order.Bounds.Basic

namespace TreePasses

namespace Clause

/-! ## A word laid along some items -/

/-- Whether the item at a place has the shape of the clause that comes to stand there if a word is
laid along the items over and over. -/
def fitsAt (holds : String → Tree → Bool) (word : List Clause) (items : List Tree) (i : Nat) :
    Bool :=
  match word[i % word.length]?, items[i]? with
  | some c, some t => c.fits holds t
  | _, _ => false

/-- A word can be laid `k` times along some items from the front: there are enough of them, and
each one has the shape of its clause. -/
def Tiles (holds : String → Tree → Bool) (word : List Clause) (items : List Tree) (k : Nat) :
    Prop :=
  k * word.length ≤ items.length ∧ ∀ i < k * word.length, fitsAt holds word items i = true

instance (holds : String → Tree → Bool) (word : List Clause) (items : List Tree) (k : Nat) :
    Decidable (Tiles holds word items k) :=
  inferInstanceAs (Decidable (_ ∧ _))

section

variable {holds : String → Tree → Bool} {word : List Clause} {items front rest : List Tree}
  {k : Nat}

theorem tiles_zero : Tiles holds word items 0 := by
  simp [Tiles]

/-- Places after the first copy of the word are places of the items after it. -/
theorem fitsAt_append_right (hlength : front.length = word.length) (i : Nat) :
    fitsAt holds word (front ++ rest) (word.length + i) = fitsAt holds word rest i := by
  unfold fitsAt
  rw [Nat.add_mod_left, List.getElem?_append_right (by omega), hlength, Nat.add_sub_cancel_left]

/-- The first copy of the word matches the items under it place by place. -/
theorem matched_iff_fitsAt (hlength : front.length = word.length) (rest : List Tree) :
    Matched holds word front ↔
      ∀ i < word.length, fitsAt holds word (front ++ rest) i = true := by
  have hplace : ∀ i (hi : i < word.length) (hi' : i < front.length),
      fitsAt holds word (front ++ rest) i = word[i].fits holds front[i] := by
    intro i hi hi'
    unfold fitsAt
    rw [Nat.mod_eq_of_lt hi, List.getElem?_append_left hi', List.getElem?_eq_getElem hi,
      List.getElem?_eq_getElem hi']
  unfold Matched
  rw [List.forall₂_iff_get]
  constructor
  · rintro ⟨-, hall⟩ i hi
    rw [hplace i hi (by omega)]
    exact hall i hi (by omega)
  · intro hall
    refine ⟨hlength.symm, ?_⟩
    intro i hi hi'
    rw [List.get_eq_getElem, List.get_eq_getElem, ← hplace i hi hi']
    exact hall i hi

theorem tiles_succ_of_append (hlength : front.length = word.length) :
    Tiles holds word (front ++ rest) (k + 1) ↔
      Matched holds word front ∧ Tiles holds word rest k := by
  have hwidth : (k + 1) * word.length = word.length + k * word.length := by
    rw [Nat.succ_mul, Nat.add_comm]
  rw [matched_iff_fitsAt hlength rest]
  unfold Tiles
  rw [hwidth, List.length_append, hlength]
  constructor
  · rintro ⟨henough, hall⟩
    refine ⟨fun i hi => hall i (by omega), by omega, ?_⟩
    intro i hi
    rw [← fitsAt_append_right hlength]
    exact hall _ (by omega)
  · rintro ⟨hfirst, henough, hmore⟩
    refine ⟨by omega, ?_⟩
    intro i hi
    by_cases hlt : i < word.length
    · exact hfirst i hlt
    · obtain ⟨j, rfl⟩ := Nat.exists_eq_add_of_le (Nat.le_of_not_lt hlt)
      rw [fitsAt_append_right hlength]
      exact hmore j (by omega)

/-- One more copy of a word: the first one matches the front, and the others are laid along what
comes after it. -/
theorem tiles_succ_iff :
    Tiles holds word items (k + 1) ↔
      ∃ front rest, items = front ++ rest ∧ Matched holds word front ∧
        Tiles holds word rest k := by
  constructor
  · intro h
    have henough : word.length ≤ items.length := by
      have hall := h.1
      rw [Nat.succ_mul] at hall
      omega
    have hlength : (items.take word.length).length = word.length := by simp [henough]
    refine ⟨items.take word.length, items.drop word.length, by simp, ?_⟩
    rw [← tiles_succ_of_append hlength, List.take_append_drop]
    exact h
  · rintro ⟨front, rest, rfl, hfront, hrest⟩
    exact (tiles_succ_of_append hfront.length_eq.symm).mpr ⟨hfront, hrest⟩

/-- A word is laid along some items exactly if the items under its copies match them. -/
theorem tiles_iff_matched :
    Tiles holds word items k ↔
      ∃ front rest, items = front ++ rest ∧
        Matched holds (List.replicate k word).flatten front := by
  induction k generalizing items with
  | zero => exact ⟨fun _ => ⟨[], items, rfl, .nil⟩, fun _ => tiles_zero⟩
  | succ k ih =>
    rw [tiles_succ_iff, List.replicate_succ, List.flatten_cons]
    constructor
    · rintro ⟨front, rest, rfl, hfront, hrest⟩
      obtain ⟨more, left, rfl, hmore⟩ := ih.mp hrest
      exact ⟨front ++ more, left, (List.append_assoc _ _ _).symm, hfront.append hmore⟩
    · rintro ⟨all, left, rfl, hall⟩
      obtain ⟨front, more, rfl, hfront, hmore⟩ := hall.split
      exact ⟨front, more ++ left, List.append_assoc _ _ _, hfront, ih.mpr ⟨more, left, rfl, hmore⟩⟩

theorem length_of_matched_replicate (h : Matched holds (List.replicate k word).flatten items) :
    items.length = k * word.length := by
  rw [← h.length_eq]
  simp

/-- Copies of a word match some items exactly if they are laid along all of them. -/
theorem matched_replicate_flatten_iff :
    Matched holds (List.replicate k word).flatten items ↔
      items.length = k * word.length ∧ Tiles holds word items k := by
  constructor
  · intro h
    exact ⟨length_of_matched_replicate h, tiles_iff_matched.mpr ⟨items, [], by simp, h⟩⟩
  · rintro ⟨hlength, h⟩
    obtain ⟨front, rest, rfl, hfront⟩ := tiles_iff_matched.mp h
    have hnil : rest = [] := by
      have hall := length_of_matched_replicate hfront
      rw [List.length_append] at hlength
      exact List.eq_nil_of_length_eq_zero (by omega)
    rwa [hnil, List.append_nil]

/-! ## The most copies -/

theorem Tiles.mono (h : Tiles holds word items k) {j : Nat} (hj : j ≤ k) :
    Tiles holds word items j := by
  have hle : j * word.length ≤ k * word.length := Nat.mul_le_mul_right _ hj
  refine ⟨Nat.le_trans hle h.1, ?_⟩
  intro i hi
  exact h.2 i (Nat.lt_of_lt_of_le hi hle)

/-- If one more copy cannot be laid, there is no way to lay more of them either. -/
theorem isGreatest_tiles (h : Tiles holds word items k)
    (hnext : ¬ Tiles holds word items (k + 1)) :
    IsGreatest {k | Tiles holds word items k} k := by
  refine ⟨h, ?_⟩
  intro j hj
  by_contra hlt
  exact hnext (Tiles.mono hj (by omega))

end

/-! ## Chunks of fixed clauses -/

section

variable {holds : String → Tree → Bool} {body : List Clause} {items : List Tree}

/-- A body of fixed clauses takes one copy of its word if the items at the front match it, and
else nothing. -/
theorem takeAll_eq_some_iff_of_allFixed (hf : allFixed body = true) {taken : List Clause}
    {rest : List Tree} :
    takeAll holds body items = some (taken, rest) ↔
      taken = bodyParts body ∧
        ∃ front, items = front ++ rest ∧ Matched holds (bodyParts body) front := by
  constructor
  · intro h
    obtain ⟨hword, front, hitems, hfront⟩ := takeAll_explained holds body _ _ _ h
    obtain rfl := eq_bodyParts_of_allFixed hf hword
    exact ⟨rfl, front, hitems, hfront⟩
  · rintro ⟨rfl, front, rfl, hfront⟩
    exact takeAll_of_allFixed hf hfront rest

/-- Chunks of fixed clauses are copies of one word, until no other copy can be laid along the items.
What a chunk that fails has gone over is left. -/
theorem takeChunks_eq_of_allFixed (hf : allFixed body = true)
    (hwidth : 0 < (bodyParts body).length) (items : List Tree) :
    ∃ k, Tiles holds (bodyParts body) items k ∧ ¬ Tiles holds (bodyParts body) items (k + 1) ∧
      takeChunks (takeAll holds body) items =
        (List.replicate k (bodyParts body), items.drop (k * (bodyParts body).length)) := by
  -- The scan ends where the first chunk fails, so it is the failure that bounds the copies; each
  -- chunk before it moves both the copies and that bound on by one.
  fun_induction takeChunks (takeAll holds body) items with
  | case1 items h =>
    refine ⟨0, tiles_zero, ?_, by simp⟩
    intro hfirst
    obtain ⟨front, rest, hitems, hfront, -⟩ := tiles_succ_iff.mp hfirst
    have hsome := (takeAll_eq_some_iff_of_allFixed hf).mpr ⟨rfl, front, hitems, hfront⟩
    rw [h] at hsome
    cases hsome
  | case2 items chunk rest h hlt chunks left hrec ih =>
    obtain ⟨rfl, front, rfl, hfront⟩ := (takeAll_eq_some_iff_of_allFixed hf).mp h
    obtain ⟨k, htiles, hnext, hchunks⟩ := ih
    rw [hrec, Prod.mk.injEq] at hchunks
    obtain ⟨rfl, rfl⟩ := hchunks
    have hlength : front.length = (bodyParts body).length := hfront.length_eq.symm
    refine ⟨k + 1, (tiles_succ_of_append hlength).mpr ⟨hfront, htiles⟩, ?_, ?_⟩
    · intro hmore
      exact hnext ((tiles_succ_of_append hlength).mp hmore).2
    · rw [List.replicate_succ, Nat.succ_mul, Nat.add_comm, ← hlength, List.drop_append]
      simp
  | case3 items chunk rest h hlt =>
    -- The word has a clause at least, so a chunk takes an item.
    obtain ⟨-, front, rfl, hfront⟩ := (takeAll_eq_some_iff_of_allFixed hf).mp h
    have hlength := hfront.length_eq
    rw [List.length_append] at hlt
    omega

/-- A list of one group of fixed clauses captures items along all of which the word of the group can
be laid, as often as the group may stand. -/
theorem captures_group_iff_of_allFixed (hf : allFixed body = true) {p q : Quantifier}
    {word : List Clause} :
    captures holds (.list [.group body p] q) items = some word ↔
      ∃ k, p.Allows k ∧ items.length = k * (bodyParts body).length ∧
        Tiles holds (bodyParts body) items k ∧
        word = (List.replicate k (bodyParts body)).flatten := by
  have hend : tailQuantified [.group body p] = true := by simp [tailQuantified, mayEnd, hf]
  rw [captures_iff hend, spellsAll_singleton_iff, spells_group_iff_of_allFixed hf]
  constructor
  · rintro ⟨⟨k, hk, rfl⟩, hm⟩
    obtain ⟨hlength, htiles⟩ := matched_replicate_flatten_iff.mp hm
    exact ⟨k, hk, hlength, htiles, rfl⟩
  · rintro ⟨k, hk, hlength, htiles, rfl⟩
    exact ⟨⟨k, hk, rfl⟩, matched_replicate_flatten_iff.mpr ⟨hlength, htiles⟩⟩

end

end Clause

namespace Language

open Clause

/-- The clauses of a group whose clauses all stand once are a word, with the groups in it laid open.
A repeated group takes the most copies of the word that can be laid along the items; it fails only
if it is to stand at least once and there is no copy. The trees that have the shape of a list with
just that group are the lists along all of whose items the word is laid, as often as the group may
stand. -/
theorem groups_of_fixed_width_take_whole_chunks (l : Language) (body : List Clause)
    (hfixed : allFixed body = true) (hwidth : 0 < (bodyParts body).length) :
    (∀ items, ∃ k, IsGreatest {k | Tiles l.holds (bodyParts body) items k} k ∧
      (group body .zeroOrMore).take l.holds items =
        some ((List.replicate k (bodyParts body)).flatten,
          items.drop (k * (bodyParts body).length)) ∧
      (group body .oneOrMore).take l.holds items =
        if k = 0 then none
        else some ((List.replicate k (bodyParts body)).flatten,
          items.drop (k * (bodyParts body).length))) ∧
    ∀ p q t, l.fits (.list [.group body p] q) t = true ↔
      ∃ items k, t = .list items ∧ p.Allows k ∧ items.length = k * (bodyParts body).length ∧
        Tiles l.holds (bodyParts body) items k := by
  refine ⟨?_, ?_⟩
  · intro items
    obtain ⟨k, htiles, hnext, hchunks⟩ :=
      @takeChunks_eq_of_allFixed l.holds body hfixed hwidth items
    refine ⟨k, isGreatest_tiles htiles hnext, ?_, ?_⟩
    · simp [take, takeGroup, hchunks]
    · simp [take, takeGroup, hchunks]
  · intro p q t
    cases t with
    | atom a => simp [fits, Clause.fits, coversTree]
    | list items =>
      rw [fits, fits_list_iff]
      simp only [captures_group_iff_of_allFixed hfixed]
      constructor
      · rintro ⟨word, k, hk, hlength, htiles, -⟩
        exact ⟨items, k, rfl, hk, hlength, htiles⟩
      · rintro ⟨items', k, heq, hk, hlength, htiles⟩
        cases heq
        exact ⟨_, k, hk, hlength, htiles, rfl⟩

/-- Names and their values, each value in two groups of its own. The second pair has no value, so
its name is left with the rest. -/
theorem pairs_are_taken_whole :
    let names := ((Language.empty "names").register "s" .symbol).register "c" .constant
    let pair := [terminal "s" .one, .group [.group [.terminal "c" .one] .one] .one]
    let one := Tree.atom (.int 1)
    allFixed pair = true ∧ 0 < (bodyParts pair).length ∧
      (group pair .zeroOrMore).take names.holds [.symbol "x", one, .symbol "y", .symbol "z"] =
        some ([.terminal "s" .one, .terminal "c" .one], [.symbol "y", .symbol "z"]) ∧
      (group pair .oneOrMore).take names.holds [.symbol "y", .symbol "z"] = none ∧
      names.fits (.list [.group pair .oneOrMore] .one)
        (.list [.symbol "x", one, .symbol "y", one]) = true ∧
      names.fits (.list [.group pair .oneOrMore] .one)
        (.list [.symbol "x", one, .symbol "y"]) = false := by
  intro names pair one
  have hfixed : allFixed pair = true := rfl
  have hwidth : 0 < (bodyParts pair).length := by decide
  obtain ⟨htake, hfits⟩ := groups_of_fixed_width_take_whole_chunks names pair hfixed hwidth
  refine ⟨hfixed, hwidth, ?_, ?_, ?_, ?_⟩
  · obtain ⟨k, hmost, hstar, -⟩ := htake [.symbol "x", one, .symbol "y", .symbol "z"]
    obtain rfl : k = 1 :=
      hmost.unique (isGreatest_tiles (by decide +kernel) (by decide +kernel))
    exact hstar
  · obtain ⟨k, hmost, -, hplus⟩ := htake [.symbol "y", .symbol "z"]
    obtain rfl : k = 0 := hmost.unique (isGreatest_tiles tiles_zero (by decide +kernel))
    exact hplus
  · exact (hfits _ _ _).mpr ⟨_, 2, rfl, Nat.two_pos, rfl, by decide +kernel⟩
  · rw [Bool.eq_false_iff]
    intro h
    obtain ⟨items, k, heq, -, hlength, -⟩ := (hfits _ _ _).mp h
    cases heq
    have hodd : 3 = k * 2 := hlength
    omega

end Language

end TreePasses
