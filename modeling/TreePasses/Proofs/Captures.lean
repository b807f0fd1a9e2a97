-- Captures are exact. A list clause captures some items exactly if it fits the list of them, and
-- what it captures is a word of its body, read as a regular expression over the clauses that are
-- no groups, with one clause for each item.
import TreePasses.Language.Basic
import TreePasses.Proofs.Words
import Mathlib.Computability.RegularExpressions

namespace TreePasses

/-! ## Bodies as regular expressions -/

/-- A regular expression as often as a quantifier says. -/
def Quantifier.repeated {α : Type} (r : RegularExpression α) : Quantifier → RegularExpression α
  | .one => r
  | .zeroOrMore => r.star
  | .oneOrMore => r * r.star

theorem Quantifier.mem_repeated_iff {α : Type} {r : RegularExpression α} {q : Quantifier}
    {word : List α} : word ∈ (q.repeated r).matches' ↔
      ∃ chunks : List (List α), q.Allows chunks.length ∧ (∀ chunk ∈ chunks, chunk ∈ r.matches') ∧
        word = chunks.flatten := by
  cases q with
  | one =>
    rw [repeated]
    constructor
    · intro h
      exact ⟨[word], rfl, by simpa using h, by simp⟩
    · rintro ⟨chunks, hlength, hwords, rfl⟩
      obtain ⟨chunk, rfl⟩ := List.length_eq_one_iff.mp hlength
      simpa using hwords
  | zeroOrMore =>
    rw [repeated, RegularExpression.matches'_star, Language.mem_kstar]
    constructor
    · rintro ⟨chunks, rfl, hwords⟩
      exact ⟨chunks, trivial, hwords, rfl⟩
    · rintro ⟨chunks, -, hwords, rfl⟩
      exact ⟨chunks, rfl, hwords⟩
  | oneOrMore =>
    rw [repeated, RegularExpression.matches'_mul, RegularExpression.matches'_star,
      Language.mem_mul]
    simp only [Language.mem_kstar]
    constructor
    · rintro ⟨first, hfirst, _, ⟨chunks, rfl, hwords⟩, rfl⟩
      exact ⟨first :: chunks, Nat.succ_pos _, List.forall_mem_cons.mpr ⟨hfirst, hwords⟩, rfl⟩
    · rintro ⟨chunks, hlength, hwords, rfl⟩
      obtain ⟨first, others, rfl⟩ := List.exists_cons_of_length_pos hlength
      obtain ⟨hfirst, hothers⟩ := List.forall_mem_cons.mp hwords
      exact ⟨first, hfirst, _, ⟨others, rfl, hothers⟩, rfl⟩

namespace Clause

mutual

/-- A clause as a regular expression. A group stands for its body, any other clause for itself. -/
def expression : Clause → RegularExpression Clause
  | .list body q => q.repeated (.char (.list body q))
  | .group body q => q.repeated (bodyExpression body)
  | .literal name q => q.repeated (.char (.literal name q))
  | .terminal name q => q.repeated (.char (.terminal name q))

/-- A body as a regular expression: its clauses one after the other. -/
def bodyExpression : List Clause → RegularExpression Clause
  | [] => 1
  | c :: cs => c.expression * bodyExpression cs

end

theorem repeats_iff_mem {c : Clause} {word : List Clause} :
    c.Repeats word ↔ word ∈ (c.quantifier.repeated (.char c)).matches' := by
  rw [Quantifier.mem_repeated_iff]
  constructor
  · rintro ⟨n, hn, rfl⟩
    refine ⟨List.replicate n [c], by simpa using hn, ?_, by simp⟩
    intro chunk hchunk
    exact List.eq_of_mem_replicate hchunk
  · rintro ⟨chunks, hn, hchunks, rfl⟩
    have hsame : chunks = List.replicate chunks.length [c] := List.eq_replicate_of_mem hchunks
    refine ⟨chunks.length, hn, ?_⟩
    rw [hsame]
    simp

theorem spellsAll_iff_mem_of {body : List Clause}
    (hb : ∀ c ∈ body, ∀ word, c.Spells word ↔ word ∈ c.expression.matches') (word : List Clause) :
    SpellsAll body word ↔ word ∈ (bodyExpression body).matches' := by
  induction body generalizing word with
  | nil => exact Iff.rfl
  | cons c cs ih =>
    rw [bodyExpression, RegularExpression.matches'_mul, Language.mem_mul, SpellsAll]
    simp only [hb c (by simp), ih fun d hd => hb d (by simp [hd])]
    constructor
    · rintro ⟨first, others, hfirst, hothers, rfl⟩
      exact ⟨first, hfirst, others, hothers, rfl⟩
    · rintro ⟨first, hfirst, others, hothers, rfl⟩
      exact ⟨first, others, hfirst, hothers, rfl⟩

theorem spells_iff_mem (c : Clause) (word : List Clause) :
    c.Spells word ↔ word ∈ c.expression.matches' := by
  induction c generalizing word with
  | group body q ih =>
    rw [expression, Quantifier.mem_repeated_iff, Spells]
    simp only [spellsAll_iff_mem_of ih]
  | list body q _ => exact repeats_iff_mem
  | literal name q => exact repeats_iff_mem
  | terminal name q => exact repeats_iff_mem

/-- The words of a body are those of its regular expression. -/
theorem spellsAll_iff_mem (body word : List Clause) :
    SpellsAll body word ↔ word ∈ (bodyExpression body).matches' :=
  spellsAll_iff_mem_of (fun c _ => spells_iff_mem c) word

/-! ## Words without groups -/

theorem isGroup_of_spellsAll_of {body : List Clause}
    (hb : ∀ c ∈ body, ∀ word, c.Spells word → ∀ d ∈ word, d.isGroup = false) {word : List Clause}
    (h : SpellsAll body word) : ∀ d ∈ word, d.isGroup = false := by
  induction body generalizing word with
  | nil =>
    cases h
    simp
  | cons c cs ih =>
    obtain ⟨first, others, hfirst, hothers, rfl⟩ := h
    intro d hd
    rcases List.mem_append.mp hd with hd | hd
    · exact hb c (by simp) first hfirst d hd
    · exact ih (fun e he => hb e (by simp [he])) hothers d hd

theorem isGroup_of_spells {c : Clause} {word : List Clause} (h : c.Spells word) :
    ∀ d ∈ word, d.isGroup = false := by
  have hrepeats : ∀ {c : Clause} {word : List Clause}, c.isGroup = false → c.Repeats word →
      ∀ d ∈ word, d.isGroup = false := by
    rintro c word hc ⟨n, -, rfl⟩ d hd
    rwa [List.eq_of_mem_replicate hd]
  induction c generalizing word with
  | group body q ih =>
    obtain ⟨chunks, -, hwords, rfl⟩ := h
    intro d hd
    obtain ⟨chunk, hchunk, hd⟩ := List.mem_flatten.mp hd
    exact isGroup_of_spellsAll_of (fun c hc word hw => ih c hc hw) (hwords chunk hchunk) d hd
  | list body q _ => exact hrepeats rfl h
  | literal name q => exact hrepeats rfl h
  | terminal name q => exact hrepeats rfl h

/-- A body is spelled without groups, however deep they are nested. -/
theorem isGroup_of_spellsAll {body word : List Clause} (h : SpellsAll body word) :
    ∀ d ∈ word, d.isGroup = false :=
  isGroup_of_spellsAll_of (fun _ _ _ => isGroup_of_spells) h

end Clause

/-! ## The laws -/

namespace Language

/-- A clause captures some items exactly if it is a list clause and fits the list of them. Then one
clause is captured for each item, none of them a group; each item has the shape of its clause; and
the captured clauses are a word of the body, read as a regular expression. -/
theorem captures_name_one_clause_for_each_item (l : Language) (c : Clause) (items : List Tree) :
    ((∃ word, l.captures c items = some word) ↔
      c.isList = true ∧ l.fits c (.list items) = true) ∧
    ∀ word, l.captures c items = some word →
      word.length = items.length ∧ (∀ d ∈ word, d.isGroup = false) ∧
      (∀ (i : Nat) d t, word[i]? = some d → items[i]? = some t → l.fits d t = true) ∧
      ∃ body q, c = .list body q ∧ word ∈ (Clause.bodyExpression body).matches' := by
  cases c with
  | list body q =>
    refine ⟨?_, ?_⟩
    · simp only [Clause.isList, true_and]
      exact Clause.fits_list_iff.symm
    · intro word h
      obtain ⟨hword, hmatched⟩ := Clause.captures_explained h
      exact ⟨hmatched.length_eq, Clause.isGroup_of_spellsAll hword, fun _ _ _ => hmatched.fits,
        body, q, rfl, (Clause.spellsAll_iff_mem body word).mp hword⟩
  | _ => simp [captures, Clause.captures, Clause.isList]

/-- Symbols and constants. -/
def atoms : Language :=
  ⟨"atoms", [⟨⟨0⟩, .terminal "s" .one, false⟩, ⟨⟨1⟩, .terminal "c" .one, false⟩],
    [("s", .symbol), ("c", .constant)]⟩

/-- Pairs of a symbol and a constant, and then symbols with a list of forms after them. -/
def pairsAndLists : List Clause :=
  [.group [.terminal "s" .one, .terminal "c" .one] .zeroOrMore,
    .group [.terminal "s" .zeroOrMore, .list [.terminal "ε" .zeroOrMore] .one] .oneOrMore]

/-- The second symbol could start another pair. There is no constant after it, so it is captured by
the clause for symbols before a list. -/
theorem a_pair_that_is_given_up_captures_nothing :
    ∃ word, atoms.captures (.list pairsAndLists .one) [.symbol "x", .atom (.bool true),
        .symbol "y", .list [.symbol "z", .symbol "w"]] = some word ∧
      word = [.terminal "s" .one, .terminal "c" .one, .terminal "s" .zeroOrMore,
        .list [.terminal "ε" .zeroOrMore] .one] ∧
      word ∈ (Clause.bodyExpression pairsAndLists).matches' ∧
      atoms.fits (.list [.terminal "ε" .zeroOrMore] .one) (.list [.symbol "z", .symbol "w"]) =
        true := by
  obtain ⟨hsome, hexact⟩ := captures_name_one_clause_for_each_item atoms
    (.list pairsAndLists .one) [.symbol "x", .atom (.bool true), .symbol "y",
      .list [.symbol "z", .symbol "w"]]
  have hfits : atoms.fits (.list pairsAndLists .one) (.list [.symbol "x", .atom (.bool true),
      .symbol "y", .list [.symbol "z", .symbol "w"]]) = true := by decide +kernel
  obtain ⟨word, hword⟩ := hsome.mpr ⟨rfl, hfits⟩
  have hsame : word = [.terminal "s" .one, .terminal "c" .one, .terminal "s" .zeroOrMore,
      .list [.terminal "ε" .zeroOrMore] .one] := by
    rw [← Option.some_inj, ← hword]
    decide +kernel
  obtain ⟨-, -, hshapes, body, q, hbody, hmem⟩ := hexact word hword
  cases hbody
  refine ⟨word, hword, hsame, hmem, hshapes 3 _ _ ?_ rfl⟩
  rw [hsame]
  rfl

end Language

end TreePasses
