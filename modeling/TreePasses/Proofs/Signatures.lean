-- A clause and its signature stand for each other. The signature of a well-formed clause is read
-- back as that clause, only well-formed clauses are ever read, and so two patterns have the same
-- signature only if they stand for the same clause.
import TreePasses.Clause.Signature
import TreePasses.Proofs.Reading

namespace TreePasses

open Text (Position)

/-! ## The words of a written text -/

namespace Pattern

/-- A text holds words, wherever it may stand. -/
def HasWords (text : List Char) (ts : List Token) : Prop := ∀ before, ∃ words,
  Laid (fun front p => p = .after front) before text words ∧ words.map (·.token) = ts

theorem hasWords_nil : HasWords [] [] := fun _ => ⟨[], .last (.gap .nil), rfl⟩

section

variable {rest : List Char} {ts : List Token}

theorem HasWords.word {t : Token} (hword : t.isWritable = true) (hend : t.endsBefore rest = true)
    (h : HasWords rest ts) : HasWords (t.chars ++ rest) (t :: ts) := by
  intro before
  obtain ⟨words, hlaid, rfl⟩ := h (before ++ t.chars)
  exact ⟨⟨t, .after before⟩ :: words, .first hword hend rfl hlaid, rfl⟩

theorem HasWords.space (h : HasWords rest ts) : HasWords (' ' :: rest) ts := by
  intro before
  obtain ⟨words, hlaid, rfl⟩ := h (before ++ [' '])
  exact ⟨words, hlaid.gap (.blank (by decide) .nil), rfl⟩

theorem HasWords.quantifier (h : HasWords rest ts) (q : Quantifier) :
    HasWords (q.suffix ++ rest) (q.tokens ++ ts) := by
  cases q with
  | one => exact h
  | zeroOrMore => exact HasWords.word (t := .star) rfl rfl h
  | oneOrMore => exact HasWords.word (t := .plus) rfl rfl h

theorem endsName_quantifier (h : endsName rest = true) (q : Quantifier) :
    endsName (q.suffix ++ rest) = true := by
  cases q with
  | one => exact h
  | _ => rfl

end

theorem HasWords.exists_tokens {text : List Char} {ts : List Token} (h : HasWords text ts) :
    ∃ words, tokens (String.ofList text) = .ok words ∧ words.map (·.token) = ts := by
  obtain ⟨words, hlaid, hwords⟩ := h []
  refine ⟨words, ?_, hwords⟩
  rw [tokens_eq_ok_iff, String.toList_ofList]
  exact scan_eq_ok_iff.mpr hlaid

end Pattern

namespace Clause

open Pattern

/-! ## Well-formed clauses -/

mutual

/-- The names of a clause's literals from left to right, each as often as it stands there. -/
def literalNames : Clause → List String
  | .list body _ => bodyLiteralNames body
  | .group body _ => bodyLiteralNames body
  | .literal name _ => [name]
  | .terminal _ _ => []

/-- The names of the literals in a body. -/
def bodyLiteralNames : List Clause → List String
  | [] => []
  | c :: cs => c.literalNames ++ bodyLiteralNames cs

end

/-- Whether a clause can be written as a pattern: it is no group, no group in it is empty, and
its names are names. -/
structure WellFormed (c : Clause) : Prop where
  root : c.isGroup = false
  filled : c.isFilled = true
  literals : ∀ name ∈ c.literalNames, isName name.toList = true
  terminals : ∀ name ∈ c.terminalNames, isTerminalName name.toList = true

instance (c : Clause) : Decidable c.WellFormed :=
  decidable_of_iff (c.isGroup = false ∧ c.isFilled = true ∧
      (∀ name ∈ c.literalNames, isName name.toList = true) ∧
      ∀ name ∈ c.terminalNames, isTerminalName name.toList = true)
    ⟨fun ⟨h1, h2, h3, h4⟩ => ⟨h1, h2, h3, h4⟩, fun ⟨h1, h2, h3, h4⟩ => ⟨h1, h2, h3, h4⟩⟩

/-- Whether all words of a clause can stand in a text. -/
def Writable (c : Clause) : Prop := ∀ t ∈ c.tokens, t.isWritable = true

theorem isWritable_quantifier (q : Quantifier) : ∀ t ∈ q.tokens, t.isWritable = true := by
  cases q <;> simp [Quantifier.tokens, Token.isWritable]

theorem forall_mem_bodyTokens {body : List Clause} :
    (∀ t ∈ bodyTokens body, t.isWritable = true) ↔ ∀ c ∈ body, c.Writable := by
  induction body with
  | nil => simp [bodyTokens]
  | cons c cs ih => rw [bodyTokens, List.forall_mem_append, ih, List.forall_mem_cons, Writable]

theorem writable_brackets (bracket : Bracket) {body : List Clause} {q : Quantifier} :
    ((bracket.clause body).quantified q).Writable ↔ ∀ c ∈ body, c.Writable := by
  have hopening : bracket.opening.isWritable = true := by cases bracket <;> rfl
  have hclosing : bracket.closing.isWritable = true := by cases bracket <;> rfl
  have htokens : ((bracket.clause body).quantified q).tokens =
      bracket.opening :: (bodyTokens body ++ bracket.closing :: q.tokens) := by
    cases bracket <;> rfl
  rw [← forall_mem_bodyTokens, Writable, htokens, List.forall_mem_cons, List.forall_mem_append,
    List.forall_mem_cons]
  exact ⟨fun h => h.2.1, fun h => ⟨hopening, h, hclosing, isWritable_quantifier q⟩⟩

theorem writable_literal {name : String} {q : Quantifier} :
    (literal name q).Writable ↔ isName name.toList = true := by
  rw [Writable, tokens, List.forall_mem_cons]
  exact ⟨fun h => h.1, fun h => ⟨h, isWritable_quantifier q⟩⟩

theorem writable_terminal {name : String} {q : Quantifier} :
    (terminal name q).Writable ↔ isTerminalName name.toList = true := by
  rw [Writable, tokens, List.forall_mem_cons]
  exact ⟨fun h => h.1, fun h => ⟨h, isWritable_quantifier q⟩⟩

theorem all_writable_iff {body : List Clause}
    (hbody : ∀ c ∈ body, c.Writable ↔ (∀ name ∈ c.literalNames, isName name.toList = true) ∧
      ∀ name ∈ c.terminalNames, isTerminalName name.toList = true) :
    (∀ c ∈ body, c.Writable) ↔ (∀ name ∈ bodyLiteralNames body, isName name.toList = true) ∧
      ∀ name ∈ bodyTerminalNames body, isTerminalName name.toList = true := by
  induction body with
  | nil => simp [bodyLiteralNames, bodyTerminalNames]
  | cons c cs ih =>
    obtain ⟨hc, hcs⟩ := List.forall_mem_cons.mp hbody
    rw [List.forall_mem_cons, hc, ih hcs, bodyLiteralNames, bodyTerminalNames,
      List.forall_mem_append, List.forall_mem_append]
    exact and_and_and_comm

/-- The words of a clause can stand in a text if its names are names. -/
theorem writable_iff {c : Clause} : c.Writable ↔
    (∀ name ∈ c.literalNames, isName name.toList = true) ∧
      ∀ name ∈ c.terminalNames, isTerminalName name.toList = true := by
  induction c with
  | list body q ih =>
    rw [literalNames, terminalNames, ← all_writable_iff ih]
    exact writable_brackets .list
  | group body q ih =>
    rw [literalNames, terminalNames, ← all_writable_iff ih]
    exact writable_brackets .group
  | literal name q => simp [writable_literal, literalNames, terminalNames]
  | terminal name q => simp [writable_terminal, literalNames, terminalNames]

/-! ## Signatures are laid out as the words of their clauses -/

/-- A signature holds the words of its clause, whatever other words follow. -/
def WrittenOut (c : Clause) : Prop := ∀ (rest : List Char) (ts : List Token),
  endsName rest = true → HasWords rest ts → HasWords (c.chars ++ rest) (c.tokens ++ ts)

theorem hasWords_body {body : List Clause} (hbody : ∀ c ∈ body, c.WrittenOut) {rest : List Char}
    {ts : List Token} (hend : endsName rest = true) (h : HasWords rest ts) :
    HasWords (Text.spaced (bodyChars body) ++ rest) (bodyTokens body ++ ts) := by
  induction body with
  | nil => exact h
  | cons c cs ih =>
    obtain ⟨hc, hcs⟩ := List.forall_mem_cons.mp hbody
    cases cs with
    | nil => simpa [Text.spaced, bodyChars, bodyTokens] using hc rest ts hend h
    | cons d ds =>
      have hfirst := hc _ _ (by rfl) (ih hcs).space
      simpa [Text.spaced, bodyChars, bodyTokens] using hfirst

theorem writtenOut_brackets (bracket : Bracket) {body : List Clause}
    (hbody : ∀ c ∈ body, c.WrittenOut) (q : Quantifier) :
    ((bracket.clause body).quantified q).WrittenOut := by
  intro rest ts hend h
  have hclosed : HasWords (bracket.closing.chars ++ (q.suffix ++ rest))
      (bracket.closing :: (q.tokens ++ ts)) := by
    cases bracket <;> exact .word rfl rfl (h.quantifier q)
  have hinside := hasWords_body hbody (by cases bracket <;> rfl) hclosed
  cases bracket with
  | list =>
    have hopened := HasWords.word (t := .openList) rfl rfl hinside
    simpa [Bracket.clause, quantified, chars, tokens, Token.chars, Bracket.closing] using hopened
  | group =>
    have hopened := HasWords.word (t := .openGroup) rfl rfl hinside
    simpa [Bracket.clause, quantified, chars, tokens, Token.chars, Bracket.closing] using hopened

theorem writtenOut {c : Clause} (hc : c.Writable) : c.WrittenOut := by
  induction c with
  | list body q ih =>
    have hbody := (writable_brackets .list).mp hc
    exact writtenOut_brackets .list (fun c hmem => ih c hmem (hbody c hmem)) q
  | group body q ih =>
    have hbody := (writable_brackets .group).mp hc
    exact writtenOut_brackets .group (fun c hmem => ih c hmem (hbody c hmem)) q
  | literal name q =>
    intro rest ts hend h
    have hword := HasWords.word (t := .literal name) (writable_literal.mp hc)
      (endsName_quantifier hend q) (h.quantifier q)
    simpa [chars, tokens, Token.chars] using hword
  | terminal name q =>
    intro rest ts hend h
    have hword := HasWords.word (t := .terminal name) (writable_terminal.mp hc)
      (endsName_quantifier hend q) (h.quantifier q)
    simpa [chars, tokens, Token.chars] using hword

/-! ## The laws -/

/-- The signature of a well-formed clause is a pattern for that clause. -/
theorem read_signature {c : Clause} (hc : c.WellFormed) : read c.signature = .ok c := by
  have hwritable : c.Writable := writable_iff.mpr ⟨hc.literals, hc.terminals⟩
  have hwords := writtenOut hwritable [] [] rfl hasWords_nil
  rw [List.append_nil, List.append_nil] at hwords
  obtain ⟨words, htokens, hwords⟩ := hwords.exists_tokens
  exact read_eq_ok_iff.mpr ⟨words, htokens, hwords, hc.root, hc.filled⟩

/-- Patterns stand for well-formed clauses only. -/
theorem wellFormed_of_read {source : String} {c : Clause} (h : read source = .ok c) :
    c.WellFormed := by
  obtain ⟨words, htokens, hwords, hroot, hfilled⟩ := read_eq_ok_iff.mp h
  have hlaid := scan_eq_ok_iff.mp (tokens_eq_ok_iff.mp htokens)
  have hwritable : c.Writable := by
    intro t ht
    rw [← hwords] at ht
    obtain ⟨word, hword, rfl⟩ := List.mem_map.mp ht
    exact hlaid.isWritable word hword
  obtain ⟨hliterals, hterminals⟩ := writable_iff.mp hwritable
  exact ⟨hroot, hfilled, hliterals, hterminals⟩

/-- Well-formed clauses with the same signature are the same. -/
theorem eq_of_signature_eq {c d : Clause} (hc : c.WellFormed) (hd : d.WellFormed)
    (h : c.signature = d.signature) : c = d := by
  have hread := read_signature hc
  rw [h, read_signature hd] at hread
  exact (Except.ok.inj hread).symm

/-- Signatures and well-formed clauses stand for each other. The signature of a clause is read
back as that clause if and only if the clause is well formed; every pattern stands for a
well-formed clause; and two patterns have the same signature if and only if they stand for the
same clause. -/
theorem signatures_stand_for_clauses :
    (∀ c : Clause, read c.signature = .ok c ↔ c.WellFormed) ∧
    (∀ (source : String) (c : Clause), read source = .ok c → c.WellFormed) ∧
    ∀ (source other : String) (c d : Clause), read source = .ok c → read other = .ok d →
      (c.signature = d.signature ↔ c = d) := by
  refine ⟨fun c => ⟨wellFormed_of_read, read_signature⟩, fun _ _ => wellFormed_of_read, ?_⟩
  intro source other c d hc hd
  constructor
  · exact eq_of_signature_eq (wellFormed_of_read hc) (wellFormed_of_read hd)
  · rintro rfl
    rfl

/-- Two layouts of a pattern with a repeated group. -/
theorem two_layouts_have_one_signature :
    ∃ c d, read "('a ([s ε]+) ε*)" = .ok c ∧ read "( 'a([ s ε ] + );all\nε* )" = .ok d ∧
      c.WellFormed ∧ read c.signature = .ok c ∧ c.signature = d.signature := by
  have hc : read "('a ([s ε]+) ε*)" = .ok (.list [.literal "a" .one,
      .list [.group [.terminal "s" .one, .terminal "ε" .one] .oneOrMore] .one,
      .terminal "ε" .zeroOrMore] .one) := by
    rfl
  have hd : read "( 'a([ s ε ] + );all\nε* )" = .ok (.list [.literal "a" .one,
      .list [.group [.terminal "s" .one, .terminal "ε" .one] .oneOrMore] .one,
      .terminal "ε" .zeroOrMore] .one) := by
    rfl
  have hwell := signatures_stand_for_clauses.2.1 _ _ hc
  exact ⟨_, _, hc, hd, hwell, (signatures_stand_for_clauses.1 _).mpr hwell,
    (signatures_stand_for_clauses.2.2 _ _ _ _ hc hd).mpr rfl⟩

end Clause

end TreePasses
