-- Patterns that are not finished, and patterns that are wrong. As long as reading goes on, the
-- words read so far can be completed to a pattern; where it stops at a word, they cannot be with
-- that word. So a fault at the end of the text says that words are missing, and any other fault
-- that what is there is wrong from some word on.
import TreePasses.Proofs.Signatures

namespace TreePasses

open Pattern (Token PlacedToken)
open Text (Position)

namespace Clause

/-! ## Starts of patterns -/

/-- Whether words are those of a pattern: of a well-formed clause. -/
def IsPattern (ts : List Token) : Prop := ∃ c : Clause, c.WellFormed ∧ c.tokens = ts

/-- Whether a pattern starts with words. -/
def StartsPattern (ts : List Token) : Prop := ∃ us, IsPattern us ∧ ts <+: us

theorem isPattern_of_writable {c : Clause} (hgroup : c.isGroup = false) (hfilled : c.isFilled = true)
    (hwritable : ∀ t ∈ c.tokens, t.isWritable = true) : IsPattern c.tokens := by
  obtain ⟨hliterals, hterminals⟩ := writable_iff.mp hwritable
  exact ⟨c, ⟨hgroup, hfilled, hliterals, hterminals⟩, rfl⟩

/-! ## What has been read can be completed -/

/-- An open bracket can be closed. An empty group gets something to hold first. -/
theorem exists_closed {f : Frame} (hf : allFilled f.body = true) : ∃ more body,
    f.written ++ more = (f.bracket.clause body).tokens ∧
      (f.bracket.clause body).isFilled = true ∧ ∀ t ∈ more, t.isWritable = true := by
  obtain ⟨bracket, opened, body⟩ := f
  have hbody : allFilled body.reverse = true := by rwa [allFilled_reverse]
  cases bracket with
  | list =>
    refine ⟨[.closeList], body.reverse, ?_, ?_, ?_⟩
    · simp [Frame.written, Bracket.opening, Bracket.clause, tokens, Quantifier.tokens]
    · simpa [Bracket.clause, isFilled] using hbody
    · simp [Token.isWritable]
  | group =>
    by_cases hnil : body = []
    · subst hnil
      refine ⟨[.openList, .closeList, .closeGroup], [.list [] .one], ?_, rfl, ?_⟩
      · simp [Frame.written, Bracket.opening, Bracket.clause, tokens, bodyTokens, Quantifier.tokens]
      · simp [Token.isWritable]
    · refine ⟨[.closeGroup], body.reverse, ?_, ?_, ?_⟩
      · simp [Frame.written, Bracket.opening, Bracket.clause, tokens, Quantifier.tokens]
      · simp [Bracket.clause, isFilled, hbody, hnil]
      · simp [Token.isWritable]

/-- Open brackets can be closed one after the other, from the inside out. -/
theorem exists_completion {f : Frame} {fs : List Frame} (h : FramesGood (f :: fs)) : ∃ more c,
    framesWritten (f :: fs) ++ more = tokens c ∧ c.isGroup = false ∧ c.isFilled = true ∧
      ∀ t ∈ more, t.isWritable = true := by
  induction fs generalizing f with
  | nil =>
    obtain ⟨hfilled, hroot, -⟩ := h
    obtain ⟨more, body, hclosed, hclause, hmore⟩ := exists_closed hfilled
    refine ⟨more, _, hclosed, ?_, hclause, hmore⟩
    rw [hroot rfl]
    rfl
  | cons g gs ih =>
    obtain ⟨hfilled, -, hg⟩ := h
    obtain ⟨more, body, hclosed, hclause, hmore⟩ := exists_closed hfilled
    -- What the bracket encloses is one more clause in the bracket around it.
    have hnext : FramesGood ({ g with body := f.bracket.clause body :: g.body } :: gs) :=
      ⟨by simp [allFilled, hclause, hg.1], hg.2⟩
    obtain ⟨more', c, hwords, hgroup, hc, hmore'⟩ := ih hnext
    refine ⟨more ++ more', c, ?_, hgroup, hc, List.forall_mem_append.mpr ⟨hmore, hmore'⟩⟩
    have hpush := Progress.written_push (f.bracket.clause body) (g :: gs)
    rw [← hclosed] at hpush
    calc framesWritten (f :: g :: gs) ++ (more ++ more')
        = framesWritten (g :: gs) ++ (f.written ++ more) ++ more' := by simp [framesWritten]
      _ = c.tokens := by rw [← hpush]; exact hwords

theorem startsPattern_written {p : Progress} (hp : p.Good)
    (hwritable : ∀ t ∈ p.written, t.isWritable = true) : StartsPattern p.written := by
  cases p with
  | start => exact ⟨_, ⟨.list [] .one, by decide, rfl⟩, List.nil_prefix⟩
  | inside top outer fresh =>
    obtain ⟨more, c, hwords, hgroup, hfilled, hmore⟩ := exists_completion hp.1
    refine ⟨c.tokens, isPattern_of_writable hgroup hfilled ?_, ⟨more, hwords⟩⟩
    rw [← hwords]
    exact List.forall_mem_append.mpr ⟨hwritable, hmore⟩
  | complete root fresh =>
    exact ⟨root.tokens, isPattern_of_writable hp.1 hp.2.1 hwritable, List.prefix_refl _⟩

/-! ## Reading goes on as long as it can -/

section

variable {words : List PlacedToken}

theorem ofTokens_of_foldlM {p : Progress} (h : words.foldlM Progress.step .start = .ok p)
    (last : Position) : ofTokens words last = p.finish last := by
  rw [ofTokens, h]
  rfl

/-- Words are read without a fault if and only if a pattern starts with them. -/
theorem exists_progress_iff (hwritable : ∀ t ∈ words, t.token.isWritable = true) :
    (∃ p, words.foldlM Progress.step .start = .ok p) ↔ StartsPattern (words.map (·.token)) := by
  constructor
  · rintro ⟨p, hp⟩
    have hstart : Progress.start.Good := trivial
    obtain ⟨hgood, hwritten⟩ := Progress.foldlM_step_adds hstart hp
    have hwords : p.written = words.map (·.token) := hwritten
    rw [← hwords]
    apply startsPattern_written hgood
    rw [hwords]
    simpa using hwritable
  · rintro ⟨us, ⟨c, hc, hus⟩, more, hmore⟩
    -- The words are read as part of the pattern that starts with them.
    have hall : ofTokens (words ++ more.map (⟨·, .start⟩)) .start = .ok c := by
      refine ofTokens_eq_ok_iff.mpr ⟨?_, hc.root, hc.filled⟩
      rw [hus, ← hmore]
      simp [Function.comp_def]
    unfold ofTokens at hall
    rw [List.foldlM_append] at hall
    cases hp : words.foldlM Progress.step .start with
    | error e =>
      rw [hp] at hall
      cases hall
    | ok p => exact ⟨p, rfl⟩

theorem isPattern_of_ofTokens (hwritable : ∀ t ∈ words, t.token.isWritable = true)
    {last : Position} {c : Clause} (h : ofTokens words last = .ok c) :
    IsPattern (words.map (·.token)) := by
  obtain ⟨hwords, hgroup, hfilled⟩ := words_of_ofTokens h
  rw [hwords]
  apply isPattern_of_writable hgroup hfilled
  rw [← hwords]
  simpa using hwritable

theorem not_isPattern_of_ofTokens {last : Position} {e : FaultAt}
    (h : ofTokens words last = .error e) : ¬ IsPattern (words.map (·.token)) := by
  rintro ⟨c, hc, hwords⟩
  rw [ofTokens_eq_ok_iff.mpr ⟨hwords.symm, hc.root, hc.filled⟩] at h
  cases h

end

/-! ## Brackets left open -/

/-- The brackets left open after one more word, the innermost first. A closing bracket closes the
innermost. -/
def openedBy (brackets : List PlacedToken) (t : PlacedToken) : List PlacedToken :=
  match t.token with
  | .openList => t :: brackets
  | .openGroup => t :: brackets
  | .closeList => brackets.tail
  | .closeGroup => brackets.tail
  | _ => brackets

/-- The brackets that words leave open, the innermost first. -/
def leftOpen (words : List PlacedToken) : List PlacedToken := words.foldl openedBy []

theorem leftOpen_subset {words : List PlacedToken} : leftOpen words ⊆ words := by
  induction words using List.reverseRecOn with
  | nil => simp [leftOpen]
  | append_singleton words t ih =>
    have hstep : openedBy (leftOpen words) t ⊆ t :: words := by
      have hmore : leftOpen words ⊆ t :: words := List.subset_cons_of_subset t ih
      unfold openedBy
      split
      · exact List.cons_subset_cons t ih
      · exact List.cons_subset_cons t ih
      · exact fun b hb => hmore (List.mem_of_mem_tail hb)
      · exact fun b hb => hmore (List.mem_of_mem_tail hb)
      · exact hmore
    rw [leftOpen, List.foldl_append]
    intro b hb
    simpa [or_comm] using hstep hb

namespace Progress

/-- The words that opened the brackets around the next word. -/
def opened (p : Progress) : List PlacedToken :=
  p.frames.map fun f => ⟨f.bracket.opening, f.opened⟩

theorem opened_push (c : Clause) (fs : List Frame) :
    (push c fs).opened = fs.map fun f => ⟨f.bracket.opening, f.opened⟩ := by
  cases fs <;> rfl

theorem opened_quantify {p p' : Progress} {q : Quantifier} {t : PlacedToken}
    (h : p.quantify q t = .ok p') : p'.opened = p.opened := by
  unfold quantify at h
  split at h <;> cases h <;> rfl

theorem opened_word {p p' : Progress} {c : Clause} {t : PlacedToken}
    (h : p.word c t = .ok p') : p'.opened = p.opened := by
  unfold word at h
  split at h
  · cases h
  · cases h
    exact opened_push c p.frames

theorem opened_openBracket {p p' : Progress} {bracket : Bracket} {t : PlacedToken}
    (h : p.openBracket bracket t = .ok p') :
    p'.opened = ⟨bracket.opening, t.position⟩ :: p.opened := by
  unfold openBracket at h
  split at h
  · cases h
  · cases h
    rfl
  · cases bracket <;> cases h
    rfl

theorem opened_close {p p' : Progress} {bracket : Bracket} {t : PlacedToken}
    (h : p.close bracket t = .ok p') : p'.opened = p.opened.tail := by
  obtain ⟨opened, body, outer, fresh, rfl, -, rfl⟩ := exists_of_close_eq_ok h
  exact opened_push _ outer

/-- A word opens or closes the bracket that it stands for. -/
theorem opened_step {p p' : Progress} {t : PlacedToken} (h : p.step t = .ok p') :
    p'.opened = openedBy p.opened t := by
  obtain ⟨token, position⟩ := t
  cases token with
  | openList => exact opened_openBracket h
  | openGroup => exact opened_openBracket h
  | closeList => exact opened_close h
  | closeGroup => exact opened_close h
  | star => exact opened_quantify h
  | plus => exact opened_quantify h
  | literal name => exact opened_word h
  | terminal name => exact opened_word h

theorem opened_foldlM {words : List PlacedToken} {p p' : Progress}
    (h : words.foldlM step p = .ok p') : p'.opened = words.foldl openedBy p.opened := by
  refine foldlM_induction (motive := fun ts p' => p'.opened = ts.foldl openedBy p.opened) h rfl ?_
  intro before p' t next hp' hstep
  rw [opened_step hstep, hp', List.foldl_append]
  rfl

/-! ## Where reading stops -/

/-- A fault says of a word that it cannot stand where it stands. -/
def Refuses (t : PlacedToken) (e : FaultAt) : Prop :=
  (e.1 = .unexpected t.token ∨ e.1 = .trailing t.token) ∧ e.2 = t.position

section

variable {p : Progress} {t : PlacedToken} {e : FaultAt}

theorem quantify_eq_error {q : Quantifier} (h : p.quantify q t = .error e) : Refuses t e := by
  unfold quantify at h
  split at h <;> cases h
  · exact ⟨.inr rfl, rfl⟩
  · exact ⟨.inl rfl, rfl⟩

theorem word_eq_error {c : Clause} (h : p.word c t = .error e) : Refuses t e := by
  unfold word at h
  split at h <;> cases h
  exact ⟨.inr rfl, rfl⟩

theorem openBracket_eq_error {bracket : Bracket} (h : p.openBracket bracket t = .error e) :
    Refuses t e ∨ bracket = .group ∧ p = .start ∧ e = (.groupOutsideList, t.position) := by
  unfold openBracket at h
  split at h
  · cases h
    exact .inl ⟨.inr rfl, rfl⟩
  · cases h
  · cases bracket <;> cases h
    exact .inr ⟨rfl, rfl, rfl⟩

theorem close_eq_error {bracket : Bracket} (h : p.close bracket t = .error e) :
    Refuses t e ∨ bracket = .group ∧ e.1 = .emptyGroup ∧
      ∃ outer fresh, p = .inside ⟨.group, e.2, []⟩ outer fresh := by
  cases p with
  | start =>
    cases h
    exact .inl ⟨.inl rfl, rfl⟩
  | complete root fresh =>
    cases h
    exact .inl ⟨.inr rfl, rfl⟩
  | inside top outer fresh =>
    obtain ⟨kind, opened, body⟩ := top
    cases kind <;> cases bracket <;> cases body <;> cases h
    all_goals first
      | exact .inl ⟨.inl rfl, rfl⟩
      | exact .inr ⟨rfl, rfl, outer, fresh, rfl⟩

/-- What a fault at a word says: the word cannot stand there, or it closes an empty group, or it
opens a group outside every list. -/
theorem step_eq_error (h : p.step t = .error e) :
    Refuses t e ∨
      t.token = .closeGroup ∧ e.1 = .emptyGroup ∧
        (∃ outer fresh, p = .inside ⟨.group, e.2, []⟩ outer fresh) ∨
      t.token = .openGroup ∧ p = .start ∧ e = (.groupOutsideList, t.position) := by
  obtain ⟨token, position⟩ := t
  cases token with
  | openList =>
    rcases openBracket_eq_error h with h | ⟨hgroup, -⟩
    · exact .inl h
    · cases hgroup
  | openGroup =>
    rcases openBracket_eq_error h with h | ⟨-, hp, he⟩
    · exact .inl h
    · exact .inr (.inr ⟨rfl, hp, he⟩)
  | closeList =>
    rcases close_eq_error h with h | ⟨hgroup, -⟩
    · exact .inl h
    · cases hgroup
  | closeGroup =>
    rcases close_eq_error h with h | ⟨-, hfault, hp⟩
    · exact .inl h
    · exact .inr (.inl ⟨rfl, hfault, hp⟩)
  | star => exact .inl (quantify_eq_error h)
  | plus => exact .inl (quantify_eq_error h)
  | literal name => exact .inl (word_eq_error h)
  | terminal name => exact .inl (word_eq_error h)

end

end Progress

/-! ## What faults say -/

/-- Reading stops at the word after some words: a pattern starts with those, and none with that word
as well. -/
def StopsAt (before : List PlacedToken) (word : PlacedToken) : Prop :=
  StartsPattern (before.map (·.token)) ∧ ¬ StartsPattern ((before ++ [word]).map (·.token))

/-- What a fault says of words in a text that ends at `last`, by the place of the fault. -/
def Explains (words : List PlacedToken) (last place : Position) : Fault → Prop
  | .unterminatedList => (leftOpen words).head? = some ⟨.openList, place⟩
  | .unterminatedGroup => (leftOpen words).head? = some ⟨.openGroup, place⟩
  | .emptyPattern => words = [] ∧ place = last
  | .unexpected token => ∃ before rest,
      words = before ++ ⟨token, place⟩ :: rest ∧ StopsAt before ⟨token, place⟩
  | .trailing token => ∃ before rest,
      words = before ++ ⟨token, place⟩ :: rest ∧ StopsAt before ⟨token, place⟩
  | .emptyGroup => ∃ before close rest,
      words = before ++ ⟨.openGroup, place⟩ :: close :: rest ∧ close.token = .closeGroup ∧
        StopsAt (before ++ [⟨.openGroup, place⟩]) close
  | .groupOutsideList => words.head? = some ⟨.openGroup, place⟩

/-- Whether a fault says that words are missing. -/
def Fault.isUnfinished : Fault → Bool
  | .unterminatedList => true
  | .unterminatedGroup => true
  | .emptyPattern => true
  | _ => false

section

variable {words : List PlacedToken} {last place : Position} {fault : Fault}

/-- A group that is open and empty was opened by the word just read. -/
theorem exists_openGroup {p : Progress} {outer : List Frame} {fresh : Bool}
    (hp : p = .inside ⟨.group, place, []⟩ outer fresh)
    (hread : words.foldlM Progress.step .start = .ok p) :
    ∃ before, words = before ++ [⟨.openGroup, place⟩] := by
  subst hp
  have hstart : Progress.start.Good := trivial
  obtain ⟨-, hwritten⟩ := Progress.foldlM_step_adds hstart hread
  have hopened : _ = leftOpen words := Progress.opened_foldlM hread
  cases words using List.reverseRecOn with
  | nil => simp [Progress.written, framesWritten, Frame.written] at hwritten
  | append_singleton before word =>
    have htoken : word.token = .openGroup := by
      have hlast := congrArg List.getLast? hwritten
      simpa [Progress.written, framesWritten, Frame.written, bodyTokens, Bracket.opening]
        using hlast.symm
    have hleft : leftOpen (before ++ [word]) = word :: leftOpen before := by
      simp [leftOpen, openedBy, htoken]
    rw [hleft] at hopened
    have hword : (⟨.openGroup, place⟩ : PlacedToken) = word := (List.cons.inj hopened).1
    exact ⟨before, by rw [hword]⟩

theorem stopsAt_of_step {before : List PlacedToken} {word : PlacedToken} {p : Progress} {e : FaultAt}
    (hwritable : ∀ t ∈ before ++ [word], t.token.isWritable = true)
    (hread : before.foldlM Progress.step .start = .ok p) (hstep : p.step word = .error e) :
    StopsAt before word := by
  have hbefore : ∀ t ∈ before, t.token.isWritable = true := by
    intro t ht
    exact hwritable t (by simp [ht])
  refine ⟨(exists_progress_iff hbefore).mp ⟨p, hread⟩, ?_⟩
  rw [← exists_progress_iff hwritable]
  rintro ⟨p', hp'⟩
  rw [List.foldlM_append, hread] at hp'
  change [word].foldlM Progress.step p = .ok p' at hp'
  rw [List.foldlM_cons, hstep] at hp'
  cases hp'

theorem explains_of_foldlM_eq_error (hwritable : ∀ t ∈ words, t.token.isWritable = true)
    (h : words.foldlM Progress.step .start = .error (fault, place)) :
    Explains words last place fault ∧ fault.isUnfinished = false := by
  obtain ⟨before, word, rest, p, rfl, hread, hstep⟩ := exists_of_foldlM_eq_error h
  have hstops : StopsAt before word := by
    apply stopsAt_of_step _ hread hstep
    intro t ht
    exact hwritable t (by simp only [List.mem_append, List.mem_cons] at ht ⊢; tauto)
  obtain ⟨token, position⟩ := word
  rcases Progress.step_eq_error hstep with ⟨hfault, hplace⟩ | ⟨htoken, hfault, hp⟩ |
    ⟨htoken, hp, he⟩
  · cases hplace
    rcases hfault with hfault | hfault
    · cases hfault
      exact ⟨⟨before, rest, rfl, hstops⟩, rfl⟩
    · cases hfault
      exact ⟨⟨before, rest, rfl, hstops⟩, rfl⟩
  · cases hfault
    cases htoken
    obtain ⟨outer, fresh, hp⟩ := hp
    obtain ⟨front, rfl⟩ := exists_openGroup hp hread
    exact ⟨⟨front, ⟨.closeGroup, position⟩, rest, by simp, rfl, hstops⟩, rfl⟩
  · cases he
    cases htoken
    subst hp
    have hstart : Progress.start.Good := trivial
    obtain ⟨-, hwritten⟩ := Progress.foldlM_step_adds hstart hread
    have hnil : before = [] := by simpa [Progress.written] using hwritten.symm
    subst hnil
    exact ⟨rfl, rfl⟩

theorem explains_of_finish_eq_error {p : Progress}
    (hread : words.foldlM Progress.step .start = .ok p)
    (h : p.finish last = .error (fault, place)) :
    Explains words last place fault ∧ fault.isUnfinished = true := by
  have hopened : p.opened = leftOpen words := Progress.opened_foldlM hread
  cases p with
  | start =>
    cases h
    have hstart : Progress.start.Good := trivial
    obtain ⟨-, hwritten⟩ := Progress.foldlM_step_adds hstart hread
    exact ⟨⟨by simpa [Progress.written] using hwritten.symm, rfl⟩, rfl⟩
  | complete root fresh => cases h
  | inside top outer fresh =>
    obtain ⟨bracket, opened, body⟩ := top
    cases bracket <;> cases h
    all_goals
      refine ⟨?_, rfl⟩
      rw [Explains, ← hopened]
      rfl

/-- Each fault says what is the matter with the words, and whether words are missing. -/
theorem explains_of_ofTokens (hwritable : ∀ t ∈ words, t.token.isWritable = true)
    (h : ofTokens words last = .error (fault, place)) :
    Explains words last place fault ∧
      (fault.isUnfinished = true ↔ StartsPattern (words.map (·.token))) := by
  cases hread : words.foldlM Progress.step .start with
  | error e =>
    have he : (.error e : Except FaultAt Clause) = .error (fault, place) := by
      rw [← h, ofTokens, hread]
      rfl
    cases he
    obtain ⟨hexplains, hfault⟩ : Explains words last place fault ∧ fault.isUnfinished = false :=
      explains_of_foldlM_eq_error hwritable hread
    refine ⟨hexplains, by simp [hfault], ?_⟩
    intro hstarts
    obtain ⟨p, hp⟩ := (exists_progress_iff hwritable).mpr hstarts
    rw [hread] at hp
    cases hp
  | ok p =>
    rw [ofTokens_of_foldlM hread] at h
    obtain ⟨hexplains, hfault⟩ := explains_of_finish_eq_error hread h
    exact ⟨hexplains, fun _ => (exists_progress_iff hwritable).mp ⟨p, hread⟩, fun _ => hfault⟩

end

/-! ## The laws -/

/-- Reading a text that can be cut into words tells whether words are missing. There is a fault at
the end, with a bracket left open or no word at all, if and only if the words are no pattern but a
pattern starts with them. The place of such a fault is the innermost bracket left open, which is of
the kind that the fault names, or the end of the text if there are no words. At any other fault a
pattern starts with the words before the one at fault, and none with that word as well; a group is
at fault by the word that opens it. -/
theorem unfinished_patterns_are_told_from_wrong_ones (source : String)
    (hsize : source.utf8ByteSize < UInt32.size - 1) (words : List PlacedToken)
    (hwords : Pattern.tokens source = .ok words) :
    ((∃ cause, read source = .error (.shape cause) ∧ cause.fault.isUnfinished = true) ↔
      ¬ IsPattern (words.map (·.token)) ∧
        ∃ us, IsPattern us ∧ words.map (·.token) <+: us ∧ words.map (·.token) ≠ us) ∧
    ∃ last, Position.IsAfter source.toList last ∧ ∀ cause, read source = .error (.shape cause) →
      Explains words last cause.position cause.fault := by
  have hwritable : ∀ t ∈ words, t.token.isWritable = true :=
    (Pattern.scan_eq_ok_iff.mp (Pattern.tokens_eq_ok_iff.mp hwords)).isWritable
  have hread := read_of_tokens hwords
  have hlast : Position.IsAfter source.toList (.after source.toList) :=
    (Position.isAfter_iff (by simpa using hsize)).mpr rfl
  cases hresult : ofTokens words (.after source.toList) with
  | ok c =>
    rw [hresult] at hread
    have hpattern := isPattern_of_ofTokens hwritable hresult
    refine ⟨⟨?_, fun h => absurd hpattern h.1⟩, _, hlast, ?_⟩
    · rintro ⟨cause, hcause, -⟩
      cases hread.symm.trans hcause
    · intro cause hcause
      cases hread.symm.trans hcause
  | error e =>
    obtain ⟨fault, place⟩ := e
    rw [hresult] at hread
    have hno := not_isPattern_of_ofTokens hresult
    obtain ⟨hexplains, hunfinished⟩ := explains_of_ofTokens hwritable hresult
    refine ⟨⟨?_, ?_⟩, _, hlast, ?_⟩
    · rintro ⟨cause, hcause, hfault⟩
      cases hread.symm.trans hcause
      obtain ⟨us, hus, hprefix⟩ := hunfinished.mp hfault
      exact ⟨hno, us, hus, hprefix, fun heq => hno (heq ▸ hus)⟩
    · rintro ⟨-, us, hus, hprefix, -⟩
      exact ⟨_, hread, hunfinished.mpr ⟨us, hus, hprefix⟩⟩
    · intro cause hcause
      cases hread.symm.trans hcause
      exact hexplains

/-- The words of a list that is open in an open group, after a list that is closed. -/
def listInGroup : List PlacedToken :=
  [⟨.openList, ⟨0, 1, 1⟩⟩, ⟨.literal "a", ⟨1, 1, 2⟩⟩, ⟨.openGroup, ⟨4, 1, 5⟩⟩,
    ⟨.openList, ⟨5, 1, 6⟩⟩, ⟨.terminal "s", ⟨6, 1, 7⟩⟩, ⟨.closeList, ⟨7, 1, 8⟩⟩,
    ⟨.openList, ⟨9, 1, 10⟩⟩, ⟨.terminal "ε", ⟨10, 1, 11⟩⟩]

/-- The list is missing its end. Where the end of the group stands instead, the words are wrong. -/
theorem a_list_that_is_open_in_a_group_is_unfinished :
    (∃ cause, read "('a [(s) (ε" = .error (.shape cause) ∧ cause.fault = .unterminatedList ∧
      (leftOpen listInGroup).head? = some ⟨.openList, cause.position⟩) ∧
    StartsPattern (listInGroup.map (·.token)) ∧
    ∃ cause last, read "('a [(s) (ε]" = .error (.shape cause) ∧
      cause.fault = .unexpected .closeGroup ∧
      Explains (listInGroup ++ [⟨.closeGroup, ⟨12, 1, 12⟩⟩]) last cause.position cause.fault := by
  have hopen : read "('a [(s) (ε" = .error (.shape (.of "('a [(s) (ε".toList
      .unterminatedList ⟨9, 1, 10⟩)) := by rfl
  have hclosed : read "('a [(s) (ε]" = .error (.shape (.of "('a [(s) (ε]".toList
      (.unexpected .closeGroup) ⟨12, 1, 12⟩)) := by rfl
  obtain ⟨hmissing, last, -, hplace⟩ := unfinished_patterns_are_told_from_wrong_ones "('a [(s) (ε"
    (by decide) listInGroup (by decide)
  obtain ⟨-, last', -, hwrong⟩ := unfinished_patterns_are_told_from_wrong_ones "('a [(s) (ε]"
    (by decide) (listInGroup ++ [⟨.closeGroup, ⟨12, 1, 12⟩⟩]) (by decide)
  obtain ⟨-, us, hus, hprefix, -⟩ := hmissing.mp ⟨_, hopen, rfl⟩
  exact ⟨⟨_, hopen, rfl, hplace _ hopen⟩, ⟨us, hus, hprefix⟩, _, last', hclosed, rfl,
    hwrong _ hclosed⟩

end Clause

end TreePasses
