-- Texts of trees that are not finished, and texts that are wrong. As long as every character can
-- stand where it stands, the text can be brought to an end as a tree; once one cannot, nothing that
-- follows changes that.
import TreePasses.Proofs.TreeText

namespace TreePasses

/-- Whether an error says that the end of a text is missing. -/
def ReadError.isUnfinished : ReadError → Bool
  | .unexpectedEnd => true
  | .unterminatedString _ => true
  | _ => false

namespace Tree

namespace Reading

/-- The tree, if the text goes on like this to its end. -/
def through (r : Reading) (rest : List Char) : Except ReadError Tree := do
  (← rest.foldlM step r).finish

theorem through_append_of_ok {text rest : List Char} {r r' : Reading}
    (h : text.foldlM step r = .ok r') : r.through (text ++ rest) = r'.through rest := by
  rw [through, foldlM_append_of_ok h]
  rfl

theorem through_of_ok {text : List Char} {r r' : Reading} (h : text.foldlM step r = .ok r') :
    r.through text = r'.finish := by
  rw [through, h]
  rfl

theorem through_append_of_error {text : List Char} {r : Reading} {e : ReadError}
    (h : text.foldlM step r = .error e) (rest : List Char) :
    r.through (text ++ rest) = .error e := by
  rw [through, List.foldlM_append, h]
  rfl

/-! ## What can be brought to an end -/

/-- Whatever goes on can be ended: a comment by a line feed, a word by a blank, and quotes by
quotes, after what a backslash still asks for. -/
theorem exists_foldlM_between (r : Reading) :
    ∃ (more : List Char) (r' : Reading), more.foldlM step r = .ok r' ∧ r'.mode = .between := by
  obtain ⟨offset, outline, mode⟩ := r
  cases mode with
  | between => exact ⟨[], _, rfl, rfl⟩
  | comment => exact ⟨['\n'], _, rfl, rfl⟩
  | word chars => exact ⟨[' '], _, rfl, rfl⟩
  | quotes start chars => exact ⟨['"'], _, rfl, rfl⟩
  | backslash start chars place => exact ⟨['"', '"'], _, rfl, rfl⟩

/-- Open lists can be closed one after the other, from the inside out. If none is open and nothing
has been read, an empty list will do. -/
theorem exists_through_between (offset : Nat) (outline : Outline) :
    ∃ more t, through ⟨offset, outline, .between⟩ more = .ok t := by
  cases outline with
  | complete t => exact ⟨[], t, rfl⟩
  | inside lists =>
    induction hn : lists.length generalizing offset lists with
    | zero =>
      obtain rfl := List.eq_nil_of_length_eq_zero hn
      exact ⟨['(', ')'], .list [], rfl⟩
    | succ n ih =>
      obtain ⟨items, outer, rfl⟩ := List.exists_cons_of_length_eq_add_one hn
      cases outer with
      | nil => exact ⟨[')'], .list items.reverse, rfl⟩
      | cons others outer =>
        obtain ⟨more, t, hmore⟩ := ih (offset + ')'.utf8Size)
          ((.list items.reverse :: others) :: outer) (by simpa using hn)
        exact ⟨')' :: more, t, hmore⟩

/-- What has been read so far can be brought to an end. -/
theorem exists_through (r : Reading) : ∃ more t, r.through more = .ok t := by
  obtain ⟨ending, ⟨offset, outline, mode⟩, hending, hmode⟩ := exists_foldlM_between r
  cases hmode
  obtain ⟨closing, t, hclosing⟩ := exists_through_between offset outline
  exact ⟨ending ++ closing, t, by rw [through_append_of_ok hending, hclosing]⟩

/-! ## What errors say -/

theorem isUnfinished_of_finish {r : Reading} {e : ReadError} (h : r.finish = .error e) :
    e.isUnfinished = true := by
  unfold finish at h
  dsimp only at h
  split at h
  · cases h
  · cases h
    rfl
  · rename_i hmode
    cases h
    split at hmode <;> cases hmode <;> rfl

/-- What can be wrong with a character that belongs to nothing before it. -/
theorem begin_eq_error {offset : Nat} {outline : Outline} {c : Char} {e : ReadError}
    (h : begin offset outline c = .error e) :
    (e = .trailingInput offset ∧ ∃ t, outline = .complete t) ∨ e = .unexpectedClose offset := by
  unfold begin at h
  by_cases hblank : Text.isBlank c = true
  · rw [if_pos hblank] at h
    cases h
  by_cases hsemicolon : c = ';'
  · rw [if_neg hblank, if_pos hsemicolon] at h
    cases h
  rw [if_neg hblank, if_neg hsemicolon] at h
  cases outline with
  | complete t =>
    cases h
    exact .inl ⟨rfl, t, rfl⟩
  | inside lists =>
    right
    dsimp only at h
    by_cases hopen : c = '('
    · rw [if_pos hopen] at h
      cases h
    by_cases hclose : c = ')'
    · rw [if_neg hopen, if_pos hclose] at h
      cases lists with
      | nil =>
        cases h
        rfl
      | cons items outer => cases h
    rw [if_neg hopen, if_neg hclose] at h
    split at h <;> cases h

/-- What can be wrong with a character: a tree is complete before it, or it closes a list that was
never opened, or it stands after a backslash and needs none. -/
theorem step_eq_error {r : Reading} {c : Char} {e : ReadError} (h : r.step c = .error e) :
    (e = .trailingInput r.offset ∧ ∃ t, r.finish = .ok t) ∨ e = .unexpectedClose r.offset ∨
      ∃ offset, e = .unknownEscape c offset := by
  obtain ⟨offset, outline, mode⟩ := r
  cases mode with
  | between =>
    rcases bind_eq_error_iff.mp h with hbegin | ⟨_, -, hreturn⟩
    · rcases begin_eq_error hbegin with ⟨rfl, t, rfl⟩ | rfl
      · exact .inl ⟨rfl, t, rfl⟩
      · exact .inr (.inl rfl)
    · cases hreturn
  | comment => cases h
  | word chars =>
    by_cases hc : Atom.isWordChar c = true
    · simp only [step, hc, if_true] at h
      cases h
    · simp only [step, hc] at h
      rcases bind_eq_error_iff.mp h with hbegin | ⟨_, -, hreturn⟩
      · rcases begin_eq_error hbegin with ⟨rfl, t, houtline⟩ | rfl
        · refine .inl ⟨rfl, t, ?_⟩
          simp only [finish, houtline]
        · exact .inr (.inl rfl)
      · cases hreturn
  | quotes start chars =>
    unfold step at h
    dsimp only at h
    split at h
    · cases h
    · split at h <;> cases h
  | backslash start chars place =>
    unfold step at h
    dsimp only at h
    split at h <;> cases h
    exact .inr (.inr ⟨place, rfl⟩)

theorem offset_step {r r' : Reading} {c : Char} (h : r.step c = .ok r') :
    r'.offset = r.offset + c.utf8Size := by
  unfold step at h
  dsimp only at h
  split at h
  · obtain ⟨_, -, hreturn⟩ := bind_eq_ok_iff.mp h
    cases hreturn
    rfl
  · cases h
    rfl
  · split at h
    · cases h
      rfl
    · obtain ⟨_, -, hreturn⟩ := bind_eq_ok_iff.mp h
      cases hreturn
      rfl
  · split at h
    · cases h
      rfl
    · split at h <;> cases h <;> rfl
  · split at h <;> cases h
    rfl

/-- The offset counts the bytes that have been read. -/
theorem offset_foldlM {text : List Char} {r : Reading} (h : text.foldlM step start = .ok r) :
    r.offset = (String.ofList text).utf8ByteSize := by
  refine foldlM_induction (motive := fun text r => r.offset = (String.ofList text).utf8ByteSize) h
    rfl ?_
  intro before r' c next hr' hstep
  rw [offset_step hstep, hr', String.ofList_append, String.utf8ByteSize_append]
  simp

/-- An error among the characters says that the text is wrong, however it goes on; and what follows
a tree is an error right after a text that is that tree. -/
theorem wrong_of_foldlM {text : List Char} {e : ReadError}
    (h : text.foldlM step start = .error e) :
    e.isUnfinished = false ∧ ∀ offset, e = .trailingInput offset →
      ∃ front back t, text = front ++ back ∧ (String.ofList front).utf8ByteSize = offset ∧
        read front = .ok t := by
  obtain ⟨front, c, back, r, rfl, hfront, herror⟩ := exists_of_foldlM_eq_error h
  rcases step_eq_error herror with ⟨rfl, t, ht⟩ | rfl | ⟨place, rfl⟩
  · refine ⟨rfl, ?_⟩
    rintro offset ⟨⟩
    exact ⟨front, c :: back, t, rfl, (offset_foldlM hfront).symm, (through_of_ok hfront).trans ht⟩
  · exact ⟨rfl, fun _ h => by cases h⟩
  · exact ⟨rfl, fun _ h => by cases h⟩

end Reading

/-! ## The laws -/

/-- Reading a text tells whether its end is missing. The error says so if and only if the text is no
tree, but can be continued to one; and any other error is there however the text goes on. What
follows a tree is an error right after a text that is that tree. -/
theorem unfinished_trees_are_told_from_wrong_ones (text : List Char) :
    ((∃ e, read text = .error e ∧ e.isUnfinished = true) ↔
      (∀ t, read text ≠ .ok t) ∧ ∃ more t, read (text ++ more) = .ok t) ∧
    (∀ e, read text = .error e → e.isUnfinished = false →
      ∀ more, read (text ++ more) = .error e) ∧
    ∀ offset, read text = .error (.trailingInput offset) →
      ∃ front back t, text = front ++ back ∧ (String.ofList front).utf8ByteSize = offset ∧
        read front = .ok t := by
  cases htext : text.foldlM Reading.step Reading.start with
  | error e =>
    obtain ⟨hwrong, htrailing⟩ := Reading.wrong_of_foldlM htext
    have hmore : ∀ more, read (text ++ more) = .error e := Reading.through_append_of_error htext
    have hread : read text = .error e := by simpa using hmore []
    refine ⟨⟨?_, ?_⟩, ?_, ?_⟩
    · rintro ⟨e', he', hunfinished⟩
      cases hread.symm.trans he'
      rw [hwrong] at hunfinished
      cases hunfinished
    · rintro ⟨-, more, t, ht⟩
      cases (hmore more).symm.trans ht
    · intro e' he' _ more
      rw [hmore more, ← hread, he']
    · intro offset hoffset
      exact htrailing offset (Except.error.inj (hread.symm.trans hoffset))
  | ok r =>
    have hread : read text = r.finish := Reading.through_of_ok htext
    have hunfinished : ∀ e, read text = .error e → e.isUnfinished = true := by
      intro e he
      exact Reading.isUnfinished_of_finish (hread.symm.trans he)
    refine ⟨⟨?_, ?_⟩, ?_, ?_⟩
    · rintro ⟨e, he, -⟩
      obtain ⟨more, t, ht⟩ := r.exists_through
      refine ⟨fun t ht => ?_, more, t, (Reading.through_append_of_ok htext).trans ht⟩
      cases he.symm.trans ht
    · rintro ⟨hno, -⟩
      cases he : read text with
      | ok t => exact absurd he (hno t)
      | error e => exact ⟨e, rfl, hunfinished e he⟩
    · intro e he hwrong
      rw [hunfinished e he] at hwrong
      cases hwrong
    · intro offset hoffset
      cases hunfinished _ hoffset

/-- A text that ends after a backslash in a list is missing its end, and so is one that ends in a
comment. A second tree is wrong right where it starts, whatever follows it. -/
theorem an_open_text_is_unfinished_and_a_second_tree_is_wrong :
    (read "(a \"b\\".toList = .error (.unterminatedString 3) ∧
      ∃ more t, read ("(a \"b\\".toList ++ more) = .ok t) ∧
    (read "(a ;)".toList = .error .unexpectedEnd ∧
      ∃ more t, read ("(a ;)".toList ++ more) = .ok t) ∧
    read "(ε) 1".toList = .error (.trailingInput 5) ∧
      (∀ more, read ("(ε) 1".toList ++ more) = .error (.trailingInput 5)) ∧
      ∃ front back t, "(ε) 1".toList = front ++ back ∧
        (String.ofList front).utf8ByteSize = 5 ∧ read front = .ok t := by
  have hquotes : read "(a \"b\\".toList = .error (.unterminatedString 3) := rfl
  have hcomment : read "(a ;)".toList = .error .unexpectedEnd := rfl
  have hsecond : read "(ε) 1".toList = .error (.trailingInput 5) := rfl
  obtain ⟨-, hwrong, htrailing⟩ := unfinished_trees_are_told_from_wrong_ones "(ε) 1".toList
  exact ⟨⟨hquotes, ((unfinished_trees_are_told_from_wrong_ones _).1.mp ⟨_, hquotes, rfl⟩).2⟩,
    ⟨hcomment, ((unfinished_trees_are_told_from_wrong_ones _).1.mp ⟨_, hcomment, rfl⟩).2⟩,
    hsecond, hwrong _ hsecond rfl, htrailing _ hsecond⟩

end Tree

end TreePasses
