-- The text of a tree, read back. Whatever the reader makes has only symbols that are words of their
-- own, and a tree with such symbols and without floating numbers is read from its text as it was.
import TreePasses.Proofs.Steps
import TreePasses.Tree.Printer
import TreePasses.Tree.Reader

namespace TreePasses

/-! ## Atoms and readable names -/

namespace Tree

mutual

/-- The atoms of a tree from left to right. -/
def atoms : Tree → List Atom
  | .atom a => [a]
  | .list items => allAtoms items

/-- The atoms of trees from left to right. -/
def allAtoms : List Tree → List Atom
  | [] => []
  | t :: ts => t.atoms ++ allAtoms ts

end

theorem mem_allAtoms_iff {a : Atom} {ts : List Tree} :
    a ∈ allAtoms ts ↔ ∃ t ∈ ts, a ∈ t.atoms := by
  induction ts with
  | nil => simp [allAtoms]
  | cons t ts ih => simp [allAtoms, ih]

theorem allAtoms_append (ts us : List Tree) : allAtoms (ts ++ us) = allAtoms ts ++ allAtoms us := by
  induction ts with
  | nil => rfl
  | cons t ts ih => rw [List.cons_append, allAtoms, allAtoms, ih, List.append_assoc]

theorem allAtoms_singleton (t : Tree) : allAtoms [t] = t.atoms := by
  rw [allAtoms, allAtoms, List.append_nil]

end Tree

/-- A name can be read back: it has characters, all of them may stand in a word, and the word
stands for a symbol and not for a truth value or a number. -/
structure IsReadable (name : String) : Prop where
  nonempty : name ≠ ""
  chars : ∀ c ∈ name.toList, Atom.isWordChar c = true
  symbol : Atom.ofWord name.toList = .symbol name

theorem isReadable_iff (name : String) :
    IsReadable name ↔ name ≠ "" ∧
      (∀ c ∈ name.toList, Text.isBlank c = false ∧ c ∉ ['(', ')', '"', ';']) ∧
      Atom.ofWord name.toList = .symbol name := by
  have hchar : ∀ c, Atom.isWordChar c = true ↔
      Text.isBlank c = false ∧ c ∉ ['(', ')', '"', ';'] := by
    intro c
    simp [Atom.isWordChar, and_assoc]
  simp only [← hchar]
  exact ⟨fun h => ⟨h.nonempty, h.chars, h.symbol⟩, fun h => ⟨h.1, h.2.1, h.2.2⟩⟩

namespace Tree

/-- All symbols of a tree can be read back. -/
def Readable (t : Tree) : Prop := ∀ name, .symbol name ∈ t.atoms → IsReadable name

/-- No atom of a tree is a floating number. -/
def FloatFree (t : Tree) : Prop := ∀ x, .float x ∉ t.atoms

theorem readable_list_iff {items : List Tree} :
    (Tree.list items).Readable ↔ ∀ t ∈ items, t.Readable := by
  simp only [Readable, atoms, mem_allAtoms_iff]
  constructor
  · intro h t ht name hname
    exact h name ⟨t, ht, hname⟩
  · rintro h name ⟨t, ht, hname⟩
    exact h t ht name hname

theorem floatFree_list_iff {items : List Tree} :
    (Tree.list items).FloatFree ↔ ∀ t ∈ items, t.FloatFree := by
  simp only [FloatFree, atoms, mem_allAtoms_iff]
  constructor
  · intro h t ht x hx
    exact h x ⟨t, ht, hx⟩
  · rintro h x ⟨t, ht, hx⟩
    exact h t ht x hx

end Tree

/-! ## Words -/

namespace Atom

/-- A word that stands for a symbol is the name of it. -/
theorem eq_of_ofWord_eq_symbol {word : List Char} {name : String}
    (h : ofWord word = .symbol name) : word = name.toList := by
  unfold ofWord at h
  split at h
  · cases h
  · split at h
    · cases h
    · split at h
      · cases h
      · split at h
        · cases h
        · cases h
          simp

theorem isReadable_of_ofWord {word : List Char} {name : String} (hne : word ≠ [])
    (hchars : ∀ c ∈ word, isWordChar c = true) (h : ofWord word = .symbol name) :
    IsReadable name := by
  obtain rfl := eq_of_ofWord_eq_symbol h
  refine ⟨?_, hchars, h⟩
  rintro rfl
  exact hne rfl

theorem isWordChar_of_isDigit {c : Char} (h : c.isDigit = true) : isWordChar c = true := by
  simp only [Char.isDigit, Bool.and_eq_true, decide_eq_true_eq] at h
  have hlow : 48 ≤ c.toNat := h.1
  have hhigh : c.toNat ≤ 57 := h.2
  have hne : ∀ d : Char, d.toNat < 48 ∨ 57 < d.toNat → c ≠ d := by
    rintro d hd rfl
    omega
  have hblank : Text.isBlank c = false := by
    have houtside : ∀ range ∈ Text.blankRanges, range.2 < 48 ∨ 57 < range.1 := by decide
    rw [Text.isBlank, List.any_eq_false]
    intro range hrange
    have hrange := houtside range hrange
    simp only [Bool.and_eq_true, decide_eq_true_eq]
    omega
  simp [isWordChar, hblank, hne '(' (by decide), hne ')' (by decide), hne '"' (by decide),
    hne ';' (by decide)]

end Atom

/-! ## Whole numbers -/

namespace Decimal

theorem natural?_toDigits (n : Nat) : natural? (Nat.toDigits 10 n) = some n := by
  have hdigits : (Nat.toDigits 10 n).all Char.isDigit = true := by
    rw [List.all_eq_true]
    exact fun c hc => Nat.isDigit_of_mem_toDigits (by decide) (by decide) hc
  have hempty : (Nat.toDigits 10 n).isEmpty = false := by
    simp [Nat.toDigits_ne_nil]
  have hvalue : digitsValue (Nat.toDigits 10 n) = n := Nat.ofDigitChars_ten_toDigits
  simp [natural?, hdigits, hempty, hvalue]

/-- A digit is no sign. -/
theorem splitSign_of_isDigit {c : Char} {cs : List Char} (h : c.isDigit = true) :
    splitSign (c :: cs) = (false, c :: cs) := by
  unfold splitSign
  split
  · rename_i heq
    cases heq
    cases h
  · rename_i heq
    cases heq
    cases h
  · rfl

theorem integer?_intChars (i : Int) : integer? (Atom.intChars i) = some i := by
  cases i with
  | ofNat n =>
    have hnat := natural?_toDigits n
    rw [Atom.intChars]
    cases hdigits : Nat.toDigits 10 n with
    | nil => exact absurd hdigits Nat.toDigits_ne_nil
    | cons c cs =>
      have hc : c.isDigit = true := by
        refine Nat.isDigit_of_mem_toDigits (b := 10) (n := n) (by decide) (by decide) ?_
        simp [hdigits]
      rw [hdigits] at hnat
      simp [integer?, splitSign_of_isDigit hc, hnat]
  | negSucc n =>
    simp [Atom.intChars, integer?, splitSign, natural?_toDigits, Int.negSucc_eq]

theorem int64?_intChars (v : Int64) : int64? (Atom.intChars v.toInt) = some v := by
  have hlow := v.le_toInt
  have hhigh := v.toInt_lt
  have hrange : (-9223372036854775808 ≤ v.toInt && v.toInt ≤ 9223372036854775807) = true := by
    simp only [Bool.and_eq_true, decide_eq_true_eq]
    omega
  simp only [int64?, integer?_intChars, hrange, if_true, Int64.ofInt_toInt]

end Decimal

namespace Atom

/-- The characters of a whole number are digits, but for a sign. -/
theorem isDigit_of_mem_intChars {i : Int} {c : Char} (h : c ∈ intChars i) :
    c.isDigit = true ∨ c = '-' := by
  cases i with
  | ofNat n => exact .inl (Nat.isDigit_of_mem_toDigits (by decide) (by decide) h)
  | negSucc n =>
    rcases List.mem_cons.mp h with rfl | h
    · exact .inr rfl
    · exact .inl (Nat.isDigit_of_mem_toDigits (by decide) (by decide) h)

theorem intChars_ne_nil (i : Int) : intChars i ≠ [] := by
  cases i with
  | ofNat n => exact Nat.toDigits_ne_nil
  | negSucc n => simp [intChars]

theorem isWordChar_of_mem_intChars {i : Int} {c : Char} (h : c ∈ intChars i) :
    isWordChar c = true := by
  rcases isDigit_of_mem_intChars h with hdigit | rfl
  · exact isWordChar_of_isDigit hdigit
  · decide

theorem ofWord_intChars (v : Int64) : ofWord (intChars v.toInt) = .int v := by
  have hletter : ∀ c ∈ ['t', 'f'], c ∉ intChars v.toInt := by
    intro c hc hmem
    rcases isDigit_of_mem_intChars hmem with hdigit | rfl
    · rcases hc with _ | ⟨_, _ | ⟨_, hc⟩⟩
      · cases hdigit
      · cases hdigit
      · cases hc
    · simp at hc
  have htrue : intChars v.toInt ≠ ['t', 'r', 'u', 'e'] := by
    intro heq
    exact hletter 't' (by simp) (by simp [heq])
  have hfalse : intChars v.toInt ≠ ['f', 'a', 'l', 's', 'e'] := by
    intro heq
    exact hletter 'f' (by simp) (by simp [heq])
  simp [ofWord, htrue, hfalse, Decimal.int64?_intChars]

/-! ## Words of trees -/

/-- The text of an atom that is neither a floating number nor in quotes is a word of its own. -/
structure IsWord (a : Atom) : Prop where
  nonempty : a.chars ≠ []
  chars : ∀ c ∈ a.chars, isWordChar c = true
  reads : ofWord a.chars = a

theorem isWord_symbol {name : String} (h : IsReadable name) : (symbol name).IsWord :=
  ⟨fun hnil => h.nonempty (String.toList_eq_nil_iff.mp hnil), h.chars, h.symbol⟩

theorem isWord_int (v : Int64) : (int v).IsWord :=
  ⟨intChars_ne_nil _, fun _ hc => isWordChar_of_mem_intChars hc, ofWord_intChars v⟩

theorem isWord_bool (b : Bool) : (bool b).IsWord := by
  have hchars : (bool b).chars.all isWordChar = true := by
    cases b <;> decide
  refine ⟨?_, List.all_eq_true.mp hchars, ?_⟩ <;> cases b <;> decide

end Atom

/-! ## What the reader makes -/

namespace Tree

namespace Outline

/-- All trees so far have readable symbols. -/
def Readable : Outline → Prop
  | .inside lists => ∀ items ∈ lists, ∀ t ∈ items, t.Readable
  | .complete t => t.Readable

theorem readable_push {t : Tree} (ht : t.Readable) {lists : List (List Tree)}
    (h : (inside lists).Readable) : (push t lists).Readable := by
  cases lists with
  | nil => exact ht
  | cons items outer =>
    obtain ⟨hitems, houter⟩ := List.forall_mem_cons.mp h
    exact List.forall_mem_cons.mpr ⟨List.forall_mem_cons.mpr ⟨ht, hitems⟩, houter⟩

end Outline

/-- A word so far has characters, and all of them may stand in a word. -/
def Mode.Readable : Mode → Prop
  | .word chars => chars ≠ [] ∧ ∀ c ∈ chars, Atom.isWordChar c = true
  | _ => True

namespace Reading

/-- What has been read so far has readable symbols, and can only get more of them. -/
structure Readable (r : Reading) : Prop where
  outline : r.outline.Readable
  mode : r.mode.Readable

theorem readable_start : start.Readable := ⟨by simp [start, Outline.Readable], trivial⟩

theorem readable_endWord {chars : List Char} {outline : Outline} (ho : outline.Readable)
    (hne : chars ≠ []) (hchars : ∀ c ∈ chars, Atom.isWordChar c = true) :
    (endWord chars outline).Readable := by
  cases outline with
  | complete t => exact ho
  | inside lists =>
    refine Outline.readable_push ?_ ho
    intro name hname
    have hword := (List.mem_singleton.mp hname).symm
    exact Atom.isReadable_of_ofWord (by simpa using hne) (by simpa using hchars) hword

theorem readable_endQuotes {chars : List Char} {outline : Outline} (ho : outline.Readable) :
    (endQuotes chars outline).Readable := by
  cases outline with
  | complete t => exact ho
  | inside lists =>
    refine Outline.readable_push ?_ ho
    intro name hname
    cases List.mem_singleton.mp hname

/-- What a character can begin. A blank or a comment leaves the outline as it is, and so do quotes
and words; brackets open a list, or close the innermost one. -/
theorem begin_cases {offset : Nat} {outline outline' : Outline} {c : Char} {mode : Mode}
    (h : begin offset outline c = .ok (outline', mode)) :
    outline' = outline ∧ (Text.isBlank c = true ∧ mode = .between ∨ c = ';' ∧ mode = .comment) ∨
      ∃ lists, outline = .inside lists ∧
        (c = '(' ∧ outline' = .inside ([] :: lists) ∧ mode = .between ∨
        (∃ items outer, c = ')' ∧ lists = items :: outer ∧
          outline' = .push (.list items.reverse) outer ∧ mode = .between) ∨
        c = '"' ∧ outline' = .inside lists ∧ mode = .quotes offset [] ∨
        Atom.isWordChar c = true ∧ outline' = .inside lists ∧ mode = .word [c]) := by
  unfold begin at h
  by_cases hblank : Text.isBlank c = true
  · rw [if_pos hblank] at h
    cases h
    exact .inl ⟨rfl, .inl ⟨hblank, rfl⟩⟩
  by_cases hsemicolon : c = ';'
  · rw [if_neg hblank, if_pos hsemicolon] at h
    cases h
    exact .inl ⟨rfl, .inr ⟨hsemicolon, rfl⟩⟩
  rw [if_neg hblank, if_neg hsemicolon] at h
  cases outline with
  | complete t => cases h
  | inside lists =>
    refine .inr ⟨lists, rfl, ?_⟩
    dsimp only at h
    by_cases hopen : c = '('
    · rw [if_pos hopen] at h
      cases h
      exact .inl ⟨hopen, rfl, rfl⟩
    by_cases hclose : c = ')'
    · rw [if_neg hopen, if_pos hclose] at h
      cases lists with
      | nil => cases h
      | cons items outer =>
        cases h
        exact .inr (.inl ⟨items, outer, hclose, rfl, rfl, rfl⟩)
    by_cases hquote : c = '"'
    · rw [if_neg hopen, if_neg hclose, if_pos hquote] at h
      cases h
      exact .inr (.inr (.inl ⟨hquote, rfl, rfl⟩))
    · rw [if_neg hopen, if_neg hclose, if_neg hquote] at h
      cases h
      have hword : Atom.isWordChar c = true := by
        simp [Atom.isWordChar, hblank, hsemicolon, hopen, hclose, hquote]
      exact .inr (.inr (.inr ⟨hword, rfl, rfl⟩))

theorem readable_begin {offset : Nat} {outline outline' : Outline} {c : Char} {mode : Mode}
    (h : begin offset outline c = .ok (outline', mode)) (ho : outline.Readable) :
    outline'.Readable ∧ mode.Readable := by
  rcases begin_cases h with ⟨rfl, ⟨-, rfl⟩ | ⟨-, rfl⟩⟩ | ⟨lists, rfl, hinside⟩
  · exact ⟨ho, trivial⟩
  · exact ⟨ho, trivial⟩
  rcases hinside with ⟨-, rfl, rfl⟩ | ⟨items, outer, -, rfl, rfl, rfl⟩ | ⟨-, rfl, rfl⟩ |
    ⟨hword, rfl, rfl⟩
  · exact ⟨List.forall_mem_cons.mpr ⟨by simp, ho⟩, trivial⟩
  · obtain ⟨hitems, houter⟩ := List.forall_mem_cons.mp ho
    have hlist : (Tree.list items.reverse).Readable := by
      simpa [readable_list_iff] using hitems
    exact ⟨Outline.readable_push hlist houter, trivial⟩
  · exact ⟨ho, trivial⟩
  · exact ⟨ho, by simp, by simpa using hword⟩

/-- One character keeps the symbols readable. -/
theorem readable_step {r r' : Reading} {c : Char} (h : r.step c = .ok r') (hr : r.Readable) :
    r'.Readable := by
  obtain ⟨offset, outline, mode⟩ := r
  obtain ⟨ho, hmode⟩ := hr
  cases mode with
  | between =>
    cases hbegin : begin offset outline c with
    | error e => simp [step, hbegin, bind, Except.bind] at h
    | ok x =>
      simp only [step, hbegin] at h
      cases h
      obtain ⟨ho', hmode'⟩ := readable_begin hbegin ho
      exact ⟨ho', hmode'⟩
  | comment =>
    cases h
    refine ⟨ho, ?_⟩
    dsimp only
    split <;> trivial
  | word chars =>
    obtain ⟨hne, hchars⟩ := hmode
    by_cases hc : Atom.isWordChar c = true
    · simp only [step, hc, if_true] at h
      cases h
      exact ⟨ho, by simp, List.forall_mem_cons.mpr ⟨hc, hchars⟩⟩
    · cases hbegin : begin offset (endWord chars outline) c with
      | error e => simp [step, hc, hbegin, bind, Except.bind] at h
      | ok x =>
        simp only [step, hc, hbegin] at h
        cases h
        obtain ⟨ho', hmode'⟩ := readable_begin hbegin (readable_endWord ho hne hchars)
        exact ⟨ho', hmode'⟩
  | quotes start chars =>
    by_cases hquote : c = '"'
    · simp only [step, hquote, if_true] at h
      cases h
      exact ⟨readable_endQuotes ho, trivial⟩
    · by_cases hbackslash : c = '\\'
      · simp only [step, hbackslash] at h
        cases h
        exact ⟨ho, trivial⟩
      · simp only [step, hquote, hbackslash] at h
        cases h
        exact ⟨ho, trivial⟩
  | backslash start chars place =>
    cases hd : Atom.unescape? c with
    | none => simp [step, hd, bind, Except.bind] at h
    | some d =>
      simp only [step, hd] at h
      cases h
      exact ⟨ho, trivial⟩

theorem readable_foldlM {text : List Char} {r r' : Reading}
    (h : text.foldlM step r = .ok r') (hr : r.Readable) : r'.Readable :=
  foldlM_induction (motive := fun _ r => r.Readable) h hr fun _ _ _ _ hr hstep =>
    readable_step hstep hr

theorem readable_finish {r : Reading} {t : Tree} (h : r.finish = .ok t) (hr : r.Readable) :
    t.Readable := by
  obtain ⟨offset, outline, mode⟩ := r
  obtain ⟨ho, hmode⟩ := hr
  cases mode with
  | word chars =>
    have hend := readable_endWord ho hmode.1 hmode.2
    simp only [finish] at h
    cases houtline : endWord chars outline with
    | inside lists =>
      rw [houtline] at h
      cases h
    | complete u =>
      rw [houtline] at h hend
      cases h
      exact hend
  | quotes start chars => cases h
  | backslash start chars place => cases h
  | between =>
    cases outline with
    | inside lists => cases h
    | complete u =>
      cases h
      exact ho
  | comment =>
    cases outline with
    | inside lists => cases h
    | complete u =>
      cases h
      exact ho

end Reading

/-- Whatever the reader makes has readable symbols. -/
theorem readable_of_read {text : List Char} {t : Tree} (h : read text = .ok t) : t.Readable := by
  unfold read at h
  cases hfold : text.foldlM Reading.step Reading.start with
  | error e =>
    rw [hfold] at h
    cases h
  | ok r =>
    rw [hfold] at h
    exact Reading.readable_finish h (Reading.readable_foldlM hfold Reading.readable_start)

/-! ## Reading a text back -/

namespace Reading

/-- A tree has been read to its end inside open lists, though more characters may belong to its last
word. -/
def Ended (r : Reading) (t : Tree) (lists : List (List Tree)) : Prop :=
  r.mode = .between ∧ r.outline = .push t lists ∨
    ∃ chars, r.mode = .word chars ∧ r.outline = .inside lists ∧ t = .atom (.ofWord chars.reverse)

theorem foldlM_append_of_ok {text rest : List Char} {r r' : Reading}
    (h : text.foldlM step r = .ok r') : (text ++ rest).foldlM step r = rest.foldlM step r' := by
  rw [List.foldlM_append, h]
  rfl

theorem foldlM_cons_of_ok {c : Char} {rest : List Char} {r r' : Reading}
    (h : r.step c = .ok r') : (c :: rest).foldlM step r = rest.foldlM step r' := by
  rw [List.foldlM_cons, h]
  rfl

theorem step_of_begin {offset : Nat} {outline outline' : Outline} {c : Char} {mode : Mode}
    (h : begin offset outline c = .ok (outline', mode)) :
    step ⟨offset, outline, .between⟩ c = .ok ⟨offset + c.utf8Size, outline', mode⟩ := by
  simp only [step, h]
  rfl

/-- After a tree, a character that belongs to no word starts something new. -/
theorem Ended.step_eq {r : Reading} {t : Tree} {lists : List (List Tree)} (h : r.Ended t lists)
    {c : Char} (hc : Atom.isWordChar c = false) {outline : Outline} {mode : Mode}
    (hbegin : begin r.offset (.push t lists) c = .ok (outline, mode)) :
    r.step c = .ok ⟨r.offset + c.utf8Size, outline, mode⟩ := by
  obtain ⟨offset, old, before⟩ := r
  rcases h with ⟨hmode, hold⟩ | ⟨chars, hmode, hold, rfl⟩
  · cases hmode
    cases hold
    exact step_of_begin hbegin
  · cases hmode
    cases hold
    simp only [step, hc]
    simp only [endWord, hbegin]
    rfl

theorem Ended.finish_eq {r : Reading} {t : Tree} (h : r.Ended t []) : r.finish = .ok t := by
  obtain ⟨offset, outline, mode⟩ := r
  rcases h with ⟨hmode, houtline⟩ | ⟨chars, hmode, houtline, rfl⟩
  · cases hmode
    cases houtline
    rfl
  · cases hmode
    cases houtline
    rfl

/-! ### Words -/

theorem begin_word {c : Char} (hc : Atom.isWordChar c = true) (offset : Nat)
    (lists : List (List Tree)) :
    begin offset (.inside lists) c = .ok (.inside lists, .word [c]) := by
  simp only [Atom.isWordChar, Bool.and_eq_true, Bool.not_eq_true', decide_eq_true_eq] at hc
  obtain ⟨⟨⟨⟨hblank, hopen⟩, hclose⟩, hquote⟩, hsemicolon⟩ := hc
  simp [begin, hblank, hopen, hclose, hquote, hsemicolon]

theorem foldlM_word_more {more : List Char} (hmore : ∀ c ∈ more, Atom.isWordChar c = true)
    (offset : Nat) (outline : Outline) (chars : List Char) :
    ∃ r, more.foldlM step ⟨offset, outline, .word chars⟩ = .ok r ∧ r.outline = outline ∧
      r.mode = .word (more.reverse ++ chars) := by
  induction more generalizing offset chars with
  | nil => exact ⟨_, rfl, rfl, rfl⟩
  | cons c more ih =>
    obtain ⟨hc, hmore⟩ := List.forall_mem_cons.mp hmore
    have hstep : step ⟨offset, outline, .word chars⟩ c =
        .ok ⟨offset + c.utf8Size, outline, .word (c :: chars)⟩ := by
      simp only [step, hc, if_true]
      rfl
    obtain ⟨r, hr, houtline, hmode⟩ := ih hmore (offset + c.utf8Size) (c :: chars)
    exact ⟨r, by rw [foldlM_cons_of_ok hstep, hr], houtline, by simp [hmode]⟩

theorem foldlM_word {a : Atom} (ha : a.IsWord) (offset : Nat) (lists : List (List Tree)) :
    ∃ r, a.chars.foldlM step ⟨offset, .inside lists, .between⟩ = .ok r ∧
      r.Ended (.atom a) lists := by
  obtain ⟨hne, hchars, hreads⟩ := ha
  cases hword : a.chars with
  | nil => exact absurd hword hne
  | cons c more =>
    rw [hword] at hchars hreads
    obtain ⟨hc, hmore⟩ := List.forall_mem_cons.mp hchars
    obtain ⟨r, hr, houtline, hmode⟩ := foldlM_word_more hmore (offset + c.utf8Size)
      (.inside lists) [c]
    refine ⟨r, ?_, .inr ⟨_, hmode, houtline, ?_⟩⟩
    · rw [foldlM_cons_of_ok (step_of_begin (begin_word hc offset lists)), hr]
    · simp [hreads]

/-! ### Texts in quotes -/

/-- Inside quotes, a character is read from what is written for it. -/
theorem foldlM_escaped (c : Char) (offset : Nat) (outline : Outline) (start : Nat)
    (chars : List Char) :
    ∃ r, (Atom.escaped c).foldlM step ⟨offset, outline, .quotes start chars⟩ = .ok r ∧
      r.outline = outline ∧ r.mode = .quotes start (c :: chars) := by
  unfold Atom.escaped
  split
  · exact ⟨_, rfl, rfl, rfl⟩
  · exact ⟨_, rfl, rfl, rfl⟩
  · exact ⟨_, rfl, rfl, rfl⟩
  · exact ⟨_, rfl, rfl, rfl⟩
  · rename_i hquote hbackslash _ _
    have hstep : step ⟨offset, outline, .quotes start chars⟩ c =
        .ok ⟨offset + c.utf8Size, outline, .quotes start (c :: chars)⟩ := by
      simp only [step, if_neg hquote, if_neg hbackslash]
      rfl
    exact ⟨_, foldlM_cons_of_ok hstep, rfl, rfl⟩

theorem foldlM_all_escaped (text : List Char) (offset : Nat) (outline : Outline) (start : Nat)
    (chars : List Char) :
    ∃ r, (text.flatMap Atom.escaped).foldlM step ⟨offset, outline, .quotes start chars⟩ = .ok r ∧
      r.outline = outline ∧ r.mode = .quotes start (text.reverse ++ chars) := by
  induction text generalizing offset chars with
  | nil => exact ⟨_, rfl, rfl, rfl⟩
  | cons c text ih =>
    obtain ⟨⟨offset', outline', mode'⟩, hr, rfl, rfl⟩ :=
      foldlM_escaped c offset outline start chars
    obtain ⟨r, hrest, houtline, hmode⟩ := ih offset' (c :: chars)
    refine ⟨r, ?_, houtline, by simp [hmode]⟩
    rw [List.flatMap_cons, foldlM_append_of_ok hr, hrest]

theorem foldlM_quoted (text : String) (offset : Nat) (lists : List (List Tree)) :
    ∃ r, (Atom.quoted text.toList).foldlM step ⟨offset, .inside lists, .between⟩ = .ok r ∧
      r.Ended (.atom (.string text)) lists := by
  have hopen : begin offset (.inside lists) '"' = .ok (.inside lists, .quotes offset []) := rfl
  obtain ⟨⟨offset', outline', mode'⟩, hr, rfl, rfl⟩ :=
    foldlM_all_escaped text.toList (offset + '"'.utf8Size) (.inside lists) offset []
  have hclose : step ⟨offset', .inside lists, .quotes offset (text.toList.reverse ++ [])⟩ '"' =
      .ok ⟨offset' + '"'.utf8Size, .push (.atom (.string text)) lists, .between⟩ := by
    have hend : endQuotes (text.toList.reverse ++ []) (.inside lists) =
        .push (.atom (.string text)) lists := by simp [endQuotes]
    rw [← hend]
    rfl
  have hall : (Atom.quoted text.toList).foldlM step ⟨offset, .inside lists, .between⟩ = _ :=
    (foldlM_cons_of_ok (step_of_begin hopen)).trans
      ((foldlM_append_of_ok hr).trans (foldlM_cons_of_ok hclose))
  exact ⟨_, hall, .inl ⟨rfl, rfl⟩⟩

/-! ### Lists -/

/-- A list is read to its end, given that each of its items is. The induction is on the items still
to come; those before are on the stack. -/
theorem foldlM_items {items : List Tree}
    (h : ∀ t ∈ items, ∀ offset lists, ∃ r,
      t.chars.foldlM step ⟨offset, .inside lists, .between⟩ = .ok r ∧ r.Ended t lists)
    (offset : Nat) (done : List Tree) (outer : List (List Tree)) :
    ∃ r, (Text.spaced (words items) ++ [')']).foldlM step
        ⟨offset, .inside (done :: outer), .between⟩ = .ok r ∧
      r.Ended (.list (done.reverse ++ items)) outer := by
  induction items generalizing offset done with
  | nil => exact ⟨_, rfl, .inl ⟨rfl, by simp⟩⟩
  | cons t ts ih =>
    obtain ⟨ht, hts⟩ := List.forall_mem_cons.mp h
    obtain ⟨r, hr, hended⟩ := ht offset (done :: outer)
    cases ts with
    | nil =>
      have hclose := hended.step_eq (c := ')') (by decide) rfl
      have hall : (Text.spaced (words [t]) ++ [')']).foldlM step
          ⟨offset, .inside (done :: outer), .between⟩ = _ :=
        (foldlM_append_of_ok hr).trans (foldlM_cons_of_ok hclose)
      exact ⟨_, hall, .inl ⟨rfl, by simp⟩⟩
    | cons u us =>
      have hspace := hended.step_eq (c := ' ') (by decide) rfl
      obtain ⟨r', hr', hended'⟩ := ih hts (r.offset + ' '.utf8Size) (t :: done)
      refine ⟨r', ?_, by simpa using hended'⟩
      have hchars : Text.spaced (words (t :: u :: us)) ++ [')'] =
          t.chars ++ ' ' :: (Text.spaced (words (u :: us)) ++ [')']) := by
        simp [words, Text.spaced]
      rw [hchars, foldlM_append_of_ok hr, foldlM_cons_of_ok hspace]
      exact hr'

/-- A tree with readable symbols and without floating numbers is read to its end from its text. -/
theorem foldlM_chars {t : Tree} (hfloat : t.FloatFree) (hreadable : t.Readable) (offset : Nat)
    (lists : List (List Tree)) :
    ∃ r, t.chars.foldlM step ⟨offset, .inside lists, .between⟩ = .ok r ∧ r.Ended t lists := by
  induction t generalizing offset lists with
  | atom a =>
    cases a with
    | symbol name =>
      exact foldlM_word (Atom.isWord_symbol (hreadable name (.head _))) offset lists
    | int v => exact foldlM_word (Atom.isWord_int v) offset lists
    | float x => exact absurd (.head _) (hfloat x)
    | string text => exact foldlM_quoted text offset lists
    | bool b => exact foldlM_word (Atom.isWord_bool b) offset lists
  | list items ih =>
    have hitems := floatFree_list_iff.mp hfloat
    have hsymbols := readable_list_iff.mp hreadable
    have hopen : begin offset (.inside lists) '(' = .ok (.inside ([] :: lists), .between) := rfl
    obtain ⟨r, hr, hended⟩ := foldlM_items
      (fun t ht => ih t ht (hitems t ht) (hsymbols t ht)) (offset + '('.utf8Size) [] lists
    refine ⟨r, ?_, hended⟩
    rw [chars, foldlM_cons_of_ok (step_of_begin hopen), hr]

end Reading

theorem read_chars {t : Tree} (hfloat : t.FloatFree) (hreadable : t.Readable) :
    read t.chars = .ok t := by
  obtain ⟨r, hr, hended⟩ := Reading.foldlM_chars hfloat hreadable 0 []
  unfold read
  rw [Reading.start, hr]
  exact hended.finish_eq

/-! ## The laws -/

/-- A tree without floating numbers is read from its text as it was, whatever its texts and whole
numbers are, if and only if all its symbols are words of their own that stand for no truth value and
no number. So whatever was read without floating numbers is read again from its own text. -/
theorem a_tree_is_read_from_its_text :
    (∀ t : Tree, (∀ x, .float x ∉ t.atoms) → (read t.text.toList = .ok t ↔
      ∀ name, .symbol name ∈ t.atoms → name ≠ "" ∧
        (∀ c ∈ name.toList, Text.isBlank c = false ∧ c ∉ ['(', ')', '"', ';']) ∧
        Atom.ofWord name.toList = .symbol name)) ∧
    ∀ (text : List Char) (t : Tree), read text = .ok t → (∀ x, .float x ∉ t.atoms) →
      read t.text.toList = .ok t := by
  have hread : ∀ t : Tree, t.FloatFree → (read t.text.toList = .ok t ↔ t.Readable) := by
    intro t hfloat
    rw [text, String.toList_ofList]
    exact ⟨readable_of_read, read_chars hfloat⟩
  constructor
  · intro t hfloat
    rw [hread t hfloat]
    exact forall_congr' fun name => imp_congr_right fun _ => isReadable_iff name
  · intro text t htext hfloat
    exact (hread t hfloat).mpr (readable_of_read htext)

/-- Names that look like numbers, the least and the greatest whole number, and a text with quotes,
line ends and a bare control character. -/
def lookalikes : Tree :=
  .list [.symbol "...", .symbol "+", .symbol "-inf", .list [],
    .list [.atom (.int Int64.minValue), .atom (.int Int64.maxValue), .atom (.bool true)],
    .atom (.string "; \"a\\\" (\n\t\r\x07")]

/-- Names that only look like numbers are read as they were, and a name that is a number is not. -/
theorem names_that_only_look_like_numbers_are_read_again :
    (∀ x, .float x ∉ lookalikes.atoms) ∧ read lookalikes.text.toList = .ok lookalikes ∧
      (∀ x, .float x ∉ (Tree.symbol "+12").atoms) ∧
      read (Tree.symbol "+12").text.toList ≠ .ok (.symbol "+12") ∧
      ∃ t, read "( -0;zero\n() )".toList = .ok t ∧ read t.text.toList = .ok t := by
  have hfloat : ∀ x, .float x ∉ lookalikes.atoms := by
    simp [lookalikes, atoms, allAtoms]
  have hnumber : ∀ x, .float x ∉ (Tree.symbol "+12").atoms := by
    simp [atoms]
  refine ⟨hfloat, (a_tree_is_read_from_its_text.1 lookalikes hfloat).mpr ?_, hnumber, ?_,
    .list [.atom (.int 0), .list []], ?_⟩
  · intro name hname
    have hnames : name ∈ ["...", "+", "-inf"] := by
      simpa [lookalikes, atoms, allAtoms] using hname
    have hall : ∀ name ∈ ["...", "+", "-inf"], name ≠ "" ∧
        name.toList.all Atom.isWordChar = true ∧ Atom.ofWord name.toList = .symbol name := by
      decide +kernel
    obtain ⟨hne, hchars, hsymbol⟩ := hall name hnames
    exact (isReadable_iff name).mp ⟨hne, List.all_eq_true.mp hchars, hsymbol⟩
  · intro hread
    have hsymbol := (a_tree_is_read_from_its_text.1 _ hnumber).mp hread "+12" (.head _)
    exact absurd hsymbol.2.2 (by decide +kernel)
  · have htext : read "( -0;zero\n() )".toList = .ok (.list [.atom (.int 0), .list []]) := by
      rfl
    exact ⟨htext, a_tree_is_read_from_its_text.2 _ _ htext (by simp [atoms, allAtoms])⟩

end Tree

end TreePasses
