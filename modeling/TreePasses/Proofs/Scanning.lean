-- What scanning does to a whole text. A text is words with gaps of blanks and comments around
-- them, and names are as long as they can be. Scanning finds these words and their places, and it
-- fails only on a text that cannot be read that way.
import TreePasses.Pattern.Scan
import Mathlib.Data.List.Induction

namespace TreePasses

/-! ## Places, counted out -/

namespace Text

/-- The characters of a text since its last line feed. -/
def lastLine (text : List Char) : List Char := (text.reverse.takeWhile (· ≠ '\n')).reverse

theorem lastLine_append_singleton (text : List Char) (c : Char) :
    lastLine (text ++ [c]) = if c = '\n' then [] else lastLine text ++ [c] := by
  by_cases hc : c = '\n'
  · simp [lastLine, hc]
  · simp [lastLine, hc]

theorem length_lastLine_le (text : List Char) : (lastLine text).length ≤ text.length := by
  simpa [lastLine] using (text.reverse.takeWhile_sublist (· ≠ '\n')).length_le

theorem length_le_size (text : List Char) : text.length ≤ (String.ofList text).utf8ByteSize := by
  induction text with
  | nil => simp
  | cons c text ih =>
    have hc := c.utf8Size_pos
    rw [← List.singleton_append, String.ofList_append, String.utf8ByteSize_append]
    simp
    omega

namespace Position

/-- Whether a place is the one right after a text: its offset counts the bytes of the text, its
line the line feeds, and its column the characters since the last of them. -/
structure IsAfter (text : List Char) (p : Position) : Prop where
  offset : p.offset.toNat = (String.ofList text).utf8ByteSize
  line : p.line.toNat = 1 + text.count '\n'
  column : p.column.toNat = 1 + (lastLine text).length

theorem after_append (before text : List Char) :
    after (before ++ text) = text.foldl advance (after before) := by
  simp [after]

/-- Walking over a text counts it out, up to 32 bits. -/
theorem after_eq (text : List Char) :
    after text = ⟨.ofNat (String.ofList text).utf8ByteSize, .ofNat (1 + text.count '\n'),
      .ofNat (1 + (lastLine text).length)⟩ := by
  induction text using List.reverseRecOn with
  | nil => rfl
  | append_singleton text c ih =>
    rw [after_append_singleton, ih, lastLine_append_singleton, advance]
    by_cases hc : c = '\n'
    · subst hc
      simp [UInt32.ofNat_add, ← Nat.add_assoc]
      rfl
    · simp [hc, UInt32.ofNat_add, ← Nat.add_assoc]

/-- In a text that 32 bits are enough for, there is one place right after it. -/
theorem isAfter_iff {text : List Char} (hsize : (String.ofList text).utf8ByteSize < UInt32.size - 1)
    {p : Position} : IsAfter text p ↔ p = after text := by
  rw [UInt32.size] at hsize
  have hlength := length_le_size text
  have hline := text.count_le_length (a := '\n')
  have hcolumn := length_lastLine_le text
  rw [after_eq]
  constructor
  · rintro ⟨hp, hq, hr⟩
    cases p
    simp only [mk.injEq, ← UInt32.toNat_inj, UInt32.toNat_ofNat']
    simp only at hp hq hr
    omega
  · rintro rfl
    constructor <;> simp only [UInt32.toNat_ofNat'] <;> omega

end Position

end Text

namespace Pattern

open Text (Position)

/-! ## Names and words -/

/-- Whether characters are a name. -/
def isName (name : List Char) : Bool := !name.isEmpty && name.all isNameChar

/-- Whether characters are the name of a terminal, which no digit starts. -/
def isTerminalName (name : List Char) : Bool := isName name && !name.head?.any Char.isDigit

/-- Whether a name cannot go on into a text: the text is over, or starts with something else. -/
def endsName (rest : List Char) : Bool := !rest.head?.any isNameChar

namespace Token

/-- Whether a word can stand in a text: its name, if it has one, is a name. -/
def isWritable : Token → Bool
  | .literal name => isName name.toList
  | .terminal name => isTerminalName name.toList
  | _ => true

/-- Whether a word ends with a name. -/
def isNamed : Token → Bool
  | .literal _ => true
  | .terminal _ => true
  | _ => false

/-- Whether a word is over where a text goes on. -/
def endsBefore (t : Token) (rest : List Char) : Bool := !t.isNamed || endsName rest

end Token

theorem isNameChar_of_mem {name : List Char} (h : isName name = true) {c : Char}
    (hc : c ∈ name) : isNameChar c = true := by
  simp only [isName, Bool.and_eq_true, List.all_eq_true] at h
  exact h.2 c hc

theorem startsTerminal_iff {c : Char} {name : List Char} :
    isTerminalName (c :: name) = true ↔
      startsTerminal c = true ∧ ∀ d ∈ name, isNameChar d = true := by
  simp [isTerminalName, isName, startsTerminal, and_assoc, and_comm]

/-- The start of a text, as far as characters of a name go, and what is left. -/
theorem exists_name_append (text : List Char) : ∃ name rest, text = name ++ rest ∧
    (∀ c ∈ name, isNameChar c = true) ∧ endsName rest = true := by
  refine ⟨text.takeWhile isNameChar, text.dropWhile isNameChar,
    List.takeWhile_append_dropWhile.symm, List.all_eq_true.mp List.all_takeWhile, ?_⟩
  have hstop := List.head?_dropWhile_not isNameChar text
  unfold endsName
  cases hhead : (text.dropWhile isNameChar).head? with
  | none => rfl
  | some c =>
    rw [hhead] at hstop
    simp [hstop]

theorem exists_line_append (text : List Char) :
    '\n' ∉ text ∨ ∃ body rest, text = body ++ '\n' :: rest ∧ '\n' ∉ body := by
  by_cases h : '\n' ∈ text
  · obtain ⟨body, rest, rfl, hbody⟩ := List.eq_append_cons_of_mem h
    exact .inr ⟨body, rest, rfl, hbody⟩
  · exact .inl h

/-! ## Gaps -/

/-- Blanks, and comments up to the ends of their lines. -/
inductive Gap : List Char → Prop where
  | nil : Gap []
  | blank {c : Char} {rest : List Char} (hc : Text.isBlank c = true) (h : Gap rest) :
      Gap (c :: rest)
  | comment {body rest : List Char} (hbody : '\n' ∉ body) (h : Gap rest) :
      Gap (';' :: (body ++ '\n' :: rest))

/-- A gap at the end of a text, where a comment need not end its line. -/
inductive LastGap : List Char → Prop where
  | gap {gap : List Char} (h : Gap gap) : LastGap gap
  | comment {gap body : List Char} (h : Gap gap) (hbody : '\n' ∉ body) :
      LastGap (gap ++ ';' :: body)

theorem Gap.append {front back : List Char} (hf : Gap front) (hb : Gap back) :
    Gap (front ++ back) := by
  induction hf with
  | nil => exact hb
  | blank hc _ ih => exact .blank hc ih
  | comment hbody _ ih =>
    rw [List.cons_append, List.append_assoc, List.cons_append]
    exact .comment hbody ih

theorem LastGap.append {front back : List Char} (hf : Gap front) (hb : LastGap back) :
    LastGap (front ++ back) := by
  cases hb with
  | gap h => exact .gap (hf.append h)
  | comment h hbody =>
    rw [← List.append_assoc]
    exact .comment (hf.append h) hbody

/-! ## Texts as words and gaps -/

/-- A text `rest` that stands after a text `before` is laid out as words: each word follows a
gap, is over where the text goes on, and has a place that belongs after all the text before
it; after the last word there is only a gap. -/
inductive Laid (place : List Char → Position → Prop) :
    (before rest : List Char) → List PlacedToken → Prop where
  | last {before gap : List Char} (h : LastGap gap) : Laid place before gap []
  | word {before gap rest : List Char} {t : PlacedToken} {ts : List PlacedToken} (hgap : Gap gap)
      (hword : t.token.isWritable = true) (hend : t.token.endsBefore rest = true)
      (hplace : place (before ++ gap) t.position)
      (h : Laid place (before ++ gap ++ t.token.chars) rest ts) :
      Laid place before (gap ++ (t.token.chars ++ rest)) (t :: ts)

section

variable {place : List Char → Position → Prop} {before rest : List Char} {ts : List PlacedToken}

/-- More gap before the first word changes nothing. -/
theorem Laid.gap {gap : List Char} (hgap : Gap gap) (h : Laid place (before ++ gap) rest ts) :
    Laid place before (gap ++ rest) ts := by
  cases h with
  | last h => exact .last (.append hgap h)
  | word hmore hword hend hplace h =>
    rw [← List.append_assoc]
    exact .word (hgap.append hmore) hword hend (by simpa using hplace) (by simpa using h)

/-- A word with no gap before it. -/
theorem Laid.first {t : Token} {p : Position} (hword : t.isWritable = true)
    (hend : t.endsBefore rest = true) (hplace : place before p)
    (h : Laid place (before ++ t.chars) rest ts) :
    Laid place before (t.chars ++ rest) (⟨t, p⟩ :: ts) := by
  rw [← before.append_nil] at hplace h
  exact Laid.word (t := ⟨t, p⟩) .nil hword hend hplace h

/-- Only the places after the starts of the text matter. -/
theorem Laid.mono {place' : List Char → Position → Prop}
    (himp : ∀ front p, front <+: before ++ rest → place front p → place' front p)
    (h : Laid place before rest ts) : Laid place' before rest ts := by
  induction h with
  | last h => exact .last h
  | @word before gap rest t ts hgap hword hend hplace _ ih =>
    refine .word hgap hword hend (himp _ _ ?_ hplace) (ih fun front p hp => himp front p ?_)
    · rw [← List.append_assoc]
      exact List.prefix_append _ _
    · simpa using hp

theorem Laid.isWritable (h : Laid place before rest ts) :
    ∀ t ∈ ts, t.token.isWritable = true := by
  induction h with
  | last => simp
  | word _ hword _ _ _ ih => exact List.forall_mem_cons.mpr ⟨hword, ih⟩

end

/-! ## How a text can start -/

/-- Whether nothing can start with a character: it is a control character and no blank, or a
digit. -/
def isStray (c : Char) : Bool := Text.isControl c && !Text.isBlank c || c.isDigit

theorem isBlank_of_isStray {c : Char} (h : isStray c = true) : Text.isBlank c = false := by
  simp only [isStray, Bool.or_eq_true, Bool.and_eq_true, Bool.not_eq_true'] at h
  rcases h with h | h
  · exact h.2
  · have hdigit : 48 ≤ c.toNat ∧ c.toNat ≤ 57 := Char.isDigit_iff_toNat.mp h
    simp [Text.isBlank, Text.blankRanges]
    omega

theorem punctuation?_eq_none {c : Char} (h : c ∉ reserved) : punctuation? c = none := by
  unfold punctuation?
  split <;> first | rfl | exact absurd (by decide) h

theorem chars_of_punctuation? {c : Char} {t : Token} (h : punctuation? c = some t) :
    t.chars = [c] ∧ t.isWritable = true ∧ t.isNamed = false := by
  unfold punctuation? at h
  split at h <;> first | cases h; exact ⟨rfl, rfl, rfl⟩ | cases h

theorem not_mem_reserved {c : Char} (h : isNameChar c = true) : c ∉ reserved := by
  simp only [isNameChar, Bool.and_eq_true, Bool.not_eq_true'] at h
  intro hmem
  simp [hmem] at h

theorem isBlank_of_isNameChar {c : Char} (h : isNameChar c = true) : Text.isBlank c = false := by
  simp only [isNameChar, Bool.and_eq_true, Bool.not_eq_true'] at h
  exact h.1.1

theorem eq_of_mem_reserved {c : Char} (h : c ∈ reserved) (hp : punctuation? c = none) :
    c = ';' ∨ c = '\'' := by
  simp only [reserved, List.mem_cons, List.not_mem_nil, or_false] at h
  rcases h with rfl | rfl | rfl | rfl | rfl | rfl | rfl | rfl
  all_goals first | exact .inl rfl | exact .inr rfl | cases hp

theorem isStray_of {c : Char} (hblank : Text.isBlank c = false) (hsemicolon : c ≠ ';')
    (hquote : c ≠ '\'') (hp : punctuation? c = none) (hstart : startsTerminal c = false) :
    isStray c = true := by
  have hreserved : c ∉ reserved := by
    intro hmem
    rcases eq_of_mem_reserved hmem hp with h | h
    · exact hsemicolon h
    · exact hquote h
  simp only [startsTerminal, isNameChar, hblank, List.contains_eq_mem, hreserved] at hstart
  cases hcontrol : Text.isControl c <;> simp_all [isStray]

/-- What a text starts with where scanning it fails. -/
def ScanFault.StandsAt : ScanFault → List Char → Prop
  | .unrecognized c, text => ∃ rest, text = c :: rest ∧ isStray c = true
  | .namelessLiteral, text => ∃ rest, text = '\'' :: rest ∧ endsName rest = true

/-- A text starts with a gap, with a word, or with something that cannot be read. -/
theorem textInduction {motive : List Char → Prop} (nil : motive [])
    (blank : ∀ c rest, Text.isBlank c = true → motive rest → motive (c :: rest))
    (comment : ∀ body rest, '\n' ∉ body → motive rest → motive (';' :: (body ++ '\n' :: rest)))
    (lastComment : ∀ body, '\n' ∉ body → motive (';' :: body))
    (word : ∀ (t : Token) rest, t.isWritable = true → t.endsBefore rest = true → motive rest →
      motive (t.chars ++ rest))
    (nameless : ∀ rest, endsName rest = true → motive ('\'' :: rest))
    (stray : ∀ c rest, isStray c = true → motive (c :: rest)) (text : List Char) :
    motive text := by
  -- A comment or a name takes more than one character at once, hence the length.
  induction hn : text.length using Nat.strongRecOn generalizing text with
  | ind n ih =>
    cases text with
    | nil => exact nil
    | cons c rest =>
      have shorter : ∀ u : List Char, u.length ≤ rest.length → motive u := by
        intro u hu
        simp only [List.length_cons] at hn
        exact ih u.length (by omega) u rfl
      by_cases hblank : Text.isBlank c = true
      · exact blank c rest hblank (shorter rest (by omega))
      by_cases hsemicolon : c = ';'
      · subst hsemicolon
        rcases exists_line_append rest with hbody | ⟨body, after, rfl, hbody⟩
        · exact lastComment rest hbody
        · exact comment body after hbody (shorter after (by simp; omega))
      by_cases hquote : c = '\''
      · subst hquote
        obtain ⟨name, after, rfl, hname, hend⟩ := exists_name_append rest
        cases name with
        | nil => exact nameless after hend
        | cons d name =>
          have hword := word (.literal (String.ofList (d :: name))) after
            (by simpa [Token.isWritable, isName] using hname) (by simp [Token.endsBefore, hend])
            (shorter after (by simp; omega))
          simpa [Token.chars] using hword
      cases hp : punctuation? c with
      | some t =>
        obtain ⟨hchars, hwritable, hnamed⟩ := chars_of_punctuation? hp
        have hword := word t rest hwritable (by simp [Token.endsBefore, hnamed])
          (shorter rest (by omega))
        simpa [hchars] using hword
      | none =>
        by_cases hstart : startsTerminal c = true
        · obtain ⟨name, after, rfl, hname, hend⟩ := exists_name_append rest
          have hterminal := startsTerminal_iff.mpr ⟨hstart, hname⟩
          have hword := word (.terminal (String.ofList (c :: name))) after
            (by simpa [Token.isWritable] using hterminal) (by simp [Token.endsBefore, hend])
            (shorter after (by simp))
          simpa [Token.chars] using hword
        · exact stray c rest (isStray_of (by simpa using hblank) hsemicolon hquote hp
            (by simpa using hstart))

/-! ## Scanning, one start at a time -/

namespace Scan

/-- All the words in order, if a text goes on like this to its end. -/
def through (s : Scan) (rest : List Char) : Except ScanError (List PlacedToken) := do
  (← rest.foldlM step s).finish

theorem through_cons (s : Scan) (c : Char) (rest : List Char) :
    s.through (c :: rest) = s.step c >>= fun s => s.through rest := by
  simp [through]

theorem step_between (p : Position) (ts : List PlacedToken) (c : Char) :
    step ⟨p, ts, .between⟩ c = (begin p ts c).map fun r => ⟨p.advance c, r.1, r.2⟩ := by
  simp only [step, extend?, settle]
  rfl

section

variable {p : Position} {ts : List PlacedToken} {rest : List Char}

/-- After a character that belongs to nothing before it. -/
theorem through_of_begin {c : Char} {new : List PlacedToken} {mode : ScanMode}
    (h : begin p ts c = .ok (new, mode)) :
    through ⟨p, ts, .between⟩ (c :: rest) = through ⟨p.advance c, new, mode⟩ rest := by
  rw [through_cons, step_between, h]
  rfl

theorem begin_blank {c : Char} (h : Text.isBlank c = true) :
    begin p ts c = .ok (ts, .between) := by
  simp [begin, h]

theorem begin_punctuation {c : Char} {t : Token} (h : punctuation? c = some t) :
    begin p ts c = .ok (⟨t, p⟩ :: ts, .between) := by
  unfold punctuation? at h
  split at h <;> first | cases h; rfl | cases h

theorem begin_unreserved {c : Char} (hblank : Text.isBlank c = false) (h : c ∉ reserved) :
    begin p ts c =
      if startsTerminal c then .ok (ts, .terminal p [c]) else .error (.unrecognized c, p) := by
  have hsemicolon : c ≠ ';' := by rintro rfl; exact h (by decide)
  have hquote : c ≠ '\'' := by rintro rfl; exact h (by decide)
  simp [begin, hblank, hsemicolon, hquote, punctuation?_eq_none h]

theorem begin_terminal {c : Char} (h : startsTerminal c = true) :
    begin p ts c = .ok (ts, .terminal p [c]) := by
  have hname : isNameChar c = true := by
    simp only [startsTerminal, Bool.and_eq_true] at h
    exact h.1
  rw [begin_unreserved (isBlank_of_isNameChar hname) (not_mem_reserved hname), if_pos h]

theorem begin_stray {c : Char} (h : isStray c = true) :
    begin p ts c = .error (.unrecognized c, p) := by
  have hreserved : c ∉ reserved := by
    intro hmem
    revert h
    simp only [reserved, List.mem_cons, List.not_mem_nil, or_false] at hmem
    rcases hmem with rfl | rfl | rfl | rfl | rfl | rfl | rfl | rfl <;> decide
  have hstart : startsTerminal c = false := by
    simp only [isStray, Bool.or_eq_true, Bool.and_eq_true] at h
    rcases h with h | h
    · simp [startsTerminal, isNameChar, h.1]
    · simp [startsTerminal, h]
  rw [begin_unreserved (isBlank_of_isStray h) hreserved, hstart]
  rfl

/-- A mode of scanning in which the characters of a name are gathered. -/
def Gathers (mode : List Char → ScanMode) : Prop := ∀ c name,
  extend? c (mode name) = if isNameChar c then some (mode (c :: name)) else none

theorem through_name {mode : List Char → ScanMode} (hmode : Gathers mode) {name : List Char}
    (hname : ∀ c ∈ name, isNameChar c = true) (held : List Char) :
    through ⟨p, ts, mode held⟩ (name ++ rest) =
      through ⟨name.foldl Position.advance p, ts, mode (name.reverse ++ held)⟩ rest := by
  induction name generalizing p held with
  | nil => rfl
  | cons c name ih =>
    obtain ⟨hc, hname⟩ := List.forall_mem_cons.mp hname
    rw [List.cons_append, through_cons, step]
    simp only [hmode c held, hc, if_true]
    show through ⟨p.advance c, ts, mode (c :: held)⟩ (name ++ rest) = _
    rw [ih hname]
    simp

/-- Where a name cannot go on, it is as good as settled. -/
theorem through_settled {mode : ScanMode} {settled : List PlacedToken}
    (hs : settle ts mode = .ok settled) (hend : ∀ c ∈ rest.head?, extend? c mode = none) :
    through ⟨p, ts, mode⟩ rest = through ⟨p, settled, .between⟩ rest := by
  cases rest with
  | nil =>
    show finish ⟨p, ts, mode⟩ = finish ⟨p, settled, .between⟩
    rw [finish, hs]
    rfl
  | cons c rest =>
    rw [through_cons, through_cons, step, hend c rfl, hs]
    rfl

theorem through_comment {body : List Char} (hbody : '\n' ∉ body) :
    through ⟨p, ts, .comment⟩ (body ++ rest) =
      through ⟨body.foldl Position.advance p, ts, .comment⟩ rest := by
  induction body generalizing p with
  | nil => rfl
  | cons c body ih =>
    obtain ⟨hc, hbody⟩ := not_or.mp (List.mem_cons.not.mp hbody)
    rw [List.cons_append, through_cons, step]
    simp only [extend?, Ne.symm hc, if_false]
    exact ih hbody

/-! ## The words that are found -/

section

variable {before : List Char}

theorem through_blank {c : Char} (hc : Text.isBlank c = true) :
    through ⟨.after before, ts, .between⟩ (c :: rest) =
      through ⟨.after (before ++ [c]), ts, .between⟩ rest := by
  rw [through_of_begin (begin_blank hc), Position.after_append_singleton]

theorem begin_comment : begin p ts ';' = .ok (ts, .comment) := rfl

theorem begin_quote : begin p ts '\'' = .ok (ts, .literal p []) := rfl

theorem through_line {body : List Char} (hbody : '\n' ∉ body) :
    through ⟨.after before, ts, .between⟩ (';' :: (body ++ '\n' :: rest)) =
      through ⟨.after (before ++ ';' :: (body ++ ['\n'])), ts, .between⟩ rest := by
  rw [through_of_begin begin_comment, through_comment hbody, through_cons, Position.after_append,
    List.foldl_cons, List.foldl_append]
  rfl

theorem through_lastLine {body : List Char} (hbody : '\n' ∉ body) :
    through ⟨p, ts, .between⟩ (';' :: body) = .ok ts.reverse := by
  have h : through ⟨p.advance ';', ts, .comment⟩ (body ++ []) = .ok ts.reverse := by
    rw [through_comment hbody]
    rfl
  rw [List.append_nil] at h
  rw [through_of_begin begin_comment, h]

theorem settle_literal (ts : List PlacedToken) (start : Position) {name : List Char}
    (h : name ≠ []) : settle ts (.literal start name) =
      .ok (⟨.literal (String.ofList name.reverse), start⟩ :: ts) := by
  cases name with
  | nil => exact absurd rfl h
  | cons c name => rfl

theorem gathers_literal (start : Position) : Gathers (.literal start) := fun _ _ => rfl

theorem gathers_terminal (start : Position) : Gathers (.terminal start) := fun _ _ => rfl

/-- Where no name goes on, nothing that is gathered goes on. -/
theorem Gathers.extend?_eq_none {mode : List Char → ScanMode} (hmode : Gathers mode)
    (hend : endsName rest = true) (held : List Char) :
    ∀ c ∈ rest.head?, extend? c (mode held) = none := by
  intro c hc
  have hname : isNameChar c = false := by
    cases rest with
    | nil => cases hc
    | cons d rest =>
      cases hc
      simpa [endsName] using hend
  rw [hmode c held, hname]
  rfl

theorem through_literal {name : List Char} (hname : isName name = true)
    (hend : endsName rest = true) :
    through ⟨p, ts, .between⟩ ('\'' :: (name ++ rest)) =
      through ⟨('\'' :: name).foldl Position.advance p,
        ⟨.literal (String.ofList name), p⟩ :: ts, .between⟩ rest := by
  have hne : name ≠ [] := by
    rintro rfl
    simp [isName] at hname
  have hsettle := settle_literal ts p (List.reverse_ne_nil_iff.mpr hne)
  rw [through_of_begin begin_quote,
    through_name (gathers_literal p) (fun c hc => isNameChar_of_mem hname hc) [], List.append_nil,
    through_settled hsettle ((gathers_literal p).extend?_eq_none hend _), List.reverse_reverse,
    List.foldl_cons]

theorem through_terminal {name : List Char} (hname : isTerminalName name = true)
    (hend : endsName rest = true) :
    through ⟨p, ts, .between⟩ (name ++ rest) =
      through ⟨name.foldl Position.advance p,
        ⟨.terminal (String.ofList name), p⟩ :: ts, .between⟩ rest := by
  cases name with
  | nil => simp [isTerminalName, isName] at hname
  | cons c name =>
    obtain ⟨hstart, hname⟩ := startsTerminal_iff.mp hname
    rw [List.cons_append, through_of_begin (begin_terminal hstart),
      through_name (gathers_terminal p) hname [c],
      through_settled rfl ((gathers_terminal p).extend?_eq_none hend _), List.foldl_cons]
    simp

theorem through_word {t : Token} (hword : t.isWritable = true) (hend : t.endsBefore rest = true) :
    through ⟨.after before, ts, .between⟩ (t.chars ++ rest) =
      through ⟨.after (before ++ t.chars), ⟨t, .after before⟩ :: ts, .between⟩ rest := by
  rw [Position.after_append]
  cases t with
  | literal name =>
    rw [Token.chars, List.cons_append, through_literal hword hend, String.ofList_toList]
  | terminal name =>
    rw [Token.chars, through_terminal hword hend, String.ofList_toList]
  | _ => exact through_of_begin (begin_punctuation rfl)

/-- A quote that no name follows. -/
theorem through_nameless (hend : endsName rest = true) :
    through ⟨p, ts, .between⟩ ('\'' :: rest) = .error (.namelessLiteral, p) := by
  rw [through_of_begin begin_quote]
  cases rest with
  | nil => rfl
  | cons c rest =>
    rw [through_cons, step, (gathers_literal p).extend?_eq_none hend [] c rfl]
    rfl

theorem through_stray {c : Char} (hc : isStray c = true) :
    through ⟨p, ts, .between⟩ (c :: rest) = .error (.unrecognized c, p) := by
  rw [through_cons, step_between, begin_stray hc]
  rfl

theorem through_gap {gap : List Char} (hgap : Gap gap) :
    through ⟨.after before, ts, .between⟩ (gap ++ rest) =
      through ⟨.after (before ++ gap), ts, .between⟩ rest := by
  induction hgap generalizing before with
  | nil => simp
  | blank hc _ ih =>
    rw [List.cons_append, through_blank hc, ih]
    simp
  | comment hbody _ ih =>
    rw [List.cons_append, List.append_assoc, List.cons_append, through_line hbody, ih]
    simp

/-- Scanning finds the words that a text is laid out as. -/
theorem through_of_laid {words : List PlacedToken}
    (h : Laid (fun front p => p = .after front) before rest words) :
    through ⟨.after before, ts, .between⟩ rest = .ok (ts.reverse ++ words) := by
  induction h generalizing ts with
  | @last before gap h =>
    rw [List.append_nil]
    cases h with
    | gap h =>
      rw [← List.append_nil gap, through_gap h]
      rfl
    | comment h hbody => rw [through_gap h, through_lastLine hbody]
  | word hgap hword hend hplace _ ih =>
    rw [through_gap hgap, through_word hword hend, ih, ← hplace]
    simp

/-- What scanning finds is how the text is laid out. -/
theorem laid_of_through {found : List PlacedToken}
    (h : through ⟨.after before, ts, .between⟩ rest = .ok found) :
    ∃ words, found = ts.reverse ++ words ∧
      Laid (fun front p => p = .after front) before rest words := by
  induction rest using textInduction generalizing before ts found with
  | nil =>
    cases h
    exact ⟨[], by simp, .last (.gap .nil)⟩
  | blank c rest hc ih =>
    rw [through_blank hc] at h
    obtain ⟨words, rfl, hlaid⟩ := ih h
    exact ⟨words, rfl, hlaid.gap (.blank hc .nil)⟩
  | comment body rest hbody ih =>
    rw [through_line hbody] at h
    obtain ⟨words, rfl, hlaid⟩ := ih h
    refine ⟨words, rfl, ?_⟩
    have hgap := hlaid.gap (.comment hbody .nil)
    simpa using hgap
  | lastComment body hbody =>
    rw [through_lastLine hbody] at h
    cases h
    exact ⟨[], by simp, .last (.comment .nil hbody)⟩
  | word t rest hword hend ih =>
    rw [through_word hword hend] at h
    obtain ⟨words, rfl, hlaid⟩ := ih h
    exact ⟨⟨t, .after before⟩ :: words, by simp, .first hword hend rfl hlaid⟩
  | nameless rest hend =>
    rw [through_nameless hend] at h
    cases h
  | stray c rest hc =>
    rw [through_stray hc] at h
    cases h

end

end

end Scan

/-- Scanning gives words if and only if the text is laid out as them. -/
theorem scan_eq_ok_iff {text : List Char} {ts : List PlacedToken} :
    scan text = .ok ts ↔ Laid (fun front p => p = .after front) [] text ts := by
  constructor
  · intro h
    have hthrough : Scan.through ⟨.after [], [], .between⟩ text = .ok ts := h
    obtain ⟨words, rfl, hlaid⟩ := Scan.laid_of_through hthrough
    exact hlaid
  · intro h
    have hthrough : Scan.start.through text = .ok ([].reverse ++ ts) := Scan.through_of_laid h
    exact hthrough

theorem tokens_eq_ok_iff {source : String} {ts : List PlacedToken} :
    tokens source = .ok ts ↔ scan source.toList = .ok ts := by
  unfold tokens
  cases scan source.toList with
  | error e => simp [Except.mapError]
  | ok words => simp [Except.mapError]

/-! ## The laws -/

/-- A text is cut into words as it is laid out: into these words if and only if it consists of
them, with gaps of blanks and comments around them, no name running into what follows it, and
the place of each word counted out from all the text before it. -/
theorem a_text_is_cut_as_it_is_laid_out (source : String)
    (hsize : source.utf8ByteSize < UInt32.size - 1) (words : List PlacedToken) :
    tokens source = .ok words ↔ Laid Position.IsAfter [] source.toList words := by
  have hfront : ∀ front p, front <+: source.toList →
      (Position.IsAfter front p ↔ p = .after front) := by
    intro front p hprefix
    obtain ⟨back, hback⟩ := hprefix
    refine Position.isAfter_iff (Nat.lt_of_le_of_lt ?_ hsize)
    rw [← source.ofList_toList, ← hback, String.ofList_append, String.utf8ByteSize_append]
    exact Nat.le_add_right _ _
  rw [tokens_eq_ok_iff, scan_eq_ok_iff]
  constructor
  · exact Laid.mono fun front p hprefix => (hfront front p hprefix).mpr
  · exact Laid.mono fun front p hprefix => (hfront front p hprefix).mp

/-- A comment, a line feed and a name of two bytes, each of which moves the places after it in
its own way. -/
theorem a_pattern_on_two_lines_is_laid_out :
    "(ε; all\n'if*)".utf8ByteSize < UInt32.size - 1 ∧
      Laid Position.IsAfter [] "(ε; all\n'if*)".toList
        [⟨.openList, ⟨0, 1, 1⟩⟩, ⟨.terminal "ε", ⟨1, 1, 2⟩⟩, ⟨.literal "if", ⟨9, 2, 1⟩⟩,
          ⟨.star, ⟨12, 2, 4⟩⟩, ⟨.closeList, ⟨13, 2, 5⟩⟩] :=
  ⟨by decide, (a_text_is_cut_as_it_is_laid_out _ (by decide) _).mp (by decide)⟩

end Pattern

end TreePasses
