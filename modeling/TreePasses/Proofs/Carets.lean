-- Where the message about a pattern points: the line it shows is the one that holds the byte at
-- fault, and the caret below stands under the character there.
import TreePasses.Proofs.ScanFaults
import TreePasses.Proofs.Unfinished

namespace TreePasses

namespace Text

/-! ## Lines -/

/-- A line less a carriage return at its end. -/
def dropReturn (line : List Char) : List Char :=
  if line.getLast? = some '\r' then line.dropLast else line

theorem dropReturn_cons {c : Char} {line : List Char} (h : c = '\r' → line ≠ []) :
    dropReturn (c :: line) = c :: dropReturn line := by
  unfold dropReturn
  cases line with
  | nil => simp_all
  | cons d line =>
    by_cases hlast : (d :: line).getLast? = some '\r'
    · simp [hlast, List.getLast?_cons_cons]
    · simp [hlast, List.getLast?_cons_cons]

theorem getElem?_dropReturn {text : List Char} {i : Nat} {c : Char} (h : text[i]? = some c)
    (hc : c ≠ '\r') : (dropReturn text)[i]? = some c := by
  unfold dropReturn
  by_cases hlast : text.getLast? = some '\r'
  · have hi := (List.getElem?_eq_some_iff.mp h).1
    have hne : i ≠ text.length - 1 := by
      intro heq
      rw [List.getLast?_eq_getElem?, ← heq, h] at hlast
      exact hc (Option.some.inj hlast)
    rw [if_pos hlast, List.getElem?_dropLast, if_pos (by omega), h]
  · rw [if_neg hlast, h]

theorem lines_cons {c : Char} {rest : List Char} (hc : c ≠ '\n')
    (hreturn : c = '\r' → rest.head? ≠ some '\n') :
    lines (c :: rest) = (c :: (lines rest).headD []) :: (lines rest).tail := by
  rw [lines]
  · cases lines rest <;> rfl
  · exact hc
  · intro later h hrest
    exact hreturn h (by simp [hrest])

/-- A line feed ends the first line, and a carriage return before it goes with it. -/
theorem lines_append {line : List Char} (h : '\n' ∉ line) (rest : List Char) :
    lines (line ++ '\n' :: rest) = dropReturn line :: lines rest := by
  induction line with
  | nil => simp [lines, dropReturn]
  | cons c line ih =>
    rw [List.mem_cons, not_or] at h
    by_cases hreturn : c = '\r' ∧ line = []
    · simp [hreturn.1, hreturn.2, lines, dropReturn]
    · rw [not_and] at hreturn
      have hhead : c = '\r' → (line ++ '\n' :: rest).head? ≠ some '\n' := by
        intro hc hhead
        cases line with
        | nil => exact hreturn hc rfl
        | cons d line => exact h.2 (by simp_all)
      rw [List.cons_append, lines_cons (Ne.symm h.1) hhead, ih h.2, dropReturn_cons hreturn,
        List.headD_cons, List.tail_cons]

/-- The last line has no end to drop. -/
theorem lines_of_not_mem {line : List Char} (h : '\n' ∉ line) :
    lines line = if line = [] then [] else [line] := by
  induction line with
  | nil => rfl
  | cons c line ih =>
    rw [List.mem_cons, not_or] at h
    rw [lines_cons (Ne.symm h.1), ih h.2]
    · cases line <;> simp
    · intro _ hhead
      exact h.2 (List.mem_of_mem_head? hhead)

/-- A text that is over with a line, or is empty, is a line for each of its line feeds. -/
theorem exists_lines_append {front : List Char} (h : front = [] ∨ front.getLast? = some '\n')
    (rest : List Char) :
    ∃ earlier, lines (front ++ rest) = earlier ++ lines rest ∧
      earlier.length = front.count '\n' := by
  induction hn : front.length using Nat.strongRecOn generalizing front with
  | ind n ih =>
    rcases Pattern.exists_line_append front with hline | ⟨line, later, rfl, hline⟩
    · have hnil : front = [] := h.resolve_right fun hlast => hline (List.mem_of_getLast? hlast)
      exact ⟨[], by simp [hnil], by simp [hnil]⟩
    · have hlater : later = [] ∨ later.getLast? = some '\n' := by
        cases later with
        | nil => exact .inl rfl
        | cons c later => simpa using h
      obtain ⟨earlier, heq, hlength⟩ := ih later.length (by simp at hn; omega) hlater rfl
      refine ⟨dropReturn line :: earlier, ?_, ?_⟩
      · rw [List.append_assoc, List.cons_append, lines_append hline, heq, List.cons_append]
      · simp [hlength, List.count_eq_zero_of_not_mem hline]

theorem not_mem_lastLine (text : List Char) : '\n' ∉ lastLine text := by
  intro h
  simp only [lastLine, List.mem_reverse] at h
  simpa using List.mem_takeWhile_imp h

/-- A text is its lines that are over, and the one that is not. -/
theorem exists_eq_append_lastLine (text : List Char) :
    ∃ front, text = front ++ lastLine text ∧ (front = [] ∨ front.getLast? = some '\n') := by
  induction text using List.reverseRecOn with
  | nil => exact ⟨[], rfl, .inl rfl⟩
  | append_singleton text c ih =>
    rw [lastLine_append_singleton]
    by_cases hc : c = '\n'
    · exact ⟨text ++ [c], by simp [hc], .inr (by simp [hc])⟩
    · obtain ⟨front, heq, hfront⟩ := ih
      refine ⟨front, ?_, hfront⟩
      rw [if_neg hc, ← List.append_assoc, ← heq]

/-- Whether a line of a text, as it is shown, is the one that holds a byte of the text: what stands
between two line feeds, or an end of the text, less a carriage return right before the line feed
that closes it. A line feed belongs to the line it closes, and the end of the text to the last
line. -/
def IsLineAt (text : List Char) (offset : Nat) (line : List Char) : Prop :=
  ∃ before whole rest, text = before ++ (whole ++ rest) ∧ '\n' ∉ whole ∧
    (before = [] ∨ before.getLast? = some '\n') ∧
    (rest = [] ∧ line = whole ∨ rest.head? = some '\n' ∧ line = dropReturn whole) ∧
    (String.ofList before).utf8ByteSize ≤ offset ∧
    offset ≤ (String.ofList (before ++ whole)).utf8ByteSize

/-- The line of a text that the line feeds before a place of it count out. -/
def lineAfter (before rest : List Char) : List Char :=
  ((lines (before ++ rest))[before.count '\n']?).getD []

/-- The line at a place is what stands between the line feeds around it. -/
theorem exists_lineAfter (before rest : List Char) :
    ∃ front more back, before = front ++ lastLine before ∧
      (front = [] ∨ front.getLast? = some '\n') ∧ rest = more ++ back ∧ '\n' ∉ more ∧
      (back = [] ∧ lineAfter before rest = lastLine before ++ more ∨
        back.head? = some '\n' ∧ lineAfter before rest = dropReturn (lastLine before ++ more)) := by
  obtain ⟨front, hbefore, hfront⟩ := exists_eq_append_lastLine before
  have hlast := not_mem_lastLine before
  have hcount : before.count '\n' = front.count '\n' := by
    have heq := congrArg (List.count '\n') hbefore
    rwa [List.count_append, List.count_eq_zero_of_not_mem hlast] at heq
  -- The lines before this one are as many as the line feeds.
  have hline : lineAfter before rest = ((lines (lastLine before ++ rest))[0]?).getD [] := by
    obtain ⟨earlier, heq, hlength⟩ := exists_lines_append hfront (lastLine before ++ rest)
    rw [← List.append_assoc, ← hbefore] at heq
    rw [lineAfter, heq, hcount, ← hlength, List.getElem?_append_right (Nat.le_refl _), Nat.sub_self]
  rw [hline]
  rcases Pattern.exists_line_append rest with hrest | ⟨more, later, rfl, hmore⟩
  · refine ⟨front, rest, [], hbefore, hfront, by simp, hrest, .inl ⟨rfl, ?_⟩⟩
    rw [lines_of_not_mem (by simp [hlast, hrest])]
    by_cases hnil : lastLine before ++ rest = []
    · rw [if_pos hnil, hnil]
      rfl
    · rw [if_neg hnil]
      rfl
  · refine ⟨front, more, '\n' :: later, hbefore, hfront, rfl, hmore, .inr ⟨rfl, ?_⟩⟩
    rw [← List.append_assoc, lines_append (by simp [hlast, hmore])]
    rfl

theorem isLineAt_lineAfter (before rest : List Char) :
    IsLineAt (before ++ rest) (String.ofList before).utf8ByteSize (lineAfter before rest) := by
  obtain ⟨front, more, back, hbefore, hfront, rfl, hmore, hline⟩ := exists_lineAfter before rest
  refine ⟨front, lastLine before ++ more, back, ?_, ?_, hfront, hline, ?_, ?_⟩
  · simp [← List.append_assoc, ← hbefore]
  · simp [not_mem_lastLine, hmore]
  · rw [hbefore]
    exact size_le_size_append _ _
  · rw [← List.append_assoc, ← hbefore]
    exact size_le_size_append _ _

/-- At the end of a text the line is over. -/
theorem lineAfter_nil (before : List Char) : lineAfter before [] = lastLine before := by
  obtain ⟨-, more, back, -, -, hrest, -, hline⟩ := exists_lineAfter before []
  obtain ⟨rfl, rfl⟩ := List.append_eq_nil_iff.mp hrest.symm
  simpa using hline

/-- A character that is no blank is part of its line, after what stands on the line before it. -/
theorem getElem?_lineAfter {c : Char} (hc : isBlank c = false) (before rest : List Char) :
    (lineAfter before (c :: rest))[(lastLine before).length]? = some c := by
  obtain ⟨-, more, back, -, -, hrest, -, hline⟩ := exists_lineAfter before (c :: rest)
  have hmore : more.head? = some c := by
    cases more with
    | nil =>
      -- Then the text is over here, or a line feed stands here, which is a blank.
      rcases hline with ⟨rfl, -⟩ | ⟨hback, -⟩
      · cases hrest
      · rw [List.nil_append] at hrest
        rw [← hrest] at hback
        cases hback
        cases hc
    | cons d more =>
      cases hrest
      rfl
  have hwhole : (lastLine before ++ more)[(lastLine before).length]? = some c := by
    rw [List.getElem?_append_right (Nat.le_refl _), Nat.sub_self, ← List.head?_eq_getElem?, hmore]
  rcases hline with ⟨-, hline⟩ | ⟨-, hline⟩
  · rw [hline, hwhole]
  · rw [hline]
    apply getElem?_dropReturn hwhole
    intro hreturn
    rw [hreturn] at hc
    cases hc

/-! ## Excerpts -/

/-- Whether an excerpt of a text points at a place: it shows the line that holds the byte there, the
caret stands after as many blanks as the column asks for, tabs where the line has tabs, and the
character above the caret is the one at that byte. At the end of the text there is none, and the
caret stands right after the line. -/
structure Excerpt.PointsAt (e : Excerpt) (source : List Char) (p : Position) : Prop where
  line : IsLineAt source p.offset.toNat e.line
  marker : ∃ blanks, e.marker = blanks ++ ['^'] ∧ blanks.length + 1 = p.column.toNat ∧
    ∀ i < blanks.length, blanks[i]? = some (if e.line[i]? = some '\t' then '\t' else ' ')
  character :
    (∃ front c back, source = front ++ c :: back ∧
      (String.ofList front).utf8ByteSize = p.offset.toNat ∧
      e.line[p.column.toNat - 1]? = some c) ∨
    (p.offset.toNat = (String.ofList source).utf8ByteSize ∧ p.column.toNat - 1 = e.line.length)

/-- Whether a fault can stand at a place of a text: right before a character that is no blank, or at
the end. -/
def Position.IsFaultPlace (source : List Char) (p : Position) : Prop :=
  ∃ before rest, source = before ++ rest ∧ p = .after before ∧
    ∀ c, rest.head? = some c → isBlank c = false

/-- As many characters of the line are taken for the marker as it has up to the column. -/
theorem Excerpt.marker_eq {e : Excerpt} (h : e.column.toNat - 1 ≤ e.line.length) :
    ∃ blanks, e.marker = blanks ++ ['^'] ∧ blanks.length = e.column.toNat - 1 ∧
      ∀ i < blanks.length, blanks[i]? = some (if e.line[i]? = some '\t' then '\t' else ' ') := by
  refine ⟨_, rfl, by rw [List.length_map, List.length_take, Nat.min_eq_left h], ?_⟩
  intro i hi
  simp only [List.length_map, List.length_take] at hi
  have hline : i < e.line.length := by omega
  rw [List.getElem?_map, List.getElem?_take_of_lt (by omega), List.getElem?_eq_getElem hline]
  simp

/-- An excerpt made for such a place points at it. -/
theorem Excerpt.pointsAt_of {source : List Char} {p : Position}
    (hsize : (String.ofList source).utf8ByteSize < UInt32.size - 1)
    (h : p.IsFaultPlace source) : (Excerpt.of source p).PointsAt source p := by
  obtain ⟨before, rest, rfl, rfl, hrest⟩ := h
  obtain ⟨hoffset, hline, hcolumn⟩ :=
    (Position.isAfter_iff (Nat.lt_of_le_of_lt (size_le_size_append before rest) hsize)).mpr rfl
  have hshown : (Excerpt.of (before ++ rest) (.after before)).line = lineAfter before rest := by
    simp [Excerpt.of, lineAfter, hline]
  have hcaret : (Position.after before).column.toNat - 1 = (lastLine before).length := by omega
  have hreach : (lastLine before).length ≤ (lineAfter before rest).length := by
    cases rest with
    | nil => rw [lineAfter_nil]
    | cons c rest =>
      have hc := getElem?_lineAfter (hrest c rfl) before rest
      exact Nat.le_of_lt (List.getElem?_eq_some_iff.mp hc).1
  refine ⟨?_, ?_, ?_⟩
  · rw [hshown, hoffset]
    exact isLineAt_lineAfter before rest
  · obtain ⟨blanks, hmarker, hlength, hblanks⟩ :=
      Excerpt.marker_eq (e := Excerpt.of (before ++ rest) (.after before)) (by
        rw [hshown]
        exact hcaret ▸ hreach)
    refine ⟨blanks, hmarker, ?_, hblanks⟩
    have hcolumn : (Excerpt.of (before ++ rest) (.after before)).column.toNat =
        1 + (lastLine before).length := hcolumn
    omega
  · rw [hshown, hcaret]
    cases rest with
    | nil => exact .inr ⟨by simpa using hoffset, by rw [lineAfter_nil]⟩
    | cons c rest =>
      exact .inl ⟨before, c, rest, rfl, hoffset.symm, getElem?_lineAfter (hrest c rfl) before rest⟩

end Text

open Text (Position Excerpt)

/-! ## Places of faults -/

namespace Pattern

theorem Token.exists_chars_eq {t : Token} (h : t.isWritable = true) :
    ∃ c cs, t.chars = c :: cs ∧ Text.isBlank c = false := by
  cases t with
  | literal name => exact ⟨'\'', _, rfl, rfl⟩
  | terminal name =>
    have hname : isName name.toList = true := by
      simp only [Token.isWritable, isTerminalName, Bool.and_eq_true] at h
      exact h.1
    cases hchars : name.toList with
    | nil => simp [hchars, isName] at hname
    | cons c cs =>
      exact ⟨c, cs, hchars, isBlank_of_isNameChar (isNameChar_of_mem hname (by simp [hchars]))⟩
  | _ => exact ⟨_, [], rfl, rfl⟩

/-- A word that has a place in a text starts there. -/
theorem Laid.isFaultPlace {before rest : List Char} {ts : List PlacedToken}
    (h : Laid (fun front p => p = .after front) before rest ts) {t : PlacedToken} (ht : t ∈ ts) :
    t.position.IsFaultPlace (before ++ rest) := by
  induction h with
  | last => simp at ht
  | @word before gap rest word words _ hword _ hplace _ ih =>
    rcases List.mem_cons.mp ht with rfl | ht
    · obtain ⟨c, cs, hchars, hc⟩ := Token.exists_chars_eq hword
      refine ⟨before ++ gap, t.token.chars ++ rest, by simp, hplace, ?_⟩
      simp [hchars, hc]
    · simpa using ih ht

theorem isFaultPlace_of_scan {text : List Char} {fault : ScanFault} {place : Position}
    (h : scan text = .error (fault, place)) : place.IsFaultPlace text := by
  obtain ⟨front, back, rfl, rfl, hfault⟩ := exists_of_scan_eq_error h
  refine ⟨front, back, rfl, rfl, ?_⟩
  cases fault with
  | unrecognized c =>
    obtain ⟨rest, rfl, hc⟩ := hfault
    simpa using isBlank_of_isStray hc
  | namelessLiteral =>
    obtain ⟨rest, rfl, -⟩ := hfault
    intro c hc
    cases hc
    rfl

theorem excerpt_of_tokens {source : String} {cause : Text.Diagnostic ScanFault}
    (h : tokens source = .error cause) :
    cause.excerpt = .of source.toList cause.position ∧
      cause.position.IsFaultPlace source.toList := by
  unfold tokens at h
  cases hscan : scan source.toList with
  | ok words => simp [hscan, Except.mapError] at h
  | error e =>
    rw [hscan] at h
    cases h
    exact ⟨rfl, isFaultPlace_of_scan hscan⟩

end Pattern

namespace Clause

open Pattern (PlacedToken)

/-- The place of a fault is that of a word, or the end of the text. -/
theorem Explains.place_eq {words : List PlacedToken} {last place : Position} {fault : Fault}
    (h : Explains words last place fault) : place = last ∨ ∃ t ∈ words, t.position = place := by
  cases fault with
  | unterminatedList => exact .inr ⟨_, leftOpen_subset (List.mem_of_mem_head? h), rfl⟩
  | unterminatedGroup => exact .inr ⟨_, leftOpen_subset (List.mem_of_mem_head? h), rfl⟩
  | emptyPattern => exact .inl h.2
  | groupOutsideList => exact .inr ⟨_, List.mem_of_mem_head? h, rfl⟩
  | unexpected token =>
    obtain ⟨before, rest, rfl, -⟩ := h
    exact .inr ⟨⟨token, place⟩, by simp, rfl⟩
  | trailing token =>
    obtain ⟨before, rest, rfl, -⟩ := h
    exact .inr ⟨⟨token, place⟩, by simp, rfl⟩
  | emptyGroup =>
    obtain ⟨before, close, rest, rfl, -⟩ := h
    exact .inr ⟨⟨.openGroup, place⟩, by simp, rfl⟩

/-- Words that do not fit together are at fault where one of them starts, or at the end. -/
theorem isFaultPlace_of_ofTokens {text : List Char} {words : List PlacedToken} {fault : Fault}
    {place : Position} (hwords : Pattern.scan text = .ok words)
    (h : ofTokens words (.after text) = .error (fault, place)) : place.IsFaultPlace text := by
  have hlaid := Pattern.scan_eq_ok_iff.mp hwords
  rcases (explains_of_ofTokens hlaid.isWritable h).1.place_eq with rfl | ⟨t, ht, rfl⟩
  · exact ⟨text, [], by simp, rfl, by simp⟩
  · exact hlaid.isFaultPlace ht

/-- The excerpt that a message about a pattern shows. -/
def PatternError.excerpt : PatternError → Excerpt
  | .scan cause => cause.excerpt
  | .shape cause => cause.excerpt

theorem excerpt_of_read {source : String} {cause : PatternError} (h : read source = .error cause) :
    cause.excerpt = .of source.toList cause.position ∧
      cause.position.IsFaultPlace source.toList := by
  cases hwords : Pattern.tokens source with
  | error e =>
    rw [read, hwords] at h
    cases h
    exact Pattern.excerpt_of_tokens hwords
  | ok words =>
    rw [read_of_tokens hwords] at h
    cases hread : ofTokens words (.after source.toList) with
    | ok c => simp [hread, Except.mapError] at h
    | error e =>
      rw [hread] at h
      cases h
      exact ⟨rfl, isFaultPlace_of_ofTokens (Pattern.tokens_eq_ok_iff.mp hwords) hread⟩

/-! ## The laws -/

/-- The message about a text that cannot be cut into words, or is no pattern, points at the fault:
its line is the one that holds the byte at fault, and the caret below stands under the character
there, or right after the line if the fault is at the end of the text. -/
theorem carets_point_at_the_character_at_fault (source : String)
    (hsize : source.utf8ByteSize < UInt32.size - 1) :
    (∀ cause, Pattern.tokens source = .error cause →
      cause.excerpt.PointsAt source.toList cause.position) ∧
    ∀ cause, read source = .error cause →
      cause.excerpt.PointsAt source.toList cause.position := by
  rw [← source.ofList_toList] at hsize
  refine ⟨?_, ?_⟩
  · intro cause h
    obtain ⟨hexcerpt, hplace⟩ := Pattern.excerpt_of_tokens h
    rw [hexcerpt]
    exact Excerpt.pointsAt_of hsize hplace
  · intro cause h
    obtain ⟨hexcerpt, hplace⟩ := excerpt_of_read h
    rw [hexcerpt]
    exact Excerpt.pointsAt_of hsize hplace

/-- A character of two bytes and a tab stand before an empty group, and its line ends with a
carriage return and a line feed. The quote is the last character of its text. -/
theorem carets_under_a_group_and_under_a_quote :
    ("(ε\t[ ])\r\n".utf8ByteSize < UInt32.size - 1 ∧
      ∃ cause, read "(ε\t[ ])\r\n" = .error cause ∧ cause.position = ⟨4, 1, 4⟩ ∧
        cause.excerpt.marker = "  \t^".toList ∧
        cause.excerpt.PointsAt "(ε\t[ ])\r\n".toList cause.position) ∧
    ("; if\n\t'".utf8ByteSize < UInt32.size - 1 ∧
      ∃ cause, Pattern.tokens "; if\n\t'" = .error cause ∧ cause.position = ⟨6, 2, 2⟩ ∧
        cause.excerpt.marker = "\t^".toList ∧
        cause.excerpt.PointsAt "; if\n\t'".toList cause.position) :=
  ⟨⟨by decide, .shape ⟨.emptyGroup, ⟨4, 1, 4⟩, ⟨"(ε\t[ ])".toList, 4⟩⟩, rfl, rfl, rfl,
      (carets_point_at_the_character_at_fault _ (by decide)).2 _ rfl⟩,
    ⟨by decide, ⟨.namelessLiteral, ⟨6, 2, 2⟩, ⟨"\t'".toList, 2⟩⟩, rfl, rfl, rfl,
      (carets_point_at_the_character_at_fault _ (by decide)).1 _ rfl⟩⟩

end Clause

end TreePasses
