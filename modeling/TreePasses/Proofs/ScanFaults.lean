-- Where scanning fails. All the text before the fault is cut into words of its own, no comment is
-- open there, and no word can start with what stands there. And wherever a text goes on like that,
-- scanning fails at that place.
import TreePasses.Proofs.Scanning

namespace TreePasses

namespace Text

/-! ## Sizes and last lines -/

theorem size_append (front back : List Char) : (String.ofList (front ++ back)).utf8ByteSize =
    (String.ofList front).utf8ByteSize + (String.ofList back).utf8ByteSize := by
  rw [String.ofList_append, String.utf8ByteSize_append]

theorem size_le_size_append (front back : List Char) :
    (String.ofList front).utf8ByteSize ≤ (String.ofList (front ++ back)).utf8ByteSize := by
  rw [size_append]
  exact Nat.le_add_right _ _

theorem eq_nil_of_size_eq_zero {text : List Char} (h : (String.ofList text).utf8ByteSize = 0) :
    text = [] := by
  have hlength := length_le_size text
  exact List.eq_nil_of_length_eq_zero (by omega)

theorem mem_lastLine_append_iff {c : Char} {front back : List Char} :
    c ∈ lastLine (front ++ back) ↔ c ∈ lastLine back ∨ '\n' ∉ back ∧ c ∈ lastLine front := by
  induction back using List.reverseRecOn with
  | nil => simp [lastLine]
  | append_singleton back d ih =>
    rw [← List.append_assoc, lastLine_append_singleton, lastLine_append_singleton]
    by_cases hd : d = '\n'
    · simp [hd]
    · simp only [hd, if_false, List.mem_append, List.mem_singleton, ih, Ne.symm hd, or_false]
      exact or_right_comm

theorem mem_of_mem_lastLine {c : Char} {text : List Char} (h : c ∈ lastLine text) : c ∈ text := by
  simp only [lastLine, List.mem_reverse] at h
  exact List.mem_reverse.mp ((List.takeWhile_sublist _).subset h)

end Text

namespace Pattern

open Text (Position Excerpt Diagnostic)

/-! ## Comments that are open -/

/-- Whether a text ends inside a comment. A semicolon starts a comment unless it stands in one, so
there is one on the last line. -/
def endsInComment (text : List Char) : Bool := (Text.lastLine text).contains ';'

theorem endsInComment_eq_false_iff {text : List Char} :
    endsInComment text = false ↔ ';' ∉ Text.lastLine text := by
  simp [endsInComment]

theorem endsInComment_append {front back : List Char} (hf : endsInComment front = false)
    (hb : endsInComment back = false) : endsInComment (front ++ back) = false := by
  rw [endsInComment_eq_false_iff] at hf hb ⊢
  rw [Text.mem_lastLine_append_iff]
  rintro (h | ⟨-, h⟩)
  · exact hb h
  · exact hf h

theorem endsInComment_of_append {front back : List Char}
    (h : endsInComment (front ++ back) = false) : endsInComment back = false := by
  rw [endsInComment_eq_false_iff, Text.mem_lastLine_append_iff] at h
  exact endsInComment_eq_false_iff.mpr fun hb => h (.inl hb)

theorem endsInComment_of_not_mem {text : List Char} (h : ';' ∉ text) :
    endsInComment text = false :=
  endsInComment_eq_false_iff.mpr fun hmem => h (Text.mem_of_mem_lastLine hmem)

/-- A gap inside a text has closed its comments. -/
theorem Gap.endsInComment_eq {gap : List Char} (h : Gap gap) : endsInComment gap = false := by
  induction h with
  | nil => rfl
  | @blank c rest hc _ ih =>
    have hblank : endsInComment [c] = false := by
      apply endsInComment_of_not_mem
      rw [List.mem_singleton]
      rintro rfl
      cases hc
    exact endsInComment_append hblank ih
  | @comment body rest hbody _ ih =>
    have hline : endsInComment (';' :: body ++ ['\n']) = false := by
      rw [endsInComment_eq_false_iff, Text.lastLine_append_singleton]
      simp
    simpa using endsInComment_append hline ih

/-- At the end of a text, only an open comment is more than a gap. -/
theorem LastGap.gap_of {gap : List Char} (h : LastGap gap) (hopen : endsInComment gap = false) :
    Gap gap := by
  cases h with
  | gap h => exact h
  | @comment gap body h hbody =>
    rw [endsInComment_eq_false_iff, Text.mem_lastLine_append_iff] at hopen
    refine absurd (.inl ?_) hopen
    rw [← List.singleton_append, Text.mem_lastLine_append_iff]
    exact .inr ⟨hbody, by decide⟩

theorem Token.endsInComment_chars {t : Token} (h : t.isWritable = true) :
    endsInComment t.chars = false := by
  have hname : ∀ name : List Char, isName name = true → ';' ∉ name := by
    intro name hname hmem
    exact absurd (isNameChar_of_mem hname hmem) (by decide)
  apply endsInComment_of_not_mem
  cases t with
  | literal name =>
    rw [Token.chars, List.mem_cons, not_or]
    exact ⟨by decide, hname _ h⟩
  | terminal name =>
    simp only [Token.isWritable, isTerminalName, Bool.and_eq_true] at h
    exact hname _ h.1
  | _ => decide

/-! ## A start of a text -/

/-- A word that is over at the end of a text's start is over in the whole text if the rest of the
text does not go on with its name. -/
theorem Token.endsBefore_append {t : Token} {front back : List Char}
    (hf : t.endsBefore front = true) (hb : front = [] → t.endsBefore back = true) :
    t.endsBefore (front ++ back) = true := by
  cases front with
  | nil => exact hb rfl
  | cons c front => exact hf

theorem Token.endsBefore_of_append {t : Token} {front back : List Char}
    (h : t.endsBefore (front ++ back) = true) : t.endsBefore front = true := by
  cases front with
  | nil => simp [Token.endsBefore, endsName]
  | cons c front => exact h

/-- The start of a text, which goes on with `back`, is cut into words on its own as it is in the
whole text: it is laid out as them, no comment is open at its end, and each word is over where the
text goes on. -/
structure StartsWith (before front back : List Char) (words : List PlacedToken) : Prop where
  laid : Laid (fun front p => p = .after front) before front words
  comment : endsInComment front = false
  ended : ∀ t ∈ words, ∃ earlier later, before ++ front = earlier ++ (t.token.chars ++ later) ∧
    t.position = .after earlier ∧ t.token.endsBefore (later ++ back) = true

section

variable {before front back : List Char} {words : List PlacedToken}

theorem StartsWith.nil : StartsWith before [] back [] := ⟨.last (.gap .nil), rfl, by simp⟩

theorem StartsWith.gap {gap : List Char} (hgap : Gap gap)
    (h : StartsWith (before ++ gap) front back words) :
    StartsWith before (gap ++ front) back words := by
  refine ⟨h.laid.gap hgap, endsInComment_append hgap.endsInComment_eq h.comment, ?_⟩
  simpa using h.ended

theorem StartsWith.word {t : Token} (hword : t.isWritable = true)
    (hend : t.endsBefore (front ++ back) = true)
    (h : StartsWith (before ++ t.chars) front back words) :
    StartsWith before (t.chars ++ front) back (⟨t, .after before⟩ :: words) := by
  refine ⟨.first hword (Token.endsBefore_of_append hend) rfl h.laid,
    endsInComment_append (Token.endsInComment_chars hword) h.comment, ?_⟩
  intro u hu
  rcases List.mem_cons.mp hu with rfl | hu
  · exact ⟨before, front, rfl, rfl, hend⟩
  · simpa using h.ended u hu

/-- Scanning that fails has cut all the text before the fault into words. -/
theorem Scan.exists_startsWith_of_through {ts : List PlacedToken} {rest : List Char}
    {fault : ScanFault} {place : Position}
    (h : through ⟨.after before, ts, .between⟩ rest = .error (fault, place)) :
    ∃ front back words, rest = front ++ back ∧ place = .after (before ++ front) ∧
      fault.StandsAt back ∧ StartsWith before front back words := by
  induction rest using textInduction generalizing before ts with
  | nil => cases h
  | blank c rest hc ih =>
    rw [through_blank hc] at h
    obtain ⟨front, back, words, rfl, rfl, hfault, hstart⟩ := ih h
    exact ⟨c :: front, back, words, by simp, by simp, hfault, hstart.gap (.blank hc .nil)⟩
  | comment body rest hbody ih =>
    rw [through_line hbody] at h
    obtain ⟨front, back, words, rfl, rfl, hfault, hstart⟩ := ih h
    have hgap := hstart.gap (.comment hbody .nil)
    exact ⟨';' :: (body ++ '\n' :: front), back, words, by simp, by simp, hfault,
      by simpa using hgap⟩
  | lastComment body hbody =>
    rw [through_lastLine hbody] at h
    cases h
  | word t rest hword hend ih =>
    rw [through_word hword hend] at h
    obtain ⟨front, back, words, rfl, rfl, hfault, hstart⟩ := ih h
    exact ⟨t.chars ++ front, back, _, by simp, by simp, hfault, hstart.word hword hend⟩
  | nameless rest hend =>
    rw [through_nameless hend] at h
    cases h
    exact ⟨[], '\'' :: rest, [], rfl, by simp, ⟨rest, rfl, hend⟩, .nil⟩
  | stray c rest hc =>
    rw [through_stray hc] at h
    cases h
    exact ⟨[], c :: rest, [], rfl, by simp, ⟨rest, rfl, hc⟩, .nil⟩

/-- Scanning gets through a start of a text that is laid out as words, as long as no comment and no
name goes on where the start ends. -/
theorem Scan.through_append {ts : List PlacedToken}
    (h : Laid (fun front p => p = .after front) before front words)
    (hopen : endsInComment front = false)
    (hlast : ∀ t ∈ words, ∀ earlier, before ++ front = earlier ++ t.token.chars →
      t.position = .after earlier → t.token.endsBefore back = true) :
    through ⟨.after before, ts, .between⟩ (front ++ back) =
      through ⟨.after (before ++ front), words.reverse ++ ts, .between⟩ back := by
  induction h generalizing ts with
  | last h => exact through_gap (h.gap_of hopen)
  | @word before gap front t words hgap hword hend hplace _ ih =>
    have hover : t.token.endsBefore (front ++ back) = true := by
      refine Token.endsBefore_append hend ?_
      rintro rfl
      exact hlast t (by simp) (before ++ gap) (by simp) hplace
    have hmore := endsInComment_of_append (endsInComment_of_append hopen)
    rw [List.append_assoc, List.append_assoc, through_gap hgap, through_word hword hover,
      ih hmore fun u hu earlier heq => hlast u (by simp [hu]) earlier (by simpa using heq),
      ← hplace]
    simp

/-- Nothing starts with a fault. -/
theorem Scan.through_fault {ts : List PlacedToken} {p : Position} {fault : ScanFault}
    (h : fault.StandsAt back) : through ⟨p, ts, .between⟩ back = .error (fault, p) := by
  cases fault with
  | unrecognized c =>
    obtain ⟨rest, rfl, hc⟩ := h
    exact through_stray hc
  | namelessLiteral =>
    obtain ⟨rest, rfl, hend⟩ := h
    exact through_nameless hend

end

/-- A fault of scanning stands right after all the text before it. -/
theorem exists_of_scan_eq_error {text : List Char} {fault : ScanFault} {place : Position}
    (h : scan text = .error (fault, place)) :
    ∃ front back, text = front ++ back ∧ place = .after front ∧ fault.StandsAt back := by
  have hthrough : Scan.through ⟨.after [], [], .between⟩ text = .error (fault, place) := h
  obtain ⟨front, back, -, htext, hplace, hfault, -⟩ := Scan.exists_startsWith_of_through hthrough
  exact ⟨front, back, htext, hplace, hfault⟩

/-! ## First faults -/

/-- How many bytes of a text there are up to the end of a word. -/
def PlacedToken.endOffset (t : PlacedToken) : Nat :=
  t.position.offset.toNat + t.token.text.utf8ByteSize

/-- A text that goes from `front` on to `back` has its first fault there. The text before is cut
into words of its own, none of which the rest would make longer; it does not end inside a comment;
and no word starts with what stands there. -/
structure FirstFault (front back : List Char) (fault : ScanFault) : Prop where
  words : ∃ words, tokens (String.ofList front) = .ok words ∧
    ∀ t ∈ words, t.endOffset = (String.ofList front).utf8ByteSize → t.token.endsBefore back = true
  comment : endsInComment front = false
  stands : fault.StandsAt back

theorem ScanFault.StandsAt.ne_nil {fault : ScanFault} {text : List Char}
    (h : fault.StandsAt text) : text ≠ [] := by
  cases fault with
  | unrecognized c =>
    obtain ⟨rest, rfl, -⟩ := h
    exact List.cons_ne_nil _ _
  | namelessLiteral =>
    obtain ⟨rest, rfl, -⟩ := h
    exact List.cons_ne_nil _ _

section

variable {front back : List Char} {fault : ScanFault}

/-- Where scanning has failed is the first fault. -/
theorem firstFault_of_startsWith
    (hsize : (String.ofList front).utf8ByteSize < UInt32.size - 1) {words : List PlacedToken}
    (hfault : fault.StandsAt back) (h : StartsWith [] front back words) :
    FirstFault front back fault := by
  refine ⟨⟨words, ?_, ?_⟩, h.comment, hfault⟩
  · rw [tokens_eq_ok_iff, String.toList_ofList]
    exact scan_eq_ok_iff.mpr h.laid
  · intro t ht hend
    obtain ⟨earlier, later, heq, hplace, hover⟩ := h.ended t ht
    rw [List.nil_append] at heq
    subst heq
    have hplace := (Position.isAfter_iff
      (Nat.lt_of_le_of_lt (Text.size_le_size_append _ _) hsize)).mpr hplace
    -- The word ends where the start does, so nothing is left after it.
    rw [PlacedToken.endOffset, Token.text, hplace.offset, Text.size_append,
      Text.size_append] at hend
    have hlater : later = [] := Text.eq_nil_of_size_eq_zero (by omega)
    rwa [hlater] at hover

/-- Scanning fails at the first fault. -/
theorem FirstFault.scan_eq (h : FirstFault front back fault)
    (hsize : (String.ofList front).utf8ByteSize < UInt32.size - 1) :
    scan (front ++ back) = .error (fault, .after front) := by
  obtain ⟨⟨words, hwords, hlast⟩, hopen, hfault⟩ := h
  rw [tokens_eq_ok_iff, String.toList_ofList, scan_eq_ok_iff] at hwords
  have hover : ∀ t ∈ words, ∀ earlier, [] ++ front = earlier ++ t.token.chars →
      t.position = .after earlier → t.token.endsBefore back = true := by
    rintro t ht earlier rfl hplace
    have hplace := (Position.isAfter_iff
      (Nat.lt_of_le_of_lt (Text.size_le_size_append _ _) hsize)).mpr hplace
    apply hlast t ht
    rw [PlacedToken.endOffset, Token.text, hplace.offset, Text.size_append]
  have hthrough : scan (front ++ back) = Scan.through ⟨.after front, words.reverse ++ [], .between⟩
      back := Scan.through_append hwords hopen hover
  rw [hthrough, Scan.through_fault hfault]

end

/-- Scanning fails if and only if the text has a first fault, and that is what it fails with. -/
theorem scan_eq_error_iff {text : List Char} {fault : ScanFault} {place : Position}
    (hsize : (String.ofList text).utf8ByteSize < UInt32.size - 1) :
    scan text = .error (fault, place) ↔ ∃ front back, text = front ++ back ∧
      FirstFault front back fault ∧ Position.IsAfter front place := by
  constructor
  · intro h
    have hthrough : Scan.through ⟨.after [], [], .between⟩ text = .error (fault, place) := h
    obtain ⟨front, back, words, rfl, rfl, hfault, hstart⟩ :=
      Scan.exists_startsWith_of_through hthrough
    have hfront := Nat.lt_of_le_of_lt (Text.size_le_size_append front back) hsize
    exact ⟨front, back, rfl, firstFault_of_startsWith hfront hfault hstart,
      (Position.isAfter_iff hfront).mpr rfl⟩
  · rintro ⟨front, back, rfl, hfault, hplace⟩
    have hfront := Nat.lt_of_le_of_lt (Text.size_le_size_append front back) hsize
    rw [(Position.isAfter_iff hfront).mp hplace]
    exact hfault.scan_eq hfront

theorem tokens_eq_error_iff {source : String} {cause : Diagnostic ScanFault} :
    tokens source = .error cause ↔ scan source.toList = .error (cause.fault, cause.position) ∧
      cause.excerpt = .of source.toList cause.position := by
  obtain ⟨fault, position, excerpt⟩ := cause
  unfold tokens
  cases scan source.toList with
  | ok words => simp [Except.mapError]
  | error e =>
    simp only [Except.mapError, Diagnostic.of, Except.error.injEq, Diagnostic.mk.injEq,
      Prod.ext_iff, and_assoc]
    refine and_congr_right fun _ => and_congr_right ?_
    rintro rfl
    exact eq_comm

/-! ## The laws -/

/-- Cutting a text into words fails if and only if the text has a first fault, and the message names
that fault and the place right after all the text before it. A character stands there, so the place
is inside the text. -/
theorem scanning_fails_at_the_first_fault (source : String)
    (hsize : source.utf8ByteSize < UInt32.size - 1) (cause : Diagnostic ScanFault) :
    (tokens source = .error cause ↔
      (∃ front back, source.toList = front ++ back ∧ FirstFault front back cause.fault ∧
        Position.IsAfter front cause.position) ∧
      cause.excerpt = .of source.toList cause.position) ∧
    (tokens source = .error cause → cause.position.offset.toNat < source.utf8ByteSize) := by
  rw [← source.ofList_toList] at hsize
  rw [tokens_eq_error_iff, scan_eq_error_iff hsize]
  refine ⟨Iff.rfl, ?_⟩
  rintro ⟨⟨front, back, htext, hfault, hplace⟩, -⟩
  rw [hplace.offset, ← source.ofList_toList, htext, Text.size_append]
  have hback : (String.ofList back).utf8ByteSize ≠ 0 :=
    fun h => hfault.stands.ne_nil (Text.eq_nil_of_size_eq_zero h)
  omega

/-- The first digit stands in a comment and the second in a name, so the third is the first fault;
and a quote is one if a bracket follows it. -/
theorem a_digit_and_a_quote_are_first_faults :
    ("; 1\n'a1 2".utf8ByteSize < UInt32.size - 1 ∧
      ∃ cause, tokens "; 1\n'a1 2" = .error cause ∧ cause.fault = .unrecognized '2' ∧
        cause.position = ⟨8, 2, 5⟩ ∧
        ∃ front back, "; 1\n'a1 2".toList = front ++ back ∧ FirstFault front back cause.fault ∧
          Position.IsAfter front cause.position) ∧
    ("(ε')".utf8ByteSize < UInt32.size - 1 ∧
      FirstFault "(ε".toList "')".toList .namelessLiteral ∧
      Position.IsAfter "(ε".toList ⟨3, 1, 3⟩ ∧
      tokens "(ε')" = .error (.of "(ε')".toList .namelessLiteral ⟨3, 1, 3⟩)) := by
  have hquote : FirstFault "(ε".toList "')".toList .namelessLiteral :=
    ⟨⟨[⟨.openList, ⟨0, 1, 1⟩⟩, ⟨.terminal "ε", ⟨1, 1, 2⟩⟩], by decide, by decide⟩, by decide,
      [')'], rfl, by decide⟩
  have hplace : Position.IsAfter "(ε".toList ⟨3, 1, 3⟩ := ⟨by decide, by decide, by decide⟩
  refine ⟨⟨by decide, ⟨.unrecognized '2', ⟨8, 2, 5⟩, ⟨"'a1 2".toList, 5⟩⟩, rfl, rfl, rfl, ?_⟩,
    by decide, hquote, hplace, ?_⟩
  · exact ((scanning_fails_at_the_first_fault _ (by decide) _).1.mp rfl).1
  · exact (scanning_fails_at_the_first_fault _ (by decide) _).1.mpr
      ⟨⟨_, _, rfl, hquote, hplace⟩, rfl⟩

end Pattern

end TreePasses
