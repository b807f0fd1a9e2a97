-- Which words are read as which clause. Each clause has one way to be written in words, and
-- reading takes these words and no others back to the clause. Where the words stand in the text
-- plays no part in it.
import TreePasses.Clause.Reader
import TreePasses.Proofs.Scanning
import TreePasses.Proofs.Steps
import TreePasses.Proofs.Words

namespace TreePasses

open Pattern (Token PlacedToken)
open Text (Position)

/-- The sign of a quantifier, as a word. -/
def Quantifier.tokens : Quantifier → List Token
  | .one => []
  | .zeroOrMore => [.star]
  | .oneOrMore => [.plus]

namespace Clause

/-! ## The words of a clause -/

mutual

/-- The words of a clause: its brackets or its name, and its quantifier right after it. -/
def tokens : Clause → List Token
  | .list body q => .openList :: (bodyTokens body ++ .closeList :: q.tokens)
  | .group body q => .openGroup :: (bodyTokens body ++ .closeGroup :: q.tokens)
  | .literal name q => .literal name :: q.tokens
  | .terminal name q => .terminal name :: q.tokens

/-- The words of the clauses in a body, one after the other. -/
def bodyTokens : List Clause → List Token
  | [] => []
  | c :: cs => c.tokens ++ bodyTokens cs

end

mutual

/-- Whether no group in a clause is empty, at any depth. -/
def isFilled : Clause → Bool
  | .list body _ => allFilled body
  | .group body _ => !body.isEmpty && allFilled body
  | .literal _ _ => true
  | .terminal _ _ => true

/-- Whether no group in a body is empty, at any depth. -/
def allFilled : List Clause → Bool
  | [] => true
  | c :: cs => c.isFilled && allFilled cs

end

theorem bodyTokens_append (body more : List Clause) :
    bodyTokens (body ++ more) = bodyTokens body ++ bodyTokens more := by
  induction body with
  | nil => rfl
  | cons c cs ih => simp [bodyTokens, ih]

theorem allFilled_iff {body : List Clause} :
    allFilled body = true ↔ ∀ c ∈ body, c.isFilled = true := by
  induction body with
  | nil => simp [allFilled]
  | cons c cs ih => simp [allFilled, ih]

theorem allFilled_reverse (body : List Clause) : allFilled body.reverse = allFilled body := by
  rw [Bool.eq_iff_iff, allFilled_iff, allFilled_iff]
  simp

@[simp]
theorem isFilled_quantified (c : Clause) (q : Quantifier) :
    (c.quantified q).isFilled = c.isFilled := by
  cases c <;> simp [quantified, isFilled]

@[simp]
theorem isGroup_quantified (c : Clause) (q : Quantifier) :
    (c.quantified q).isGroup = c.isGroup := by
  cases c <;> rfl

/-- A quantifier is written right after what it repeats. -/
theorem tokens_quantified {c : Clause} (hc : c.quantifier = .one) (q : Quantifier) :
    (c.quantified q).tokens = c.tokens ++ q.tokens := by
  cases c <;> cases hc <;> simp [quantified, tokens, Quantifier.tokens]

/-! ## What has been read is what was written -/

/-- The word that opens a bracket. -/
def Bracket.opening : Bracket → Token
  | .list => .openList
  | .group => .openGroup

/-- The word that closes a bracket. -/
def Bracket.closing : Bracket → Token
  | .list => .closeList
  | .group => .closeGroup

/-- The clause that a pair of brackets makes of a body. -/
def Bracket.clause : Bracket → List Clause → Clause
  | .list, body => .list body .one
  | .group, body => .group body .one

/-- The words of an open bracket and of what has been read in it. -/
def Frame.written (f : Frame) : List Token := f.bracket.opening :: bodyTokens f.body.reverse

/-- The words of open brackets, given from the inside out. -/
def framesWritten : List Frame → List Token
  | [] => []
  | f :: fs => framesWritten fs ++ f.written

/-- What is known of open brackets, given from the inside out: what has been read in them has no
empty groups, and the outermost is a list. -/
def FramesGood : List Frame → Prop
  | [] => True
  | f :: fs => allFilled f.body = true ∧ (fs = [] → f.bracket = .list) ∧ FramesGood fs

namespace Progress

/-- All the words that have been read. -/
def written : Progress → List Token
  | .start => []
  | .inside top outer _ => framesWritten (top :: outer)
  | .complete root _ => root.tokens

/-- What is known however far a pattern has been read. A clause that a quantifier may follow
has none yet. -/
def Good : Progress → Prop
  | .start => True
  | .inside top outer fresh => FramesGood (top :: outer) ∧
      (fresh = true → ∀ c ∈ top.body.head?, c.quantifier = .one)
  | .complete root fresh => root.isGroup = false ∧ root.isFilled = true ∧
      (fresh = true → root.quantifier = .one)

theorem written_push (c : Clause) (fs : List Frame) :
    (push c fs).written = framesWritten fs ++ c.tokens := by
  cases fs with
  | nil => rfl
  | cons top outer =>
    simp [push, written, framesWritten, Frame.written, bodyTokens_append, bodyTokens]

theorem good_push {c : Clause} (hq : c.quantifier = .one) (hc : c.isFilled = true)
    {fs : List Frame} (hfs : FramesGood fs) (hroot : fs = [] → c.isGroup = false) :
    (push c fs).Good := by
  cases fs with
  | nil => exact ⟨hroot rfl, hc, fun _ => hq⟩
  | cons top outer =>
    obtain ⟨hfilled, houter⟩ := hfs
    exact ⟨⟨by simp [allFilled, hc, hfilled], houter⟩, by simp [hq]⟩

theorem written_eq_frames {p : Progress} (h : ∀ root fresh, p ≠ .complete root fresh) :
    p.written = framesWritten p.frames := by
  cases p with
  | start => rfl
  | inside top outer fresh => rfl
  | complete root fresh => exact absurd rfl (h root fresh)

theorem Good.frames {p : Progress} (h : p.Good) : FramesGood p.frames := by
  cases p with
  | inside top outer fresh => exact h.1
  | _ => trivial

/-- Words that are read are added to what has been read. -/
def Adds (p : Progress) (ts : List Token) (p' : Progress) : Prop :=
  p'.Good ∧ p'.written = p.written ++ ts

theorem quantify_adds {p p' : Progress} {q : Quantifier} {placed : PlacedToken} (hp : p.Good)
    (h : p.quantify q placed = .ok p') : p.Adds q.tokens p' := by
  unfold quantify at h
  split at h
  · rename_i bracket opened c body outer
    cases h
    obtain ⟨⟨hfilled, houter⟩, hfresh⟩ := hp
    have hone : c.quantifier = .one := hfresh rfl c rfl
    refine ⟨⟨⟨by simpa [allFilled] using hfilled, houter⟩, by simp⟩, ?_⟩
    simp [written, framesWritten, Frame.written, bodyTokens_append, bodyTokens,
      tokens_quantified hone]
  · rename_i root
    cases h
    obtain ⟨hroot, hfilled, hfresh⟩ := hp
    exact ⟨⟨by simpa using hroot, by simpa using hfilled, by simp⟩,
      tokens_quantified (hfresh rfl) q⟩
  · cases h
  · cases h

theorem word_adds {p p' : Progress} {c : Clause} {placed : PlacedToken} (hp : p.Good)
    (hq : c.quantifier = .one) (hc : c.isFilled = true) (hg : c.isGroup = false)
    (h : p.word c placed = .ok p') : p.Adds c.tokens p' := by
  unfold word at h
  split at h
  · cases h
  · rename_i hcomplete
    cases h
    refine ⟨good_push hq hc hp.frames fun _ => hg, ?_⟩
    rw [written_push, written_eq_frames fun root fresh => hcomplete root fresh]

theorem openBracket_adds {p p' : Progress} {bracket : Bracket} {placed : PlacedToken}
    (hp : p.Good) (h : p.openBracket bracket placed = .ok p') : p.Adds [bracket.opening] p' := by
  unfold openBracket at h
  split at h
  · cases h
  · rename_i top outer fresh
    cases h
    exact ⟨⟨⟨rfl, by simp, hp.1⟩, by simp⟩, rfl⟩
  · cases bracket with
    | list =>
      cases h
      exact ⟨⟨⟨rfl, fun _ => rfl, trivial⟩, by simp⟩, rfl⟩
    | group => cases h

theorem close_list (placed : PlacedToken) (opened : Position) (body : List Clause)
    (outer : List Frame) (fresh : Bool) :
    close .list placed (.inside ⟨.list, opened, body⟩ outer fresh) =
      .ok (push (.list body.reverse .one) outer) := rfl

theorem close_group (placed : PlacedToken) (opened : Position) {body : List Clause}
    (hbody : body ≠ []) (outer : List Frame) (fresh : Bool) :
    close .group placed (.inside ⟨.group, opened, body⟩ outer fresh) =
      .ok (push (.group body.reverse .one) outer) := by
  cases body with
  | nil => exact absurd rfl hbody
  | cons c body => rfl

/-- A closing bracket has closed a bracket of its own kind. -/
theorem exists_of_close_eq_ok {p p' : Progress} {bracket : Bracket} {placed : PlacedToken}
    (h : p.close bracket placed = .ok p') : ∃ opened body outer fresh,
      p = .inside ⟨bracket, opened, body⟩ outer fresh ∧ (bracket = .group → body ≠ []) ∧
        p' = push (bracket.clause body.reverse) outer := by
  cases p with
  | start => cases h
  | complete root fresh => cases h
  | inside top outer fresh =>
    obtain ⟨kind, opened, body⟩ := top
    by_cases hkind : kind = bracket
    · subst hkind
      refine ⟨opened, body, outer, fresh, rfl, ?_⟩
      cases kind with
      | list =>
        rw [close_list] at h
        cases h
        exact ⟨by simp, rfl⟩
      | group =>
        have hbody : body ≠ [] := by
          rintro rfl
          cases h
        rw [close_group placed opened hbody] at h
        cases h
        exact ⟨fun _ => hbody, rfl⟩
    · simp [close, hkind] at h

theorem close_adds {p p' : Progress} {bracket : Bracket} {placed : PlacedToken}
    (hp : p.Good) (h : p.close bracket placed = .ok p') : p.Adds [bracket.closing] p' := by
  obtain ⟨opened, body, outer, fresh, rfl, hbody, rfl⟩ := exists_of_close_eq_ok h
  obtain ⟨⟨hfilled, houtermost, houter⟩, -⟩ := hp
  have hclause : (bracket.clause body.reverse).isFilled = true := by
    cases bracket <;> simp_all [Bracket.clause, isFilled, allFilled_reverse]
  have hroot : outer = [] → (bracket.clause body.reverse).isGroup = false := by
    intro hnil
    cases houtermost hnil
    rfl
  have hquantifier : (bracket.clause body.reverse).quantifier = .one := by cases bracket <;> rfl
  refine ⟨good_push hquantifier hclause houter hroot, ?_⟩
  rw [written_push]
  cases bracket <;> simp [written, framesWritten, Frame.written, Bracket.clause, tokens,
    Quantifier.tokens, Bracket.opening, Bracket.closing]

/-- One word is added to what has been read. -/
theorem step_adds {p p' : Progress} {placed : PlacedToken} (hp : p.Good)
    (h : p.step placed = .ok p') : p.Adds [placed.token] p' := by
  obtain ⟨token, position⟩ := placed
  cases token with
  | openList => exact openBracket_adds hp h
  | openGroup => exact openBracket_adds hp h
  | closeList => exact close_adds hp h
  | closeGroup => exact close_adds hp h
  | star => exact quantify_adds hp h
  | plus => exact quantify_adds hp h
  | literal name => exact word_adds hp rfl rfl rfl h
  | terminal name => exact word_adds hp rfl rfl rfl h

/-- All words are added to what has been read. -/
theorem foldlM_step_adds {p p' : Progress} {ts : List PlacedToken} (hp : p.Good)
    (h : ts.foldlM step p = .ok p') : p.Adds (ts.map (·.token)) p' := by
  refine foldlM_induction (motive := fun ts p' => p.Adds (ts.map (·.token)) p') h
    ⟨hp, by simp⟩ ?_
  intro before p' t next hadds hstep
  obtain ⟨hp', hwritten⟩ := hadds
  obtain ⟨hnext, hlast⟩ := step_adds hp' hstep
  refine ⟨hnext, ?_⟩
  rw [hlast, hwritten]
  simp

end Progress

/-! ## Where the words stand plays no part -/

/-- A word at another place. -/
def movedToken (move : Position → Position) (t : PlacedToken) : PlacedToken :=
  ⟨t.token, move t.position⟩

/-- A fault at another place. -/
def movedFault (move : Position → Position) (e : FaultAt) : FaultAt := (e.1, move e.2)

/-- An open bracket at another place. -/
def Frame.moved (move : Position → Position) (f : Frame) : Frame :=
  { f with opened := move f.opened }

namespace Progress

/-- The same progress with the open brackets at other places. -/
def moved (move : Position → Position) : Progress → Progress
  | .start => .start
  | .inside top outer fresh => .inside (top.moved move) (outer.map (Frame.moved move)) fresh
  | .complete root fresh => .complete root fresh

section

variable (move : Position → Position)

/-- What has been read, or the fault, with all places moved. -/
def movedResult (r : Except FaultAt Progress) : Except FaultAt Progress :=
  (r.map (moved move)).mapError (movedFault move)

theorem moved_push (c : Clause) (fs : List Frame) :
    (push c fs).moved move = push c (fs.map (Frame.moved move)) := by
  cases fs <;> rfl

theorem openBracket_moved (bracket : Bracket) (t : PlacedToken) (p : Progress) :
    (p.moved move).openBracket bracket (movedToken move t) =
      movedResult move (p.openBracket bracket t) := by
  cases p with
  | start => cases bracket <;> rfl
  | _ => rfl

theorem quantify_moved (q : Quantifier) (t : PlacedToken) (p : Progress) :
    (p.moved move).quantify q (movedToken move t) = movedResult move (p.quantify q t) := by
  cases p with
  | start => rfl
  | inside top outer fresh =>
    obtain ⟨bracket, opened, body⟩ := top
    cases body <;> cases fresh <;> rfl
  | complete root fresh => cases fresh <;> rfl

theorem word_moved (c : Clause) (t : PlacedToken) (p : Progress) :
    (p.moved move).word c (movedToken move t) = movedResult move (p.word c t) := by
  cases p <;> rfl

theorem close_moved (bracket : Bracket) (t : PlacedToken) (p : Progress) :
    (p.moved move).close bracket (movedToken move t) = movedResult move (p.close bracket t) := by
  cases p with
  | inside top outer fresh =>
    obtain ⟨kind, opened, body⟩ := top
    have hpush : ∀ c, (.ok (push c (outer.map (Frame.moved move))) : Except FaultAt Progress) =
        .ok ((push c outer).moved move) := fun c => by rw [moved_push]
    cases kind <;> cases bracket <;> cases body <;> first | rfl | exact hpush _
  | _ => rfl

theorem step_moved (t : PlacedToken) (p : Progress) :
    (p.moved move).step (movedToken move t) = movedResult move (p.step t) := by
  obtain ⟨token, position⟩ := t
  cases token with
  | openList => exact openBracket_moved move _ _ p
  | openGroup => exact openBracket_moved move _ _ p
  | closeList => exact close_moved move _ _ p
  | closeGroup => exact close_moved move _ _ p
  | star => exact quantify_moved move _ _ p
  | plus => exact quantify_moved move _ _ p
  | literal name => exact word_moved move _ _ p
  | terminal name => exact word_moved move _ _ p

theorem foldlM_step_moved (ts : List PlacedToken) (p : Progress) :
    (ts.map (movedToken move)).foldlM step (p.moved move) =
      movedResult move (ts.foldlM step p) := by
  induction ts generalizing p with
  | nil => rfl
  | cons t ts ih =>
    rw [List.map_cons, List.foldlM_cons, List.foldlM_cons, step_moved]
    cases p.step t with
    | error e => rfl
    | ok next => exact ih next

theorem finish_moved (last : Position) (p : Progress) :
    (p.moved move).finish (move last) = (p.finish last).mapError (movedFault move) := by
  cases p with
  | inside top outer fresh =>
    obtain ⟨bracket, opened, body⟩ := top
    cases bracket <;> rfl
  | _ => rfl

end

end Progress

/-- Reading words at other places gives the same clause, or the same fault at another place. -/
theorem ofTokens_moved (move : Position → Position) (ts : List PlacedToken) (last : Position) :
    ofTokens (ts.map (movedToken move)) (move last) =
      (ofTokens ts last).mapError (movedFault move) := by
  have hfold := Progress.foldlM_step_moved move ts .start
  unfold ofTokens
  rw [show Progress.moved move .start = .start from rfl] at hfold
  rw [hfold]
  cases ts.foldlM Progress.step .start with
  | error e => rfl
  | ok p => exact Progress.finish_moved move last p

theorem map_movedToken_const (place : Position) (ts : List PlacedToken) :
    ts.map (movedToken fun _ => place) = (ts.map (·.token)).map (⟨·, place⟩) := by
  simp [movedToken]

/-! ## What is written is read -/

namespace Progress

/-- Reading on over words that all stand at one place. -/
def through (p : Progress) (ts : List Token) : Except FaultAt Progress :=
  (ts.map (⟨·, .start⟩)).foldlM step p

theorem through_cons_of_ok {p p' : Progress} {t : Token} (h : p.step ⟨t, .start⟩ = .ok p')
    (ts : List Token) : p.through (t :: ts) = p'.through ts := by
  rw [through, List.map_cons, List.foldlM_cons, h]
  rfl

theorem through_append_of_ok {p p' : Progress} {ts : List Token} (h : p.through ts = .ok p')
    (us : List Token) : p.through (ts ++ us) = p'.through us := by
  rw [through] at h
  rw [through, List.map_append, List.foldlM_append, h]
  rfl

/-- How far a pattern has been read once a clause and its quantifier have been. -/
def past (c : Clause) : List Frame → Progress
  | [] => .complete c (c.quantifier = .one)
  | top :: outer => .inside { top with body := c :: top.body } outer (c.quantifier = .one)

/-- Whether more clauses may come. -/
def isOpen : Progress → Bool
  | .complete _ _ => false
  | _ => true

theorem through_quantifier {c : Clause} (hc : c.quantifier = .one) (q : Quantifier)
    (fs : List Frame) : (push c fs).through q.tokens = .ok (past (c.quantified q) fs) := by
  cases c <;> cases hc <;> cases q <;> cases fs <;> rfl

theorem openBracket_of_isOpen {p : Progress} (hp : p.isOpen = true) {bracket : Bracket}
    (hroot : p.frames = [] → bracket = .list) (placed : PlacedToken) :
    p.openBracket bracket placed = .ok (.inside ⟨bracket, placed.position, []⟩ p.frames false) := by
  cases p with
  | start =>
    cases hroot rfl
    rfl
  | inside top outer fresh => rfl
  | complete root fresh => cases hp

theorem word_of_isOpen {p : Progress} (hp : p.isOpen = true) (c : Clause) (placed : PlacedToken) :
    p.word c placed = .ok (push c p.frames) := by
  cases p with
  | complete root fresh => cases hp
  | _ => rfl

/-- What reading makes of the words of a clause, wherever the clause may stand. -/
def ReadsBack (c : Clause) : Prop := ∀ p : Progress, p.isOpen = true →
  (p.frames = [] → c.isGroup = false) → p.through c.tokens = .ok (past c p.frames)

theorem through_bodyTokens {body : List Clause} (hbody : ∀ c ∈ body, ReadsBack c) (top : Frame)
    (outer : List Frame) (fresh : Bool) : ∃ fresh',
      (inside top outer fresh).through (bodyTokens body) =
        .ok (.inside { top with body := body.reverse ++ top.body } outer fresh') := by
  induction body generalizing top fresh with
  | nil => exact ⟨fresh, rfl⟩
  | cons c cs ih =>
    obtain ⟨hc, hcs⟩ := List.forall_mem_cons.mp hbody
    have hfirst := hc (.inside top outer fresh) rfl (by simp [frames])
    obtain ⟨fresh', hrest⟩ := ih hcs { top with body := c :: top.body } (c.quantifier = .one)
    refine ⟨fresh', ?_⟩
    rw [bodyTokens, through_append_of_ok hfirst, List.reverse_cons, List.append_assoc]
    exact hrest

theorem through_brackets (bracket : Bracket) {body : List Clause}
    (hbody : ∀ c ∈ body, ReadsBack c) (hfilled : bracket = .group → body ≠ []) (q : Quantifier)
    {p : Progress} (hp : p.isOpen = true) (hroot : p.frames = [] → bracket = .list) :
    p.through (bracket.opening :: (bodyTokens body ++ bracket.closing :: q.tokens)) =
      .ok (past ((bracket.clause body).quantified q) p.frames) := by
  have hopen : p.step ⟨bracket.opening, .start⟩ =
      .ok (.inside ⟨bracket, .start, []⟩ p.frames false) := by
    have h := openBracket_of_isOpen hp hroot ⟨bracket.opening, .start⟩
    cases bracket <;> exact h
  obtain ⟨fresh, hread⟩ := through_bodyTokens hbody ⟨bracket, .start, []⟩ p.frames false
  have hclose : step (.inside ⟨bracket, .start, body.reverse ++ []⟩ p.frames fresh)
      ⟨bracket.closing, .start⟩ = .ok (push (bracket.clause body) p.frames) := by
    rw [List.append_nil]
    cases bracket with
    | list =>
      have h := close_list ⟨.closeList, .start⟩ .start body.reverse p.frames fresh
      rwa [List.reverse_reverse] at h
    | group =>
      have hne := List.reverse_ne_nil_iff.mpr (hfilled rfl)
      have h := close_group ⟨.closeGroup, .start⟩ .start hne p.frames fresh
      rwa [List.reverse_reverse] at h
  have hquantifier : (bracket.clause body).quantifier = .one := by cases bracket <;> rfl
  rw [through_cons_of_ok hopen, through_append_of_ok hread, through_cons_of_ok hclose]
  exact through_quantifier hquantifier q p.frames

/-- The words of a clause without empty groups are read as that clause. -/
theorem readsBack {c : Clause} (hc : c.isFilled = true) : ReadsBack c := by
  induction c with
  | list body q ih =>
    intro p hp hroot
    rw [isFilled, allFilled_iff] at hc
    exact through_brackets .list (fun c hmem => ih c hmem (hc c hmem)) (by simp) q hp
      fun _ => rfl
  | group body q ih =>
    intro p hp hroot
    simp only [isFilled, Bool.and_eq_true, Bool.not_eq_true', List.isEmpty_eq_false_iff] at hc
    have hbody := allFilled_iff.mp hc.2
    exact through_brackets .group (fun c hmem => ih c hmem (hbody c hmem))
      (fun _ => hc.1) q hp fun hnil => by cases hroot hnil
  | literal name q =>
    intro p hp hroot
    have hword : p.step ⟨.literal name, .start⟩ = .ok (push (.literal name .one) p.frames) :=
      word_of_isOpen hp (.literal name .one) _
    rw [tokens, through_cons_of_ok hword]
    exact through_quantifier rfl q p.frames
  | terminal name q =>
    intro p hp hroot
    have hword : p.step ⟨.terminal name, .start⟩ = .ok (push (.terminal name .one) p.frames) :=
      word_of_isOpen hp (.terminal name .one) _
    rw [tokens, through_cons_of_ok hword]
    exact through_quantifier rfl q p.frames

end Progress

/-! ## Patterns and their words -/

/-- What is read as a clause are the words of that clause. -/
theorem words_of_ofTokens {ts : List PlacedToken} {last : Position} {c : Clause}
    (h : ofTokens ts last = .ok c) :
    ts.map (·.token) = c.tokens ∧ c.isGroup = false ∧ c.isFilled = true := by
  unfold ofTokens at h
  cases hfold : ts.foldlM Progress.step .start with
  | error e =>
    rw [hfold] at h
    cases h
  | ok p =>
    rw [hfold] at h
    have hstart : Progress.start.Good := trivial
    obtain ⟨hgood, hwritten⟩ := Progress.foldlM_step_adds hstart hfold
    cases p with
    | start => cases h
    | inside top outer fresh =>
      obtain ⟨bracket, opened, body⟩ := top
      cases bracket <;> cases h
    | complete root fresh =>
      cases h
      exact ⟨hwritten.symm, hgood.1, hgood.2.1⟩

theorem ofTokens_tokens {c : Clause} (hgroup : c.isGroup = false) (hfilled : c.isFilled = true) :
    ofTokens (c.tokens.map (⟨·, .start⟩)) .start = .ok c := by
  have hread := Progress.readsBack hfilled .start rfl fun _ => hgroup
  unfold Progress.through at hread
  unfold ofTokens
  rw [hread]
  rfl

/-- The same words at other places are read as the same clause, or have the same fault. -/
theorem ofTokens_same_words {ts us : List PlacedToken} (h : ts.map (·.token) = us.map (·.token))
    (last last' : Position) :
    (∃ c, ofTokens ts last = .ok c ∧ ofTokens us last' = .ok c) ∨
      ∃ fault p p', ofTokens ts last = .error (fault, p) ∧
        ofTokens us last' = .error (fault, p') := by
  have hts := ofTokens_moved (fun _ => .start) ts last
  have hus := ofTokens_moved (fun _ => .start) us last'
  rw [map_movedToken_const, h, ← map_movedToken_const, hus] at hts
  cases hleft : ofTokens ts last <;> cases hright : ofTokens us last' <;>
    rw [hleft, hright] at hts
  case ok.ok c d =>
    cases hts
    exact .inl ⟨c, rfl, rfl⟩
  case error.error e e' =>
    have hmoved : movedFault (fun _ => .start) e' = movedFault (fun _ => .start) e :=
      Except.error.inj hts
    have hfault : e'.1 = e.1 := (Prod.mk.inj hmoved).1
    exact .inr ⟨e.1, e.2, e'.2, rfl, by rw [← hfault]⟩
  case ok.error => cases hts
  case error.ok => cases hts

/-- Words are read as a clause if and only if they are the words of the clause, the clause is
no group, and no group in it is empty. -/
theorem ofTokens_eq_ok_iff {ts : List PlacedToken} {last : Position} {c : Clause} :
    ofTokens ts last = .ok c ↔
      ts.map (·.token) = c.tokens ∧ c.isGroup = false ∧ c.isFilled = true := by
  constructor
  · exact words_of_ofTokens
  · rintro ⟨hwords, hgroup, hfilled⟩
    -- The words of the clause are read back where they all stand at one place, so they are
    -- anywhere else.
    have hplaced : ts.map (·.token) = (c.tokens.map (⟨·, .start⟩ : Token → PlacedToken)).map
        (·.token) := by
      rw [hwords, List.map_map]
      exact (List.map_id _).symm
    have hread := ofTokens_tokens hgroup hfilled
    rcases ofTokens_same_words hplaced last .start with ⟨d, hd, hc⟩ | ⟨fault, p, p', -, hfault⟩
    · rw [hread] at hc
      cases hc
      exact hd
    · rw [hread] at hfault
      cases hfault

/-- A text that can be cut into words is read as these words are. -/
theorem read_of_tokens {source : String} {words : List PlacedToken}
    (h : Pattern.tokens source = .ok words) : read source =
      (ofTokens words (.after source.toList)).mapError fun (fault, position) =>
        .shape (.of source.toList fault position) := by
  rw [read, h]

/-- A text is a pattern for a clause if and only if it is cut into the words of the clause, the
clause is no group, and no group in it is empty. -/
theorem read_eq_ok_iff {source : String} {c : Clause} :
    read source = .ok c ↔ ∃ words, Pattern.tokens source = .ok words ∧
      words.map (·.token) = c.tokens ∧ c.isGroup = false ∧ c.isFilled = true := by
  cases htokens : Pattern.tokens source with
  | error cause => simp [read, htokens]
  | ok words =>
    have hofTokens := @ofTokens_eq_ok_iff words (.after source.toList) c
    rw [read_of_tokens htokens]
    cases hresult : ofTokens words (.after source.toList) <;> simp_all [Except.mapError]

/-! ## The laws -/

/-- Patterns are read by their words alone. A text is read as a clause if and only if it can be
cut into words, these are the words of the clause, the clause is no group, and no group in it is
empty. Two texts with the same words are read as the same clause, or have the same fault. -/
theorem patterns_are_read_by_their_words :
    (∀ (source : String) (c : Clause), read source = .ok c ↔
      ∃ words, Pattern.tokens source = .ok words ∧ words.map (·.token) = c.tokens ∧
        c.isGroup = false ∧ c.isFilled = true) ∧
    ∀ (source other : String) (words others : List PlacedToken),
      Pattern.tokens source = .ok words → Pattern.tokens other = .ok others →
      words.map (·.token) = others.map (·.token) →
      (∃ c, read source = .ok c ∧ read other = .ok c) ∨
      ∃ cause cause', read source = .error (.shape cause) ∧ read other = .error (.shape cause') ∧
        cause.fault = cause'.fault := by
  refine ⟨fun source c => read_eq_ok_iff, ?_⟩
  intro source other words others hsource hother hwords
  rw [read_of_tokens hsource, read_of_tokens hother]
  rcases ofTokens_same_words hwords (.after source.toList) (.after other.toList) with
    ⟨c, hleft, hright⟩ | ⟨fault, p, p', hleft, hright⟩
  · rw [hleft, hright]
    exact .inl ⟨c, rfl, rfl⟩
  · rw [hleft, hright]
    exact .inr ⟨_, _, rfl, rfl, rfl⟩

/-- Blanks and a comment move an empty group to another place, and the fault is the same. -/
theorem an_empty_group_is_the_same_fault_in_any_layout :
    ∃ cause cause', read "('a [])" = .error (.shape cause) ∧
      read "( 'a ;none\n[ ] )" = .error (.shape cause') ∧ cause.fault = cause'.fault := by
  have hlaw := patterns_are_read_by_their_words.2 "('a [])" "( 'a ;none\n[ ] )"
    [⟨.openList, ⟨0, 1, 1⟩⟩, ⟨.literal "a", ⟨1, 1, 2⟩⟩, ⟨.openGroup, ⟨4, 1, 5⟩⟩,
      ⟨.closeGroup, ⟨5, 1, 6⟩⟩, ⟨.closeList, ⟨6, 1, 7⟩⟩]
    [⟨.openList, ⟨0, 1, 1⟩⟩, ⟨.literal "a", ⟨2, 1, 3⟩⟩, ⟨.openGroup, ⟨11, 2, 1⟩⟩,
      ⟨.closeGroup, ⟨13, 2, 3⟩⟩, ⟨.closeList, ⟨15, 2, 5⟩⟩] (by decide) (by decide) (by decide)
  rcases hlaw with ⟨c, hc, -⟩ | hfault
  · cases hc
  · exact hfault

end Clause

end TreePasses
