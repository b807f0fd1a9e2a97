-- A workshop: languages and pipelines built out of each other in any order, from one supply of
-- ids. Whatever is done there, every language stays sound, and an id stands for one entry only,
-- in whichever languages that entry is.
import TreePasses.Proofs.SoundLanguages

namespace TreePasses

/-! ## The record of all entries -/

namespace Supply

/-- The ids spent so far, in order. -/
def spent (s : Supply) : List ClauseId := (List.range s.created).map fun n => ⟨n.toUInt32⟩

theorem spent_spend (s : Supply) : s.spend.spent = s.spent ++ [s.next] := by
  simp [spent, spend, next, List.range_succ]

/-- No id is spent twice as long as 32 bits suffice. -/
theorem nodup_spent {s : Supply} (h : s.created ≤ UInt32.size) : s.spent.Nodup := by
  refine List.Nodup.map_on ?_ List.nodup_range
  intro m hm n hn hsame
  rw [List.mem_range] at hm hn
  have hindex : m % UInt32.size = n % UInt32.size := by
    simpa using congrArg (fun id : ClauseId => id.index.toNat) hsame
  rwa [Nat.mod_eq_of_lt (by omega), Nat.mod_eq_of_lt (by omega)] at hindex

end Supply

/-- The entries ever made, in order: each has the id that was next when it was made. -/
def Records (made : List Entry) (s : Supply) : Prop := made.map (·.id) = s.spent

theorem Records.append_nil {made : List Entry} {s : Supply} (h : Records made s) :
    Records (made ++ []) s := by
  rwa [List.append_nil]

theorem Records.spend {made : List Entry} {s : Supply} (h : Records made s) {e : Entry}
    (he : e.id = s.next) : Records (made ++ [e]) s.spend := by
  unfold Records at h ⊢
  rw [List.map_append, h, Supply.spent_spend, List.map_singleton, he]

/-- As long as 32 bits suffice, an id stands for one entry. -/
theorem Records.eq_of_id_eq {made : List Entry} {s : Supply} (h : Records made s)
    (hs : s.created ≤ UInt32.size) {e e' : Entry} (he : e ∈ made) (he' : e' ∈ made)
    (hid : e.id = e'.id) : e = e' := by
  have hnodup := Supply.nodup_spent hs
  rw [← h] at hnodup
  exact List.inj_on_of_nodup_map hnodup he he' hid

/-- A sound language with entries from a record. -/
structure BuiltFrom (made : List Entry) (l : Language) : Prop where
  sound : l.Sound
  recorded : ∀ e ∈ l.entries, e ∈ made

theorem BuiltFrom.append {made : List Entry} {l : Language} (h : BuiltFrom made l)
    (more : List Entry) : BuiltFrom (made ++ more) l :=
  ⟨h.sound, fun e he => List.mem_append_left more (h.recorded e he)⟩

/-! ## Building on record -/

/-- Building adds the entries that it makes to the record, also if it fails in the end, and what
comes of it is as it should be by the longer record. -/
def OnRecord {α : Type} (P : List Entry → α → Prop) (x : Build α) (made : List Entry)
    (s : Supply) : Prop :=
  ∃ more, Records (made ++ more) (x.run.run s).2 ∧
    ∀ a, (x.run.run s).1 = .ok a → P (made ++ more) a

section

variable {α β : Type} {P : List Entry → α → Prop} {Q : List Entry → β → Prop}
variable {made : List Entry} {s : Supply}

theorem onRecord_of_ok {x : Build α} {s' : Supply} {a : α} (h : x.run.run s = (.ok a, s'))
    {more : List Entry} (hmore : Records (made ++ more) s') (ha : P (made ++ more) a) :
    OnRecord P x made s := by
  refine ⟨more, by rwa [h], ?_⟩
  intro b hb
  rw [h] at hb
  cases hb
  exact ha

theorem onRecord_of_error {x : Build α} {s' : Supply} {e : GrammarError}
    (h : x.run.run s = (.error e, s')) {more : List Entry}
    (hmore : Records (made ++ more) s') : OnRecord P x made s := by
  refine ⟨more, by rwa [h], ?_⟩
  intro b hb
  rw [h] at hb
  cases hb

theorem onRecord_pure (hs : Records made s) {a : α} (ha : P made a) :
    OnRecord P (pure a) made s :=
  onRecord_of_ok rfl hs.append_nil (by rwa [List.append_nil])

theorem onRecord_ofExcept (hs : Records made s) (x : Except GrammarError α) :
    OnRecord (fun _ _ => True) (Build.ofExcept x) made s := by
  cases x with
  | error e => exact onRecord_of_error rfl hs.append_nil
  | ok a => exact onRecord_of_ok rfl hs.append_nil trivial

theorem OnRecord.bind {x : Build α} {f : α → Build β} (hx : OnRecord P x made s)
    (hf : ∀ a more s', Records (made ++ more) s' → P (made ++ more) a →
      OnRecord Q (f a) (made ++ more) s') : OnRecord Q (x >>= f) made s := by
  obtain ⟨more, hmore, ha⟩ := hx
  rcases hrun : x.run.run s with ⟨e | a, s'⟩
  · rw [hrun] at hmore
    exact onRecord_of_error (Build.run_bind_of_error hrun) hmore
  · rw [hrun] at hmore ha
    obtain ⟨rest, hrest, hb⟩ := hf a more s' hmore (ha a rfl)
    rw [List.append_assoc] at hrest hb
    refine ⟨more ++ rest, ?_, ?_⟩
    · rwa [Build.run_bind_of_ok hrun]
    · rwa [Build.run_bind_of_ok hrun]

end

section

variable {made : List Entry} {s : Supply} (hs : Records made s)
include hs

theorem Edit.apply_onRecord (edit : Edit) {l : Language} (hl : BuiltFrom made l) :
    OnRecord BuiltFrom (edit.apply l) made s := by
  rcases edit.apply_cases hl.sound s with
    ⟨e, hrun⟩ | ⟨l', hrun, hsound, hold⟩ | ⟨l', e, hrun, hsound, hid, hentries⟩
  · exact onRecord_of_error hrun hs.append_nil
  · refine onRecord_of_ok hrun hs.append_nil ⟨hsound, ?_⟩
    intro e he
    exact List.mem_append_left [] (hl.recorded e (hold e he))
  · refine onRecord_of_ok hrun (hs.spend hid) ⟨hsound, ?_⟩
    intro x hx
    rcases hentries x hx with rfl | hx
    · exact List.mem_append_right made List.mem_cons_self
    · exact List.mem_append_left [e] (hl.recorded x hx)

theorem Edit.applyAll_onRecord (edits : List Edit) {l : Language} (hl : BuiltFrom made l) :
    OnRecord BuiltFrom (applyAll l edits) made s := by
  induction edits generalizing l made s with
  | nil => exact onRecord_pure hs hl
  | cons edit edits ih =>
    rw [applyAll, List.foldlM_cons]
    exact (edit.apply_onRecord hs hl).bind fun l' more s' hmore hl' => ih hmore hl'

theorem PassDefinition.pass_onRecord (d : PassDefinition) {source : Language}
    (hsource : BuiltFrom made source) :
    OnRecord (fun made pass => BuiltFrom made pass.source ∧ BuiltFrom made pass.target)
      (d.pass source) made s := by
  unfold pass
  refine (onRecord_ofExcept hs (d.table source)).bind fun rules more s hs _ => ?_
  have hsource := hsource.append more
  rw [target_eq_applyAll]
  refine (Edit.applyAll_onRecord hs d.edits hsource).bind fun target rest s hs htarget => ?_
  exact onRecord_pure hs ⟨hsource.append rest, htarget⟩

end

/-! ## Pipelines -/

/-- The languages that a pipeline leads from and to. -/
def Pipeline.languages (p : Pipeline) : List Language :=
  p.base :: p.passes.flatMap fun pass => [pass.source, pass.target]

theorem Pipeline.current_mem (p : Pipeline) : p.current ∈ p.languages := by
  unfold current languages
  cases hlast : p.passes.getLast? with
  | none => exact List.mem_cons_self
  | some pass =>
    refine List.mem_cons_of_mem _ (List.mem_flatMap.mpr ⟨pass, ?_, by simp⟩)
    exact List.mem_of_getLast? hlast

theorem Pipeline.add_onRecord {made : List Entry} {s : Supply} (hs : Records made s)
    (d : PassDefinition) {p : Pipeline} (hp : ∀ l ∈ p.languages, BuiltFrom made l) :
    OnRecord (fun made p => ∀ l ∈ p.languages, BuiltFrom made l) (p.add d) made s := by
  unfold add
  have hpass := d.pass_onRecord hs (hp p.current p.current_mem)
  refine hpass.bind fun pass more s hs hpass => onRecord_pure hs ?_
  intro l hl
  have hl : l ∈ p.languages ∨ l = pass.source ∨ l = pass.target := by
    simpa [languages, or_assoc] using hl
  rcases hl with hl | rfl | rfl
  · exact (hp l hl).append more
  · exact hpass.1
  · exact hpass.2

/-! ## Workshops -/

/-- All that has been built so far. -/
structure Workshop where
  supply : Supply
  languages : List Language
  pipelines : List Pipeline

/-- Something to do in a workshop. What is there already is called by its number. -/
inductive Action where
  | create (name : String)
  | edit (language : Nat) (edit : Edit)
  | start (language : Nat)
  | addPass (pipeline : Nat) (definition : PassDefinition)

namespace Workshop

/-- A workshop where nothing has been built. -/
def empty : Workshop := ⟨.start, [], []⟩

/-- All languages, those of the pipelines too. -/
def known (w : Workshop) : List Language := w.languages ++ w.pipelines.flatMap (·.languages)

def addLanguage (w : Workshop) (l : Language) : Workshop :=
  { w with languages := w.languages ++ [l] }

def addPipeline (w : Workshop) (p : Pipeline) : Workshop :=
  { w with pipelines := w.pipelines ++ [p] }

/-- Builds something and keeps it. If that fails, only the ids spent on it are gone. -/
def build {α : Type} (w : Workshop) (x : Build α) (keep : Workshop → α → Workshop) : Workshop :=
  match x.run.run w.supply with
  | (.ok a, s) => keep { w with supply := s } a
  | (.error _, s) => { w with supply := s }

/-- Does something. A change of a language or pipeline leaves the old one there as well. -/
def perform (w : Workshop) : Action → Workshop
  | .create name => w.addLanguage (.empty name)
  | .edit i edit =>
    match w.known[i]? with
    | some l => w.build (edit.apply l) addLanguage
    | none => w
  | .start i =>
    match w.known[i]? with
    | some l => w.addPipeline (.empty l)
    | none => w
  | .addPass i d =>
    match w.pipelines[i]? with
    | some p => w.build (p.add d) addPipeline
    | none => w

/-- The workshop after actions one after the other. -/
def after (actions : List Action) : Workshop := actions.foldl perform empty

/-- All languages are built from the entries on record. -/
structure Consistent (w : Workshop) (made : List Entry) : Prop where
  records : Records made w.supply
  builtFrom : ∀ l ∈ w.known, BuiltFrom made l

theorem consistent_empty : empty.Consistent [] := ⟨rfl, by simp [known, empty]⟩

section

variable {w : Workshop} {made : List Entry} (hw : w.Consistent made)
include hw

theorem Consistent.addLanguage {l : Language} (hl : BuiltFrom made l) :
    (w.addLanguage l).Consistent made := by
  refine ⟨hw.records, ?_⟩
  intro l' hl'
  have hl' : l' = l ∨ l' ∈ w.known := by
    simpa [Workshop.addLanguage, known, or_left_comm] using hl'
  rcases hl' with rfl | hl'
  · exact hl
  · exact hw.builtFrom l' hl'

theorem Consistent.addPipeline {p : Pipeline} (hp : ∀ l ∈ p.languages, BuiltFrom made l) :
    (w.addPipeline p).Consistent made := by
  refine ⟨hw.records, ?_⟩
  intro l hl
  have hl : l ∈ w.known ∨ l ∈ p.languages := by
    simpa [Workshop.addPipeline, known, or_assoc] using hl
  rcases hl with hl | hl
  · exact hw.builtFrom l hl
  · exact hp l hl

theorem Consistent.build {α : Type} {P : List Entry → α → Prop} {x : Build α}
    (hx : OnRecord P x made w.supply) {keep : Workshop → α → Workshop}
    (hkeep : ∀ (w : Workshop) (made : List Entry) (a : α), w.Consistent made → P made a →
      (keep w a).Consistent made) : ∃ made', (w.build x keep).Consistent made' := by
  obtain ⟨more, hmore, ha⟩ := hx
  refine ⟨made ++ more, ?_⟩
  -- What was there before has its entries from the shorter record.
  have hknown : ∀ l ∈ w.known, BuiltFrom (made ++ more) l :=
    fun l hl => (hw.builtFrom l hl).append more
  unfold Workshop.build
  rcases hrun : x.run.run w.supply with ⟨e | a, s⟩
  · rw [hrun] at hmore
    exact ⟨hmore, hknown⟩
  · rw [hrun] at hmore ha
    exact hkeep _ _ a ⟨hmore, hknown⟩ (ha a rfl)

theorem Consistent.perform (action : Action) : ∃ made', (w.perform action).Consistent made' := by
  cases action with
  | create name =>
    exact ⟨made, hw.addLanguage ⟨Language.sound_empty name, by simp [Language.empty]⟩⟩
  | edit i edit =>
    rw [Workshop.perform]
    cases hl : w.known[i]? with
    | none => exact ⟨made, hw⟩
    | some l =>
      have hbuilt := hw.builtFrom l (List.mem_of_getElem? hl)
      exact hw.build (edit.apply_onRecord hw.records hbuilt) fun _ _ _ h hl => h.addLanguage hl
  | start i =>
    rw [Workshop.perform]
    cases hl : w.known[i]? with
    | none => exact ⟨made, hw⟩
    | some l =>
      have hbuilt := hw.builtFrom l (List.mem_of_getElem? hl)
      exact ⟨made, hw.addPipeline (by simpa [Pipeline.languages, Pipeline.empty] using hbuilt)⟩
  | addPass i d =>
    rw [Workshop.perform]
    cases hp : w.pipelines[i]? with
    | none => exact ⟨made, hw⟩
    | some p =>
      have hbuilt : ∀ l ∈ p.languages, BuiltFrom made l := fun l hl => hw.builtFrom l
        (List.mem_append_right _ (List.mem_flatMap.mpr ⟨p, List.mem_of_getElem? hp, hl⟩))
      exact hw.build (Pipeline.add_onRecord hw.records d hbuilt) fun _ _ _ h hp => h.addPipeline hp

end

theorem exists_consistent (actions : List Action) : ∃ made, (after actions).Consistent made := by
  unfold after
  suffices h : ∀ w : Workshop, (∃ made, w.Consistent made) →
      ∃ made, (actions.foldl perform w).Consistent made from h _ ⟨_, consistent_empty⟩
  induction actions with
  | nil => exact fun _ h => h
  | cons action actions ih =>
    rintro w ⟨made, hw⟩
    exact ih _ (hw.perform action)

/-! ## The laws -/

/-- Whatever is done in a workshop, as long as 32 bits suffice for the ids: in each language the
signatures are distinct, each stands for its clause, and each name in a clause stands for
something; an id stands for one entry only, across all languages; so an entry is found by its
signature and by its id, its signature takes out that entry and leaves the others in their order;
and the pattern of a clause put before all others takes it out again. -/
theorem signatures_and_ids_tell_entries_apart (actions : List Action)
    (hids : (after actions).supply.created ≤ UInt32.size) :
    (∀ l ∈ (after actions).known, l.signatures.Nodup ∧
      ∀ e ∈ l.entries, e.signature = e.clause.signature ∧
        Clause.read e.signature = .ok e.clause ∧
        ∀ name ∈ e.clause.terminalNames, (l.terminal? name).isSome = true) ∧
    (∀ l ∈ (after actions).known, ∀ l' ∈ (after actions).known,
      ∀ e ∈ l.entries, ∀ e' ∈ l'.entries, e.id = e'.id → e = e') ∧
    (∀ l ∈ (after actions).known, ∀ e ∈ l.entries,
      l.entryFor e.signature = .ok e ∧ l.entry? e.id = some e ∧
      ∀ before after, l.entries = before ++ e :: after →
        l.erase e.signature = .ok (e, { l with entries := before ++ after })) ∧
    ∀ l ∈ (after actions).known, ∀ pattern verbatim s id l' s',
      (l.prepend pattern verbatim).run.run s = (.ok (id, l'), s') →
        ∃ e, e.id = id ∧ l'.erase pattern = .ok (e, l) := by
  obtain ⟨made, hw⟩ := exists_consistent actions
  have hsame : ∀ l ∈ (after actions).known, ∀ l' ∈ (after actions).known,
      ∀ e ∈ l.entries, ∀ e' ∈ l'.entries, e.id = e'.id → e = e' := by
    intro l hl l' hl' e he e' he'
    exact hw.records.eq_of_id_eq hids ((hw.builtFrom l hl).recorded e he)
      ((hw.builtFrom l' hl').recorded e' he')
  refine ⟨?_, hsame, ?_, ?_⟩
  · intro l hl
    have hsound := (hw.builtFrom l hl).sound
    exact ⟨hsound.distinct, fun e he => ⟨rfl, hsound.read_signature he, hsound.resolved e he⟩⟩
  · intro l hl e he
    have hsound := (hw.builtFrom l hl).sound
    refine ⟨hsound.entryFor_signature he, ?_, fun before after h => hsound.erase_signature h⟩
    exact Language.entry?_eq_some he fun x hx => hsame l hl l hl x hx e he
  · intro l _ pattern verbatim s id l' s' hrun
    obtain ⟨e, hid, hc, rfl⟩ := Language.prepend_eq_ok hrun
    exact ⟨e, hid, Language.erase_prepended hc⟩

/-- A language of symbols and of lists of symbols, and a pass that exchanges the lists. -/
def exchange : List Action :=
  [.create "plain", .edit 0 (.register "s" .symbol), .edit 1 (.append "('a s*)" false),
    .edit 2 (.append "s" false), .start 3,
    .addPass 0 ⟨"marked", [("('b s)", true)], ["( 'a  s * )"], []⟩]

/-- Both languages of the exchange have the entry for symbols. -/
theorem an_exchange_keeps_the_other_entry :
    ∃ source ∈ (after exchange).known, ∃ target ∈ (after exchange).known,
      ∃ list symbol marked : Entry, source.entries = [list, symbol] ∧
        target.entries = [marked, symbol] ∧ symbol.id = ⟨1⟩ ∧
        source.erase symbol.signature = .ok (symbol, { source with entries := [list] }) ∧
        ∀ l ∈ (after exchange).known, ∀ e ∈ l.entries, e.id = ⟨1⟩ → e = symbol := by
  have hids : (after exchange).supply.created = 3 := by decide +kernel
  obtain ⟨-, hsame, hfound, -⟩ :=
    signatures_and_ids_tell_entries_apart exchange (by rw [hids]; decide)
  have hsource : (after exchange).known[3]? = some ⟨"plain",
      [⟨⟨0⟩, .list [.literal "a" .one, .terminal "s" .zeroOrMore] .one, false⟩,
        ⟨⟨1⟩, .terminal "s" .one, false⟩], [("s", .symbol)]⟩ := by decide +kernel
  have htarget : (after exchange).known[7]? = some ⟨"marked",
      [⟨⟨2⟩, .list [.literal "b" .one, .terminal "s" .one] .one, true⟩,
        ⟨⟨1⟩, .terminal "s" .one, false⟩], [("s", .symbol)]⟩ := by decide +kernel
  have hl := List.mem_of_getElem? hsource
  refine ⟨_, hl, _, List.mem_of_getElem? htarget, _, _, _, rfl, rfl, rfl, ?_, ?_⟩
  · exact (hfound _ hl _ (.tail _ (.head _))).2.2 [_] [] rfl
  · intro l' hl' e he hid
    exact hsame l' hl' _ hl e he _ (.tail _ (.head _)) hid

end Workshop

end TreePasses
