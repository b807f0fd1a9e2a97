-- When the definition of a pass can be carried out: each pattern of a rule or removal names a
-- clause of the source language, no two of them the same one, and the additions can join what is
-- left. Then one pass is added, and what it is made of is settled by the definition. Otherwise
-- nothing changes.
import TreePasses.Proofs.Boundaries
import TreePasses.Proofs.Steps
import TreePasses.Proofs.Workshop

namespace TreePasses

/-! ## What a definition asks for -/

/-- The clauses that patterns stand for, in order. -/
def Clause.Reads (patterns : List String) (clauses : List Clause) : Prop :=
  List.Forall₂ (fun pattern c => Clause.read pattern = .ok c) patterns clauses

namespace Language

/-- The language without the clauses of some signatures. -/
def without (l : Language) (signatures : List String) : Language :=
  { l with entries := l.entries.filter fun e => e.signature ∉ signatures }

/-- Patterns name clauses of a language, each of them once. -/
structure Picks (l : Language) (patterns : List String) (clauses : List Clause) : Prop where
  reads : Clause.Reads patterns clauses
  there : ∀ c ∈ clauses, c.signature ∈ l.signatures
  once : (clauses.map Clause.signature).Nodup

/-- Patterns stand for clauses that can join those of a language. -/
structure LetsIn (l : Language) (patterns : List String) (clauses : List Clause) : Prop where
  reads : Clause.Reads patterns clauses
  resolved : ∀ c ∈ clauses, ∀ name ∈ c.terminalNames, (l.terminal? name).isSome = true
  grounded : ∀ c ∈ clauses, l.isLeftRecursive c = false
  fresh : ∀ c ∈ clauses, c.signature ∉ l.signatures
  once : (clauses.map Clause.signature).Nodup

end Language

/-- A definition can be carried out over a source language. The additions have to join only what the
removals leave. -/
def PassDefinition.Suits (d : PassDefinition) (source : Language) : Prop :=
  (∃ ruled, source.Picks (d.rules.map (·.1)) ruled) ∧
    ∃ removed, source.Picks d.removals removed ∧
      ∃ added, (source.without (removed.map Clause.signature)).LetsIn (d.additions.map (·.1)) added

/-! ## Steps that go well -/

theorem Build.run_bind_eq_ok_iff {α β : Type} {x : Build α} {f : α → Build β} {s s' : Supply}
    {b : β} : (x >>= f).run.run s = (.ok b, s') ↔
      ∃ a t, x.run.run s = (.ok a, t) ∧ (f a).run.run t = (.ok b, s') := by
  rcases hx : x.run.run s with ⟨e | a, t⟩
  · rw [run_bind_of_error hx]
    constructor
    · intro h
      cases h
    · rintro ⟨a, t, ha, -⟩
      cases ha
  · rw [run_bind_of_ok hx]
    constructor
    · intro h
      exact ⟨a, t, rfl, h⟩
    · rintro ⟨_, _, ⟨⟩, h⟩
      exact h

theorem Build.run_ofExcept_eq_ok_iff {α : Type} {x : Except GrammarError α} {a : α}
    {s s' : Supply} : (Build.ofExcept x).run.run s = (.ok a, s') ↔ x = .ok a ∧ s' = s := by
  cases x with
  | error e =>
    constructor
    · intro h
      cases h
    · rintro ⟨⟨⟩, -⟩
  | ok b =>
    constructor
    · intro h
      cases h
      exact ⟨rfl, rfl⟩
    · rintro ⟨⟨⟩, rfl⟩
      rfl

/-! ## Entries found by pattern -/

namespace Language

variable {l : Language}

theorem entryFor_eq_ok_iff {pattern : String} {e : Entry} : l.entryFor pattern = .ok e ↔
    ∃ c, Clause.read pattern = .ok c ∧
      l.entries.find? (·.signature = c.signature) = some e := by
  rw [entryFor, bind_eq_ok_iff]
  simp only [clauseOf_eq_ok_iff]
  refine exists_congr fun c => and_congr_right fun _ => ?_
  cases l.entries.find? (·.signature = c.signature) <;> simp

/-- The entries that patterns find, in order. -/
def Finds (l : Language) (patterns : List String) (entries : List Entry) : Prop :=
  List.Forall₂ (fun pattern e => l.entryFor pattern = .ok e) patterns entries

theorem Finds.mem {patterns : List String} {entries : List Entry} (h : l.Finds patterns entries) :
    ∀ e ∈ entries, e ∈ l.entries := by
  intro e he
  obtain ⟨pattern, -, hfound⟩ := Clause.exists_of_forall₂ h he
  obtain ⟨c, -, hfind⟩ := entryFor_eq_ok_iff.mp hfound
  exact List.mem_of_find?_eq_some hfind

/-- Patterns find entries if they are patterns and their signatures are there. -/
theorem exists_finds_iff {patterns : List String} {signatures : List String} :
    (∃ entries, l.Finds patterns entries ∧ entries.map Entry.signature = signatures) ↔
      ∃ clauses, Clause.Reads patterns clauses ∧ (∀ c ∈ clauses, c.signature ∈ l.signatures) ∧
        clauses.map Clause.signature = signatures := by
  constructor
  · rintro ⟨entries, hfinds, rfl⟩
    induction hfinds with
    | nil => exact ⟨[], .nil, by simp, rfl⟩
    | @cons pattern e patterns entries hfound _ ih =>
      obtain ⟨clauses, hreads, hthere, hsame⟩ := ih
      obtain ⟨c, hread, hfind⟩ := entryFor_eq_ok_iff.mp hfound
      have hsig : e.signature = c.signature := by simpa using List.find?_some hfind
      refine ⟨c :: clauses, .cons hread hreads, List.forall_mem_cons.mpr ⟨?_, hthere⟩, ?_⟩
      · rw [← hsig]
        exact List.mem_map_of_mem (List.mem_of_find?_eq_some hfind)
      · rw [List.map_cons, List.map_cons, hsame, hsig]
  · rintro ⟨clauses, hreads, hthere, rfl⟩
    induction hreads with
    | nil => exact ⟨[], .nil, rfl⟩
    | @cons pattern c patterns clauses hread _ ih =>
      obtain ⟨hc, hcs⟩ := List.forall_mem_cons.mp hthere
      obtain ⟨entries, hfinds, hsame⟩ := ih hcs
      obtain ⟨x, hx, hsig⟩ := List.mem_map.mp hc
      have hsome : (l.entries.find? (·.signature = c.signature)).isSome = true :=
        List.find?_isSome.mpr ⟨x, hx, by simpa using hsig⟩
      obtain ⟨e, he⟩ := Option.isSome_iff_exists.mp hsome
      refine ⟨e :: entries, .cons (entryFor_eq_ok_iff.mpr ⟨c, hread, he⟩) hfinds, ?_⟩
      have hfirst : e.signature = c.signature := by simpa using List.find?_some he
      rw [List.map_cons, List.map_cons, hsame, hfirst]

/-- Patterns that name clauses once find as many entries with other signatures each. -/
theorem exists_picks_iff {patterns signatures : List String} :
    (∃ clauses, l.Picks patterns clauses ∧ clauses.map Clause.signature = signatures) ↔
      ∃ entries, l.Finds patterns entries ∧ entries.map Entry.signature = signatures ∧
        signatures.Nodup := by
  constructor
  · rintro ⟨clauses, hpicks, rfl⟩
    obtain ⟨entries, hfinds, hsame⟩ :=
      exists_finds_iff.mpr ⟨clauses, hpicks.reads, hpicks.there, rfl⟩
    exact ⟨entries, hfinds, hsame, hpicks.once⟩
  · rintro ⟨entries, hfinds, hsame, hnodup⟩
    obtain ⟨clauses, hreads, hthere, hsame'⟩ := exists_finds_iff.mp ⟨entries, hfinds, hsame⟩
    exact ⟨clauses, ⟨hreads, hthere, hsame' ▸ hnodup⟩, hsame'⟩

/-! ## Removals -/

theorem without_without (signatures more : List String) :
    (l.without signatures).without more = l.without (signatures ++ more) := by
  simp [without, List.filter_filter, Bool.and_comm]

theorem eraseP_signature_eq_filter {entries : List Entry}
    (h : (entries.map Entry.signature).Nodup) (signature : String) :
    entries.eraseP (·.signature = signature) = entries.filter (·.signature ∉ [signature]) := by
  induction entries with
  | nil => rfl
  | cons e es ih =>
    obtain ⟨hnew, hes⟩ := List.nodup_cons.mp h
    by_cases hsig : e.signature = signature
    · have hkeep : es.filter (·.signature ∉ [signature]) = es := by
        rw [List.filter_eq_self]
        intro x hx
        have hne : x.signature ≠ signature := by
          rintro hsame
          exact hnew (List.mem_map.mpr ⟨x, hx, hsame.trans hsig.symm⟩)
        simpa using hne
      rw [List.filter_cons_of_neg (by simpa using hsig), hkeep,
        List.eraseP_cons_of_pos (by simpa using hsig)]
    · rw [List.filter_cons_of_pos (by simpa using hsig), ← ih hes,
        List.eraseP_cons_of_neg (by simpa using hsig)]

theorem erase_eq_ok_iff (hl : l.signatures.Nodup) {pattern : String} {e : Entry} {l' : Language} :
    l.erase pattern = .ok (e, l') ↔
      l.entryFor pattern = .ok e ∧ l' = l.without [e.signature] := by
  rw [erase, bind_eq_ok_iff]
  simp only [eraseP_signature_eq_filter hl]
  constructor
  · rintro ⟨_, he, ⟨⟩⟩
    exact ⟨he, rfl⟩
  · rintro ⟨he, rfl⟩
    exact ⟨e, he, rfl⟩

theorem nodup_signatures_without (hl : l.signatures.Nodup) (signatures : List String) :
    (l.without signatures).signatures.Nodup :=
  hl.sublist (List.filter_sublist.map _)

theorem find?_without (signatures : List String) (signature : String) :
    (l.without signatures).entries.find? (·.signature = signature) =
      if signature ∈ signatures then none else l.entries.find? (·.signature = signature) := by
  rw [without, List.find?_filter]
  split
  · rename_i hin
    rw [List.find?_eq_none]
    rintro x - hx
    simp only [decide_eq_true_eq] at hx
    exact hx.1 (hx.2 ▸ hin)
  · rename_i hout
    congr 1
    funext x
    by_cases hx : x.signature = signature
    · simp [hx, hout]
    · simp [hx]

/-- What is left is found as before. -/
theorem entryFor_without {signatures : List String} {pattern : String} {e : Entry} :
    (l.without signatures).entryFor pattern = .ok e ↔
      l.entryFor pattern = .ok e ∧ e.signature ∉ signatures := by
  simp only [entryFor_eq_ok_iff, find?_without]
  constructor
  · rintro ⟨c, hread, hfind⟩
    split at hfind
    · cases hfind
    · rename_i hout
      have hsig : e.signature = c.signature := by simpa using List.find?_some hfind
      exact ⟨⟨c, hread, hfind⟩, hsig ▸ hout⟩
  · rintro ⟨⟨c, hread, hfind⟩, hout⟩
    have hsig : e.signature = c.signature := by simpa using List.find?_some hfind
    exact ⟨c, hread, by rwa [if_neg (hsig ▸ hout)]⟩

theorem finds_without_iff {signatures patterns : List String} {entries : List Entry} :
    (l.without signatures).Finds patterns entries ↔
      l.Finds patterns entries ∧ ∀ e ∈ entries, e.signature ∉ signatures := by
  simp only [Finds, entryFor_without]
  induction patterns generalizing entries with
  | nil => cases entries <;> simp
  | cons pattern patterns ih =>
    cases entries with
    | nil => simp
    | cons e entries => simp only [List.forall₂_cons, ih, List.forall_mem_cons, and_and_and_comm]

/-- Removals go well if the patterns find entries, each with another signature. -/
theorem foldlM_erase_eq_ok_iff (hl : l.signatures.Nodup) {patterns : List String} {l' : Language} :
    patterns.foldlM (fun l pattern => (·.2) <$> l.erase pattern) l = .ok l' ↔
      ∃ entries, l.Finds patterns entries ∧ (entries.map Entry.signature).Nodup ∧
        l' = l.without (entries.map Entry.signature) := by
  induction patterns generalizing l with
  | nil =>
    have hnone : l.without [] = l := by simp [without]
    constructor
    · rintro ⟨⟩
      exact ⟨[], .nil, List.nodup_nil, hnone.symm⟩
    · rintro ⟨_, ⟨⟩, -, rfl⟩
      exact congrArg _ hnone.symm
  | cons pattern patterns ih =>
    rw [List.foldlM_cons, bind_eq_ok_iff]
    constructor
    · rintro ⟨l₁, herase, hrest⟩
      obtain ⟨⟨e, _⟩, hstep, ⟨⟩⟩ := bind_eq_ok_iff.mp herase
      obtain ⟨he, rfl⟩ := (erase_eq_ok_iff hl).mp hstep
      obtain ⟨entries, hfinds, hnodup, rfl⟩ := (ih (nodup_signatures_without hl _)).mp hrest
      obtain ⟨hfinds, hnew⟩ := finds_without_iff.mp hfinds
      refine ⟨e :: entries, .cons he hfinds, List.nodup_cons.mpr ⟨?_, hnodup⟩, without_without _ _⟩
      intro hmem
      obtain ⟨x, hx, hsame⟩ := List.mem_map.mp hmem
      exact hnew x hx (by simp [hsame])
    · rintro ⟨_, ⟨⟩ | ⟨he, hfinds⟩, hnodup, rfl⟩
      rename_i e entries
      obtain ⟨hnew, hnodup⟩ := List.nodup_cons.mp hnodup
      have hfinds' : (l.without [e.signature]).Finds patterns entries := by
        refine finds_without_iff.mpr ⟨hfinds, fun x hx hsame => hnew ?_⟩
        rw [← List.mem_singleton.mp hsame]
        exact List.mem_map_of_mem hx
      refine ⟨l.without [e.signature], ?_, (ih (nodup_signatures_without hl _)).mpr
        ⟨entries, hfinds', hnodup, (without_without [_] _).symm⟩⟩
      exact bind_eq_ok_iff.mpr ⟨_, (erase_eq_ok_iff hl).mpr ⟨he, rfl⟩, rfl⟩

/-! ## Additions -/

/-- Clauses can join a language if the first one can, and the others can once it is there. -/
theorem letsIn_cons_iff {pattern : String} {patterns : List String} {e : Entry}
    {clauses : List Clause} : l.LetsIn (pattern :: patterns) (e.clause :: clauses) ↔
      l.admissible pattern = .ok e.clause ∧
        LetsIn { l with entries := e :: l.entries } patterns clauses := by
  rw [admissible_eq_ok_iff, clauseOf_eq_ok_iff, objection?_eq_none_iff]
  constructor
  · rintro ⟨hreads, hresolved, hgrounded, hfresh, honce⟩
    obtain ⟨hread, hreads⟩ := List.forall₂_cons.mp hreads
    obtain ⟨hnames, hresolved⟩ := List.forall_mem_cons.mp hresolved
    obtain ⟨hground, hgrounded⟩ := List.forall_mem_cons.mp hgrounded
    obtain ⟨hnew, hfresh⟩ := List.forall_mem_cons.mp hfresh
    obtain ⟨hother, honce⟩ := List.nodup_cons.mp honce
    refine ⟨⟨hread, hnames, hground, hnew⟩, hreads, hresolved, hgrounded, ?_, honce⟩
    intro c hc hmem
    rcases List.mem_cons.mp hmem with hsame | hmem
    · exact hother (List.mem_map.mpr ⟨c, hc, hsame⟩)
    · exact hfresh c hc hmem
  · rintro ⟨⟨hread, hnames, hground, hnew⟩, hreads, hresolved, hgrounded, hfresh, honce⟩
    refine ⟨.cons hread hreads, List.forall_mem_cons.mpr ⟨hnames, hresolved⟩,
      List.forall_mem_cons.mpr ⟨hground, hgrounded⟩, List.forall_mem_cons.mpr ⟨hnew, ?_⟩,
      List.nodup_cons.mpr ⟨?_, honce⟩⟩
    · intro c hc hmem
      exact hfresh c hc (List.mem_cons_of_mem _ hmem)
    · intro hmem
      obtain ⟨c, hc, hsame⟩ := List.mem_map.mp hmem
      exact hfresh c hc (List.mem_cons.mpr (.inl hsame))

theorem letsIn_reverse_iff {patterns : List String} {clauses : List Clause} :
    l.LetsIn patterns.reverse clauses.reverse ↔ l.LetsIn patterns clauses := by
  constructor
  · rintro ⟨hreads, hresolved, hgrounded, hfresh, honce⟩
    simp only [List.mem_reverse] at hresolved hgrounded hfresh
    rw [List.map_reverse, List.nodup_reverse] at honce
    exact ⟨List.forall₂_reverse_iff.mp hreads, hresolved, hgrounded, hfresh, honce⟩
  · rintro ⟨hreads, hresolved, hgrounded, hfresh, honce⟩
    refine ⟨List.forall₂_reverse_iff.mpr hreads, ?_, ?_, ?_, ?_⟩
    · simpa only [List.mem_reverse] using hresolved
    · simpa only [List.mem_reverse] using hgrounded
    · simpa only [List.mem_reverse] using hfresh
    · rwa [List.map_reverse, List.nodup_reverse]

/-- An entry is what a row of a definition asks for. -/
def IsFor (row : String × Bool) (e : Entry) : Prop :=
  Clause.read row.1 = .ok e.clause ∧ e.verbatim = row.2

/-- Additions that go well stand before all others, the last one first, under ids spent for them. -/
theorem foldlM_prepend_eq_ok {rows : List (String × Bool)} {l' : Language} {s s' : Supply}
    (h : (rows.foldlM (fun l row => (·.2) <$> l.prepend row.1 row.2) l : Build Language).run.run s =
      (.ok l', s')) :
    ∃ new : List Entry, List.Forall₂ IsFor rows new ∧
      l.LetsIn (rows.map (·.1)) (new.map (·.clause)) ∧
      l' = { l with entries := new.reverse ++ l.entries } ∧
      s'.spent = s.spent ++ new.map (·.id) := by
  induction rows generalizing l s with
  | nil =>
    cases h
    exact ⟨[], .nil, ⟨.nil, by simp, by simp, by simp, by simp⟩, rfl, by simp⟩
  | cons row rows ih =>
    rw [List.foldlM_cons] at h
    obtain ⟨l₁, t, hfirst, hrest⟩ := Build.run_bind_eq_ok_iff.mp h
    obtain ⟨⟨id, l₂⟩, t', hprepend, hlast⟩ := Build.run_bind_eq_ok_iff.mp hfirst
    cases hlast
    cases hc : l.admissible row.1 with
    | error e =>
      rw [prepend_of_error row.2 hc] at hprepend
      cases hprepend
    | ok c =>
      rw [prepend_of_ok row.2 hc] at hprepend
      cases hprepend
      obtain ⟨new, hfor, hlets, rfl, hspent⟩ := ih hrest
      have hread := clauseOf_eq_ok_iff.mp (admissible_eq_ok_iff.mp hc).1
      refine ⟨⟨s.next, c, row.2⟩ :: new, .cons ⟨hread, rfl⟩ hfor,
        letsIn_cons_iff.mpr ⟨hc, hlets⟩, by simp, ?_⟩
      rw [hspent, Supply.spent_spend, List.append_assoc, List.map_cons, List.singleton_append]

theorem exists_foldlM_prepend {rows : List (String × Bool)} {clauses : List Clause}
    (h : l.LetsIn (rows.map (·.1)) clauses) (s : Supply) :
    ∃ l' s', (rows.foldlM (fun l row => (·.2) <$> l.prepend row.1 row.2) l :
      Build Language).run.run s = (.ok l', s') := by
  induction rows generalizing l clauses s with
  | nil => exact ⟨l, s, rfl⟩
  | cons row rows ih =>
    cases clauses with
    | nil => cases h.reads
    | cons c clauses =>
      obtain ⟨hc, hrest⟩ := (letsIn_cons_iff (e := ⟨s.next, c, row.2⟩)).mp h
      obtain ⟨l', s', hrun⟩ := ih hrest s.spend
      refine ⟨l', s', ?_⟩
      rw [List.foldlM_cons, Build.run_bind_of_ok (Build.run_map_of_ok (prepend_of_ok row.2 hc s))]
      exact hrun

end Language

/-! ## Rules -/

namespace RuleTable

theorem contains_eq_false_iff {table : RuleTable} {id : ClauseId} :
    table.contains id = false ↔ id ∉ table.rows.map (·.1) := by
  rw [contains, get?, Option.isSome_eq_false_iff, Option.isNone_iff_eq_none,
    List.lookup_eq_none_iff]
  simp only [bne_iff_ne, List.mem_map, not_exists, not_and]
  exact forall₂_congr fun row _ => ⟨fun h hsame => h hsame.symm, fun h hsame => h hsame.symm⟩

theorem insert_of_not_contains {table : RuleTable} {id : ClauseId} (h : id ∉ table.rows.map (·.1))
    (rule : Rule) : table.insert id rule = ⟨table.rows ++ [(id, rule)]⟩ := by
  have hkeep : table.rows.filter (·.1 ≠ id) = table.rows := by
    rw [List.filter_eq_self]
    intro row hrow
    have hne : row.1 ≠ id := fun hsame => h (List.mem_map.mpr ⟨row, hrow, hsame⟩)
    simpa using hne
  rw [insert, hkeep]

/-- With one row for each id, a table holds exactly the rules in its rows. -/
theorem get?_eq_some_iff {table : RuleTable} (h : (table.rows.map (·.1)).Nodup) {id : ClauseId}
    {rule : Rule} : table.get? id = some rule ↔ (id, rule) ∈ table.rows := by
  rw [get?, List.lookup_eq_some_iff]
  constructor
  · rintro ⟨before, after, hrows, -⟩
    simp [hrows]
  · intro hmem
    obtain ⟨before, after, hrows⟩ := List.append_of_mem hmem
    refine ⟨before, after, hrows, fun row hrow => ?_⟩
    rw [hrows, List.map_append, List.map_cons] at h
    have hdisjoint := (List.nodup_append.mp h).2.2 row.1 (List.mem_map_of_mem hrow) id (by simp)
    simpa using hdisjoint.symm

end RuleTable

namespace PassDefinition

variable {d : PassDefinition} {source : Language}

/-- The row that a rule gets in the table: it goes by the id of the entry that its pattern finds. -/
def IsRow (source : Language) (row : String × Rule) (entry : ClauseId × Rule) : Prop :=
  ∃ e, source.entryFor row.1 = .ok e ∧ entry = (e.id, row.2)

theorem insertRule_eq_ok_iff {table table' : RuleTable} {row : String × Rule} :
    d.insertRule source table row = .ok table' ↔
      ∃ entry, IsRow source row entry ∧ entry.1 ∉ table.rows.map (·.1) ∧
        table' = ⟨table.rows ++ [entry]⟩ := by
  rw [insertRule, bind_eq_ok_iff]
  constructor
  · rintro ⟨e, he, hinsert⟩
    cases hc : table.contains e.id with
    | true =>
      rw [if_pos hc] at hinsert
      cases hinsert
    | false =>
      rw [if_neg (by simp [hc])] at hinsert
      have hnew := RuleTable.contains_eq_false_iff.mp hc
      rw [RuleTable.insert_of_not_contains hnew] at hinsert
      cases hinsert
      exact ⟨(e.id, row.2), ⟨e, he, rfl⟩, hnew, rfl⟩
  · rintro ⟨_, ⟨e, he, rfl⟩, hnew, rfl⟩
    refine ⟨e, he, ?_⟩
    rw [if_neg (by simp [RuleTable.contains_eq_false_iff.mpr hnew]),
      RuleTable.insert_of_not_contains hnew]

theorem foldlM_insertRule_eq_ok_iff {rows : List (String × Rule)} {table table' : RuleTable}
    (h : (table.rows.map (·.1)).Nodup) :
    rows.foldlM (d.insertRule source) table = .ok table' ↔
      ∃ new, List.Forall₂ (IsRow source) rows new ∧ table' = ⟨table.rows ++ new⟩ ∧
        (table'.rows.map (·.1)).Nodup := by
  induction rows generalizing table with
  | nil =>
    constructor
    · rintro ⟨⟩
      exact ⟨[], .nil, by simp, h⟩
    · rintro ⟨_, ⟨⟩, rfl, -⟩
      simp
      rfl
  | cons row rows ih =>
    rw [List.foldlM_cons, bind_eq_ok_iff]
    constructor
    · rintro ⟨table₁, hstep, hrest⟩
      obtain ⟨entry, hrow, hnew, rfl⟩ := insertRule_eq_ok_iff.mp hstep
      have h₁ : ((table.rows ++ [entry]).map (·.1)).Nodup := by
        rw [List.map_append, List.map_singleton, List.nodup_middle, List.append_nil]
        exact List.nodup_cons.mpr ⟨hnew, h⟩
      obtain ⟨new, hrows, rfl, hnodup⟩ := (ih h₁).mp hrest
      exact ⟨entry :: new, .cons hrow hrows, by simp, hnodup⟩
    · rintro ⟨_, ⟨⟩ | ⟨hrow, hrows⟩, rfl, hnodup⟩
      rename_i entry new
      have hsplit : (⟨table.rows ++ entry :: new⟩ : RuleTable) =
          ⟨(table.rows ++ [entry]) ++ new⟩ := by simp
      have h₁ : ((table.rows ++ [entry]).map (·.1)).Nodup := by
        rw [hsplit] at hnodup
        exact hnodup.sublist ((List.sublist_append_left _ new).map _)
      have hnew : entry.1 ∉ table.rows.map (·.1) := by
        rw [List.map_append, List.map_singleton, List.nodup_middle, List.append_nil] at h₁
        exact (List.nodup_cons.mp h₁).1
      exact ⟨_, insertRule_eq_ok_iff.mpr ⟨entry, hrow, hnew, rfl⟩,
        (ih h₁).mpr ⟨new, hrows, hsplit, hnodup⟩⟩

/-- The table of a definition has one row for each of its rules, and no id twice. -/
theorem table_eq_ok_iff {table : RuleTable} : d.table source = .ok table ↔
    List.Forall₂ (IsRow source) d.rules table.rows ∧ (table.rows.map (·.1)).Nodup := by
  rw [PassDefinition.table, foldlM_insertRule_eq_ok_iff (by simp [RuleTable.empty])]
  constructor
  · rintro ⟨new, hrows, rfl, hnodup⟩
    exact ⟨hrows, hnodup⟩
  · rintro ⟨hrows, hnodup⟩
    exact ⟨table.rows, hrows, rfl, hnodup⟩

/-- The rows of a table go by the ids of the entries that the patterns find. -/
theorem exists_isRow_iff {rows : List (String × Rule)} {ids : List ClauseId} :
    (∃ entries, List.Forall₂ (IsRow source) rows entries ∧ entries.map (·.1) = ids) ↔
      ∃ found, source.Finds (rows.map (·.1)) found ∧ found.map (·.id) = ids := by
  constructor
  · rintro ⟨entries, hrows, rfl⟩
    induction hrows with
    | nil => exact ⟨[], .nil, rfl⟩
    | cons hrow _ ih =>
      obtain ⟨e, he, rfl⟩ := hrow
      obtain ⟨found, hfinds, hsame⟩ := ih
      exact ⟨e :: found, .cons he hfinds, by rw [List.map_cons, hsame, List.map_cons]⟩
  · rintro ⟨found, hfinds, rfl⟩
    induction rows generalizing found with
    | nil =>
      cases hfinds
      exact ⟨[], .nil, rfl⟩
    | cons row rows ih =>
      obtain _ | ⟨he, hfinds⟩ := hfinds
      rename_i e found
      obtain ⟨entries, hrows, hsame⟩ := ih found hfinds
      exact ⟨(e.id, row.2) :: entries, .cons ⟨e, he, rfl⟩ hrows, by
        rw [List.map_cons, hsame, List.map_cons]⟩

/-- Rules that find no id twice name no clause twice. -/
theorem exists_picks_of_table (hsigs : source.signatures.Nodup) {table : RuleTable}
    (h : d.table source = .ok table) : ∃ ruled, source.Picks (d.rules.map (·.1)) ruled := by
  obtain ⟨hrows, hnodup⟩ := table_eq_ok_iff.mp h
  obtain ⟨found, hfinds, hsame⟩ := exists_isRow_iff.mp ⟨table.rows, hrows, rfl⟩
  rw [← hsame] at hnodup
  have honce : (found.map Entry.signature).Nodup := hnodup.of_map.map_on fun e he e' he' =>
    List.inj_on_of_nodup_map hsigs (hfinds.mem e he) (hfinds.mem e' he')
  obtain ⟨ruled, hpicks, -⟩ := Language.exists_picks_iff.mpr ⟨found, hfinds, rfl, honce⟩
  exact ⟨ruled, hpicks⟩

/-- Where an id stands for one entry, rules that name no clause twice find no id twice. -/
theorem exists_table_of_picks
    (hids : ∀ e ∈ source.entries, ∀ e' ∈ source.entries, e.id = e'.id → e = e')
    {ruled : List Clause} (h : source.Picks (d.rules.map (·.1)) ruled) :
    ∃ table, d.table source = .ok table := by
  obtain ⟨found, hfinds, hsame, hnodup⟩ := Language.exists_picks_iff.mp ⟨ruled, h, rfl⟩
  rw [← hsame] at hnodup
  have honce : (found.map (·.id)).Nodup := hnodup.of_map.map_on fun e he e' he' =>
    hids e (hfinds.mem e he) e' (hfinds.mem e' he')
  obtain ⟨rows, hrows, hrowIds⟩ := exists_isRow_iff.mpr ⟨found, hfinds, rfl⟩
  exact ⟨⟨rows⟩, table_eq_ok_iff.mpr ⟨hrows, hrowIds ▸ honce⟩⟩

/-- A table holds the rules of the definition, each under the id that its pattern finds. -/
theorem get?_table_iff {table : RuleTable} (h : d.table source = .ok table) {id : ClauseId}
    {rule : Rule} : table.get? id = some rule ↔
      ∃ row ∈ d.rules, ∃ e, source.entryFor row.1 = .ok e ∧ e.id = id ∧ row.2 = rule := by
  obtain ⟨hrows, hnodup⟩ := table_eq_ok_iff.mp h
  rw [RuleTable.get?_eq_some_iff hnodup]
  constructor
  · intro hmem
    obtain ⟨row, hrow, e, he, hsame⟩ := Clause.exists_of_forall₂ hrows hmem
    cases hsame
    exact ⟨row, hrow, e, he, rfl, rfl⟩
  · rintro ⟨row, hrow, e, he, rfl, rfl⟩
    obtain ⟨_, hmem, e', he', rfl⟩ := Clause.exists_of_forall₂ hrows.flip hrow
    cases he.symm.trans he'
    exact hmem

/-! ## Passes -/

theorem finds_renamed_iff {name : String} {patterns : List String} {entries : List Entry} :
    (source.renamed name).Finds patterns entries ↔ source.Finds patterns entries := by
  simp only [Language.Finds, Language.entryFor_eq_ok_iff]
  exact Iff.rfl

/-- What the removals of a definition leave. -/
theorem foldlM_removals_eq_ok_iff (hsigs : source.signatures.Nodup) {kept : Language} :
    d.removals.foldlM (fun l pattern => (·.2) <$> l.erase pattern) (source.renamed d.name) =
      .ok kept ↔ ∃ removed, source.Picks d.removals removed ∧
        kept = (source.without (removed.map Clause.signature)).renamed d.name := by
  rw [Language.foldlM_erase_eq_ok_iff (l := source.renamed d.name) hsigs]
  simp only [finds_renamed_iff]
  constructor
  · rintro ⟨found, hfinds, hnodup, rfl⟩
    obtain ⟨removed, hpicks, hsame⟩ := Language.exists_picks_iff.mpr ⟨found, hfinds, rfl, hnodup⟩
    exact ⟨removed, hpicks, by rw [hsame]; rfl⟩
  · rintro ⟨removed, hpicks, rfl⟩
    obtain ⟨found, hfinds, hsame, hnodup⟩ := Language.exists_picks_iff.mp ⟨removed, hpicks, rfl⟩
    exact ⟨found, hfinds, hsame ▸ hnodup, by rw [hsame]; rfl⟩

/-- A target language that comes about: the additions in their order, then what the removals
leave. The last addition got the first id. -/
theorem target_eq_ok (hsigs : source.signatures.Nodup) {target : Language} {s s' : Supply}
    (h : (d.target source).run.run s = (.ok target, s')) :
    ∃ removed new, source.Picks d.removals removed ∧ List.Forall₂ Language.IsFor d.additions new ∧
      (source.without (removed.map Clause.signature)).LetsIn (d.additions.map (·.1))
        (new.map (·.clause)) ∧
      target = ⟨d.name, new ++ source.entries.filter fun e =>
        e.signature ∉ removed.map Clause.signature, source.terminals⟩ ∧
      s'.spent = s.spent ++ (new.map (·.id)).reverse := by
  obtain ⟨kept, t, hremove, hadded⟩ := Build.run_bind_eq_ok_iff.mp h
  obtain ⟨hkept, rfl⟩ := Build.run_ofExcept_eq_ok_iff.mp hremove
  obtain ⟨removed, hpicks, rfl⟩ := (foldlM_removals_eq_ok_iff hsigs).mp hkept
  obtain ⟨new, hfor, hlets, rfl, hspent⟩ := Language.foldlM_prepend_eq_ok hadded
  refine ⟨removed, new.reverse, hpicks, ?_, ?_, rfl, ?_⟩
  · rwa [← List.forall₂_reverse_iff, List.reverse_reverse]
  · rw [← Language.letsIn_reverse_iff, ← List.map_reverse, ← List.map_reverse,
      List.reverse_reverse]
    exact ⟨hlets.reads, hlets.resolved, hlets.grounded, hlets.fresh, hlets.once⟩
  · rw [hspent, List.map_reverse, List.reverse_reverse]

theorem exists_target (hsigs : source.signatures.Nodup) {removed added : List Clause}
    (hpicks : source.Picks d.removals removed)
    (hlets : (source.without (removed.map Clause.signature)).LetsIn (d.additions.map (·.1)) added)
    (s : Supply) : ∃ target s', (d.target source).run.run s = (.ok target, s') := by
  have hkept := (foldlM_removals_eq_ok_iff hsigs).mpr ⟨removed, hpicks, rfl⟩
  have hback := Language.letsIn_reverse_iff.mpr hlets
  rw [← List.map_reverse] at hback
  obtain ⟨target, s', hrun⟩ := Language.exists_foldlM_prepend
    (l := (source.without (removed.map Clause.signature)).renamed d.name)
    ⟨hback.reads, hback.resolved, hback.grounded, hback.fresh, hback.once⟩ s
  exact ⟨target, s', Build.run_bind_eq_ok_iff.mpr
    ⟨_, s, Build.run_ofExcept_eq_ok_iff.mpr ⟨hkept, rfl⟩, hrun⟩⟩

theorem pass_eq_ok_iff {pass : Pass} {s s' : Supply} :
    (d.pass source).run.run s = (.ok pass, s') ↔
      ∃ target rules, d.table source = .ok rules ∧
        (d.target source).run.run s = (.ok target, s') ∧
        pass = ⟨d.name, source, target, rules⟩ := by
  constructor
  · intro h
    obtain ⟨rules, t, hread, hrest⟩ := Build.run_bind_eq_ok_iff.mp h
    obtain ⟨hrules, rfl⟩ := Build.run_ofExcept_eq_ok_iff.mp hread
    obtain ⟨target, t', htarget, hlast⟩ := Build.run_bind_eq_ok_iff.mp hrest
    cases hlast
    exact ⟨target, rules, hrules, htarget, rfl⟩
  · rintro ⟨target, rules, hrules, htarget, rfl⟩
    exact pass_run hrules htarget

theorem suits_of_pass (hsigs : source.signatures.Nodup) {pass : Pass} {s s' : Supply}
    (h : (d.pass source).run.run s = (.ok pass, s')) : d.Suits source := by
  obtain ⟨target, rules, hrules, htarget, -⟩ := pass_eq_ok_iff.mp h
  obtain ⟨removed, new, hpicks, -, hlets, -⟩ := target_eq_ok hsigs htarget
  exact ⟨exists_picks_of_table hsigs hrules, removed, hpicks, _, hlets⟩

theorem Suits.exists_pass (h : d.Suits source) (hsigs : source.signatures.Nodup)
    (hids : ∀ e ∈ source.entries, ∀ e' ∈ source.entries, e.id = e'.id → e = e') (s : Supply) :
    ∃ pass s', (d.pass source).run.run s = (.ok pass, s') := by
  obtain ⟨⟨ruled, hruled⟩, removed, hpicks, added, hlets⟩ := h
  obtain ⟨rules, hrules⟩ := exists_table_of_picks hids hruled
  obtain ⟨target, s', htarget⟩ := exists_target hsigs hpicks hlets s
  exact ⟨_, s', pass_run hrules htarget⟩

end PassDefinition

/-- Ids spent after a record was made are not on it, as long as 32 bits suffice. -/
theorem Records.fresh {made : List Entry} {s s' : Supply} (h : Records made s)
    {ids : List ClauseId} (hspent : s'.spent = s.spent ++ ids) (hs' : s'.created ≤ UInt32.size) :
    ids.Nodup ∧ ∀ e ∈ made, e.id ∉ ids := by
  have hnodup := Supply.nodup_spent hs'
  rw [hspent, ← h, List.nodup_append] at hnodup
  exact ⟨hnodup.2.1, fun e he hid => hnodup.2.2 _ (List.mem_map_of_mem he) _ hid rfl⟩

theorem Pipeline.add_eq_ok_iff {p p' : Pipeline} {d : PassDefinition} {s s' : Supply} :
    (p.add d).run.run s = (.ok p', s') ↔ ∃ pass,
      (d.pass p.current).run.run s = (.ok pass, s') ∧ p' = ⟨p.base, p.passes ++ [pass]⟩ := by
  constructor
  · intro h
    obtain ⟨pass, t, hpass, hlast⟩ := Build.run_bind_eq_ok_iff.mp h
    cases hlast
    exact ⟨pass, hpass, rfl⟩
  · rintro ⟨pass, hpass, rfl⟩
    exact add_run hpass

/-! ## The laws -/

namespace Workshop

/-- Whatever has been done in a workshop, adding a pass to a pipeline goes well exactly if its
definition suits the current language, as long as 32 bits suffice for the ids. Then one pass is put
after those that were there. It leads to the additions in their order, each under an id of its own
that no entry had before, and after them to what the removals leave of the current language, in its
order and with its ids and terminals. Its table holds the rules of the definition, each under the id
of the entry that its pattern finds, and no other. If it does not go well, the pipeline stays as it
is. -/
theorem a_pass_comes_about_exactly_if_its_definition_suits (actions : List Action) (p : Pipeline)
    (hp : p ∈ (after actions).pipelines) (d : PassDefinition) :
    ((after actions).supply.created ≤ UInt32.size →
      ((∃ p' s', (p.add d).run.run (after actions).supply = (.ok p', s')) ↔ d.Suits p.current)) ∧
    (∀ p' s', (p.add d).run.run (after actions).supply = (.ok p', s') → d.Suits p.current ∧
      ∃ pass removed new, p' = ⟨p.base, p.passes ++ [pass]⟩ ∧ pass.name = d.name ∧
        pass.source = p.current ∧ p.current.Picks d.removals removed ∧
        List.Forall₂ (fun row e => Clause.read row.1 = .ok e.clause ∧ e.verbatim = row.2)
          d.additions new ∧
        pass.target = ⟨d.name, new ++ p.current.entries.filter fun e =>
          e.signature ∉ removed.map Clause.signature, p.current.terminals⟩ ∧
        (s'.created ≤ UInt32.size → (new.map (·.id)).Nodup ∧
          ∀ l ∈ (after actions).known, ∀ e ∈ l.entries, e.id ∉ new.map (·.id)) ∧
        pass.rules.size = d.rules.length ∧
        ∀ id rule, pass.rules.get? id = some rule ↔
          ∃ row ∈ d.rules, ∃ e, p.current.entryFor row.1 = .ok e ∧ e.id = id ∧ row.2 = rule) ∧
    ∀ error s', (p.add d).run.run (after actions).supply = (.error error, s') →
      p.attempt (d, (after actions).supply) = p := by
  obtain ⟨made, hw⟩ := exists_consistent actions
  have hcurrent : p.current ∈ (after actions).known :=
    List.mem_append_right _ (List.mem_flatMap.mpr ⟨p, hp, p.current_mem⟩)
  have hbuilt := hw.builtFrom p.current hcurrent
  have hsigs := hbuilt.sound.distinct
  refine ⟨?_, ?_, ?_⟩
  · intro hids
    constructor
    · rintro ⟨p', s', hadd⟩
      obtain ⟨pass, hpass, -⟩ := Pipeline.add_eq_ok_iff.mp hadd
      exact PassDefinition.suits_of_pass hsigs hpass
    · intro hsuits
      obtain ⟨pass, s', hpass⟩ := hsuits.exists_pass hsigs (fun e he e' he' =>
        hw.records.eq_of_id_eq hids (hbuilt.recorded e he) (hbuilt.recorded e' he')) _
      exact ⟨_, s', Pipeline.add_eq_ok_iff.mpr ⟨pass, hpass, rfl⟩⟩
  · intro p' s' hadd
    obtain ⟨pass, hpass, rfl⟩ := Pipeline.add_eq_ok_iff.mp hadd
    obtain ⟨target, rules, hrules, htarget, rfl⟩ := PassDefinition.pass_eq_ok_iff.mp hpass
    obtain ⟨removed, new, hpicks, hfor, -, rfl, hspent⟩ :=
      PassDefinition.target_eq_ok hsigs htarget
    refine ⟨PassDefinition.suits_of_pass hsigs hpass, _, removed, new, rfl, rfl, rfl, hpicks, hfor,
      rfl, ?_, ?_, fun id rule => PassDefinition.get?_table_iff hrules⟩
    · intro hids
      obtain ⟨hnodup, hnew⟩ := hw.records.fresh hspent hids
      refine ⟨List.nodup_reverse.mp hnodup, fun l hl e he hid => ?_⟩
      exact hnew e ((hw.builtFrom l hl).recorded e he) (List.mem_reverse.mpr hid)
    · exact (PassDefinition.table_eq_ok_iff.mp hrules).1.length_eq.symm
  · intro error s' hadd
    rw [Pipeline.attempt, hadd]

/-- Two clauses in place of the one for marked symbols, and a rule for each clause there was. -/
def unmarking : PassDefinition :=
  ⟨"unmarked", [("('c s)", false), ("('b s s)", true)], ["( 'b s )"],
    [("('b  s)", Tree.replaceHead (.symbol "c")), ("s", id)]⟩

/-- A definition that takes out one clause twice. -/
def unmarkingTwice : PassDefinition := { unmarking with removals := ["('b s)", "( 'b s )"] }

/-- After the exchange a pass for marked symbols can be added, and the clauses that come get the two
ids after those spent. Where the clause that goes is named twice, the pipeline stays as it is. -/
theorem an_exchange_can_be_unmarked_once :
    ∃ p ∈ (after exchange).pipelines, unmarking.Suits p.current ∧
      (∃ p' s' pass, (p.add unmarking).run.run (after exchange).supply = (.ok p', s') ∧
        p'.passes = p.passes ++ [pass] ∧
        pass.target.signatures = ["('c s)", "('b s s)", "s"] ∧
        pass.rules.get? ⟨1⟩ = some id) ∧
      ¬ unmarkingTwice.Suits p.current ∧
      p.attempt (unmarkingTwice, (after exchange).supply) = p := by
  have hcurrents : (after exchange).pipelines.map (·.current) =
      [⟨"plain", [⟨⟨0⟩, .list [.literal "a" .one, .terminal "s" .zeroOrMore] .one, false⟩,
          ⟨⟨1⟩, .terminal "s" .one, false⟩], [("s", .symbol)]⟩,
        ⟨"marked", [⟨⟨2⟩, .list [.literal "b" .one, .terminal "s" .one] .one, true⟩,
          ⟨⟨1⟩, .terminal "s" .one, false⟩], [("s", .symbol)]⟩] := by decide +kernel
  obtain ⟨first, rest, hpipelines, -, hrest⟩ := List.map_eq_cons_iff.mp hcurrents
  obtain ⟨p, others, rfl, hcurrent, -⟩ := List.map_eq_cons_iff.mp hrest
  have hp : p ∈ (after exchange).pipelines := by simp [hpipelines]
  have hids : (after exchange).supply.created ≤ UInt32.size := by decide +kernel
  have hread : Clause.Reads ["('b s)", "( 'b s )", "('b  s)", "s", "('c s)", "('b s s)"]
      [.list [.literal "b" .one, .terminal "s" .one] .one,
        .list [.literal "b" .one, .terminal "s" .one] .one,
        .list [.literal "b" .one, .terminal "s" .one] .one, .terminal "s" .one,
        .list [.literal "c" .one, .terminal "s" .one] .one,
        .list [.literal "b" .one, .terminal "s" .one, .terminal "s" .one] .one] := by
    refine .cons ?_ (.cons ?_ (.cons ?_ (.cons ?_ (.cons ?_ (.cons ?_ .nil))))) <;> decide +kernel
  obtain _ | ⟨hb, _ | ⟨hb', _ | ⟨hb'', _ | ⟨hs, _ | ⟨hc, _ | ⟨hbs, -⟩⟩⟩⟩⟩⟩ := hread
  obtain ⟨hiff, hmade, -⟩ :=
    a_pass_comes_about_exactly_if_its_definition_suits exchange p hp unmarking
  obtain ⟨hiff', -, hkept⟩ :=
    a_pass_comes_about_exactly_if_its_definition_suits exchange p hp unmarkingTwice
  have hsuits : unmarking.Suits p.current := by
    rw [hcurrent]
    refine ⟨⟨_, .cons hb'' (.cons hs .nil), ?_, ?_⟩, _, ⟨.cons hb' .nil, ?_, ?_⟩, _,
      .cons hc (.cons hbs .nil), ?_, ?_, ?_, ?_⟩ <;> decide +kernel
  have hnot : ¬ unmarkingTwice.Suits p.current := by
    rintro ⟨-, removed, ⟨hreads, -, honce⟩, -⟩
    obtain _ | ⟨h, _ | ⟨h', -⟩⟩ := hreads
    cases h.symm.trans hb
    cases h'.symm.trans hb'
    simp at honce
  refine ⟨p, hp, hsuits, ?_, hnot, ?_⟩
  · obtain ⟨p', s', hadd⟩ := (hiff hids).mpr hsuits
    obtain ⟨-, pass, removed, new, rfl, -, -, hpicks, hnew, htarget, -, -, hrules⟩ :=
      hmade p' s' hadd
    refine ⟨_, s', pass, hadd, rfl, ?_, ?_⟩
    · obtain _ | ⟨⟨h, -⟩, _ | ⟨⟨h', -⟩, _ | _⟩⟩ := hnew
      obtain _ | ⟨hr, _ | _⟩ := hpicks.reads
      cases hr.symm.trans hb'
      rw [htarget, hcurrent, Language.signatures, List.cons_append, List.map_cons, List.cons_append,
        List.map_cons, Entry.signature, Entry.signature, Except.ok.inj (h.symm.trans hc),
        Except.ok.inj (h'.symm.trans hbs)]
      decide +kernel
    · refine (hrules ⟨1⟩ id).mpr
        ⟨("s", id), .tail _ (.head _), ⟨⟨1⟩, .terminal "s" .one, false⟩, ?_, rfl, rfl⟩
      rw [hcurrent]
      decide +kernel
  · rcases hadd : (p.add unmarkingTwice).run.run (after exchange).supply with ⟨error | p', s'⟩
    · exact hkept error s' hadd
    · exact absurd ((hiff' hids).mp ⟨p', s', hadd⟩) hnot

end Workshop

end TreePasses
