-- Sound languages: no two entries have the same signature, each clause can be written as a
-- pattern, and each name in it stands for something. Every edit of a sound language is sound, and
-- in a sound language the signature of an entry finds that entry.
import TreePasses.Proofs.Building
import TreePasses.Proofs.Signatures
import Mathlib.Data.List.Nodup

namespace TreePasses

namespace Language

theorem clauseOf_eq_ok_iff {pattern : String} {c : Clause} :
    clauseOf pattern = .ok c ↔ Clause.read pattern = .ok c := by
  unfold clauseOf
  cases Clause.read pattern <;> simp [Except.mapError]

/-- What every language is that has been built step by step. -/
structure Sound (l : Language) : Prop where
  distinct : l.signatures.Nodup
  wellFormed : ∀ e ∈ l.entries, e.clause.WellFormed
  resolved : ∀ e ∈ l.entries, ∀ name ∈ e.clause.terminalNames, (l.terminal? name).isSome = true

theorem sound_empty (name : String) : (empty name).Sound :=
  ⟨List.nodup_nil, by simp [empty], by simp [empty]⟩

/-! ## Changes of a sound language -/

/-- A name that stands for something still does after any registration. -/
theorem isSome_terminal?_register {l : Language} {name : String}
    (h : (l.terminal? name).isSome = true) (other : String) (terminal : Terminal) :
    ((l.register other terminal).terminal? name).isSome = true := by
  unfold terminal? at h ⊢
  split
  · rfl
  · rename_i hname
    rw [if_neg hname] at h
    rw [register, List.lookup_cons]
    split
    · rfl
    · exact h

section

variable {l : Language} (hl : l.Sound)
include hl

theorem Sound.register (name : String) (terminal : Terminal) : (l.register name terminal).Sound :=
  ⟨hl.distinct, hl.wellFormed, fun e he other hother =>
    isSome_terminal?_register (hl.resolved e he other hother) name terminal⟩

theorem Sound.renamed (name : String) : (l.renamed name).Sound :=
  ⟨hl.distinct, hl.wellFormed, hl.resolved⟩

theorem Sound.sublist {entries : List Entry} (h : entries.Sublist l.entries) :
    Sound { l with entries } :=
  ⟨hl.distinct.sublist (h.map _), fun e he => hl.wellFormed e (h.subset he),
    fun e he => hl.resolved e (h.subset he)⟩

/-- An entry for a clause that nothing keeps out may stand anywhere among the others. -/
theorem Sound.insert {pattern : String} {e : Entry} (he : l.admissible pattern = .ok e.clause)
    {entries : List Entry} (h : entries.Perm (e :: l.entries)) : Sound { l with entries } := by
  obtain ⟨hread, hnone⟩ := admissible_eq_ok_iff.mp he
  obtain ⟨hnames, -, hfresh⟩ := objection?_eq_none_iff.mp hnone
  have hmem : ∀ x ∈ entries, x = e ∨ x ∈ l.entries := fun x hx =>
    List.mem_cons.mp (h.subset hx)
  refine ⟨?_, ?_, ?_⟩
  · have hnodup : (e.signature :: l.signatures).Nodup := List.nodup_cons.mpr ⟨hfresh, hl.distinct⟩
    exact (h.map Entry.signature).nodup_iff.mpr hnodup
  · intro x hx
    rcases hmem x hx with rfl | hx
    · exact Clause.wellFormed_of_read (clauseOf_eq_ok_iff.mp hread)
    · exact hl.wellFormed x hx
  · intro x hx
    rcases hmem x hx with rfl | hx
    · exact hnames
    · exact hl.resolved x hx

/-! ## Looking entries up -/

/-- In a sound language no entry reads like another one before it. -/
theorem Sound.all_before {before after : List Entry} {e : Entry}
    (h : l.entries = before ++ e :: after) :
    before.all (fun x => x.clause.chars ≠ e.clause.chars) = true := by
  have hdistinct := hl.distinct
  rw [signatures, h, List.map_append, List.map_cons] at hdistinct
  have hnew := List.disjoint_of_nodup_append hdistinct
  rw [List.all_eq_true]
  intro x hx
  rw [decide_eq_true_eq, Ne, ← Clause.signature_eq_iff]
  intro hsame
  exact hnew (List.mem_map.mpr ⟨x, hx, hsame⟩) List.mem_cons_self

theorem Sound.read_signature {e : Entry} (he : e ∈ l.entries) :
    Clause.read e.signature = .ok e.clause :=
  Clause.read_signature (hl.wellFormed e he)

/-- The signature of an entry finds it. -/
theorem Sound.entryFor_signature {e : Entry} (he : e ∈ l.entries) :
    l.entryFor e.signature = .ok e := by
  obtain ⟨before, after, h⟩ := List.append_of_mem he
  exact entryFor_eq_ok l before e after (clauseOf_eq_ok_iff.mpr (hl.read_signature he)) h
    (hl.all_before h)

/-- The signature of an entry takes out that entry, and leaves all others in their order. -/
theorem Sound.erase_signature {before after : List Entry} {e : Entry}
    (h : l.entries = before ++ e :: after) :
    l.erase e.signature = .ok (e, { l with entries := before ++ after }) := by
  have he : e ∈ l.entries := by
    rw [h]
    exact List.mem_append_right before List.mem_cons_self
  exact erase_eq_ok l before e after (clauseOf_eq_ok_iff.mpr (hl.read_signature he)) h
    (hl.all_before h)

end

/-- An id finds its entry if no other entry has it. -/
theorem entry?_eq_some {l : Language} {e : Entry} (he : e ∈ l.entries)
    (honly : ∀ x ∈ l.entries, x.id = e.id → x = e) : l.entry? e.id = some e := by
  unfold entry?
  cases hfound : l.entries.find? (·.id = e.id) with
  | none => simpa using List.find?_eq_none.mp hfound e he
  | some x =>
    have hid : x.id = e.id := by simpa using List.find?_some hfound
    rw [honly x (List.mem_of_find?_eq_some hfound) hid]

/-- The pattern of an entry that was put before all others takes it out again. -/
theorem erase_prepended {l : Language} {pattern : String} {e : Entry}
    (he : l.admissible pattern = .ok e.clause) :
    erase { l with entries := e :: l.entries } pattern = .ok (e, l) :=
  erase_eq_ok { l with entries := e :: l.entries } [] e l.entries (admissible_eq_ok_iff.mp he).1
    rfl rfl

/-- What comes of putting a clause before all others, when it goes well. -/
theorem prepend_eq_ok {l l' : Language} {pattern : String} {verbatim : Bool} {id : ClauseId}
    {s s' : Supply} (h : (l.prepend pattern verbatim).run.run s = (.ok (id, l'), s')) :
    ∃ e : Entry, e.id = id ∧ l.admissible pattern = .ok e.clause ∧
      l' = { l with entries := e :: l.entries } := by
  cases hc : l.admissible pattern with
  | error e =>
    rw [prepend_of_error verbatim hc s] at h
    cases h
  | ok c =>
    rw [prepend_of_ok verbatim hc s] at h
    cases h
    exact ⟨⟨s.next, c, verbatim⟩, rfl, rfl, rfl⟩

end Language

/-! ## Edits -/

/-- One change of a language. -/
inductive Edit where
  | register (name : String) (terminal : Terminal)
  | append (pattern : String) (verbatim : Bool)
  | prepend (pattern : String) (verbatim : Bool)
  | erase (pattern : String)
  | rename (name : String)

namespace Edit

/-- The language after a change. -/
def apply (l : Language) : Edit → Build Language
  | .register name terminal => pure (l.register name terminal)
  | .append pattern verbatim => l.append pattern verbatim
  | .prepend pattern verbatim => (·.2) <$> l.prepend pattern verbatim
  | .erase pattern => Build.ofExcept ((·.2) <$> l.erase pattern)
  | .rename name => pure (l.renamed name)

/-- The language after changes one after the other. -/
def applyAll (l : Language) (edits : List Edit) : Build Language := edits.foldlM apply l

/-- What an edit can come to: it fails and spends nothing; it spends nothing and gives a sound
language with entries of the old one; or it spends an id and puts one entry under that id among
the old ones. -/
theorem apply_cases {l : Language} (hl : l.Sound) (edit : Edit) (s : Supply) :
    (∃ e, (edit.apply l).run.run s = (.error e, s)) ∨
    (∃ l', (edit.apply l).run.run s = (.ok l', s) ∧ l'.Sound ∧ ∀ e ∈ l'.entries, e ∈ l.entries) ∨
    ∃ l' e, (edit.apply l).run.run s = (.ok l', s.spend) ∧ l'.Sound ∧ e.id = s.next ∧
      ∀ x ∈ l'.entries, x = e ∨ x ∈ l.entries := by
  cases edit with
  | register name terminal =>
    exact .inr (.inl ⟨_, rfl, hl.register name terminal, fun _ he => he⟩)
  | append pattern verbatim =>
    cases hc : l.admissible pattern with
    | error e => exact .inl ⟨e, Language.append_of_error verbatim hc s⟩
    | ok c =>
      have hperm := List.perm_append_singleton (⟨s.next, c, verbatim⟩ : Entry) l.entries
      exact .inr (.inr ⟨_, _, Language.append_of_ok verbatim hc s, hl.insert hc hperm, rfl,
        fun _ hx => List.mem_cons.mp (hperm.subset hx)⟩)
  | prepend pattern verbatim =>
    cases hc : l.admissible pattern with
    | error e => exact .inl ⟨e, Build.run_bind_of_error (Language.prepend_of_error verbatim hc s)⟩
    | ok c =>
      exact .inr (.inr ⟨_, _, Build.run_map_of_ok (Language.prepend_of_ok verbatim hc s),
        hl.insert hc (.refl _), rfl, fun _ hx => List.mem_cons.mp hx⟩)
  | erase pattern =>
    rw [apply, Language.erase]
    cases l.entryFor pattern with
    | error e => exact .inl ⟨e, rfl⟩
    | ok e =>
      have hsub : (l.entries.eraseP (·.signature = e.signature)).Sublist l.entries :=
        List.eraseP_sublist
      exact .inr (.inl ⟨_, rfl, hl.sublist hsub, fun _ hx => hsub.subset hx⟩)
  | rename name => exact .inr (.inl ⟨_, rfl, hl.renamed name, fun _ he => he⟩)

end Edit

namespace PassDefinition

/-- The edits that lead from the source language to the target language. -/
def edits (d : PassDefinition) : List Edit :=
  .rename d.name :: (d.removals.map .erase ++ d.additions.reverse.map fun row =>
    .prepend row.1 row.2)

/-- Erasing one clause after the other spends no ids. -/
theorem ofExcept_erase_all (patterns : List String) (l : Language) :
    Build.ofExcept (patterns.foldlM (fun l pattern => (·.2) <$> l.erase pattern) l) =
      Edit.applyAll l (patterns.map .erase) := by
  induction patterns generalizing l with
  | nil => rfl
  | cons pattern patterns ih =>
    rw [List.foldlM_cons, List.map_cons, Edit.applyAll, List.foldlM_cons, Edit.apply]
    cases h : (·.2) <$> l.erase pattern with
    | error e => rfl
    | ok l' => exact ih l'

/-- The target language is the source language after the edits of the definition. -/
theorem target_eq_applyAll (d : PassDefinition) (source : Language) :
    d.target source = Edit.applyAll source d.edits := by
  have hedits : Edit.applyAll source d.edits = Edit.applyAll (source.renamed d.name)
      (d.removals.map .erase ++ d.additions.reverse.map fun row => .prepend row.1 row.2) := rfl
  rw [hedits, Edit.applyAll, List.foldlM_append, target, ofExcept_erase_all]
  refine bind_congr fun kept => ?_
  rw [List.foldlM_map]
  rfl

end PassDefinition

end TreePasses
