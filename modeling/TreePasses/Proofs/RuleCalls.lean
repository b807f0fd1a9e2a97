-- The calls of rules in a run of a pass. A walk that applies rules and writes down each call comes
-- to what the pass makes of the tree. A rule is called once for each form that has one, after the
-- forms inside. A tree without such forms stays as it is.
import TreePasses.Proofs.Walks

namespace TreePasses

/-! ## Calls on record -/

/-- A call of a rule: the path of the form that it is for, the entry of the form, and what the rule
is given. -/
structure Call where
  path : List Nat
  entry : Entry
  argument : Tree
deriving DecidableEq, Repr

/-- No call comes before one for the same form or for a form inside: inner forms have their turn
first, and no form has two. -/
def Call.InnerFirst (calls : List Call) : Prop :=
  calls.Pairwise fun earlier later => ¬ earlier.path <+: later.path

theorem Call.nodup_of_innerFirst {calls : List Call} (h : InnerFirst calls) :
    (calls.map Call.path).Nodup := by
  refine List.pairwise_map.mpr (h.imp fun hab heq => hab ?_)
  exact ⟨[], by rw [List.append_nil, heq]⟩

/-- Something that has been worked out, with the calls made on the way, the first one first. -/
structure Traced (α : Type) where
  value : α
  calls : List Call
deriving DecidableEq

namespace Traced

instance : Monad Traced where
  pure a := ⟨a, []⟩
  map f x := ⟨f x.value, x.calls⟩
  bind x f := ⟨(f x.value).value, x.calls ++ (f x.value).calls⟩

variable {α β : Type}

@[simp]
theorem value_pure (a : α) : (pure a : Traced α).value = a := rfl

@[simp]
theorem calls_pure (a : α) : (pure a : Traced α).calls = [] := rfl

@[simp]
theorem value_map (f : α → β) (x : Traced α) : (f <$> x).value = f x.value := rfl

@[simp]
theorem calls_map (f : α → β) (x : Traced α) : (f <$> x).calls = x.calls := rfl

@[simp]
theorem value_bind (x : Traced α) (f : α → Traced β) : (x >>= f).value = (f x.value).value := rfl

@[simp]
theorem calls_bind (x : Traced α) (f : α → Traced β) :
    (x >>= f).calls = x.calls ++ (f x.value).calls := rfl

theorem bind_congr {x : Traced α} {f g : α → Traced β} (h : f x.value = g x.value) :
    x >>= f = x >>= g :=
  congrArg (fun y => Traced.mk y.value (x.calls ++ y.calls)) h

/-- A rule was called for the form at a path, by its entry. -/
def Calls (x : Traced α) (path : List Nat) (e : Entry) : Prop :=
  ∃ call ∈ x.calls, call.path = path ∧ call.entry = e

end Traced

/-- The account of computations with calls on record. -/
def Account.traced : Account Traced Call where
  value := Traced.value
  log := Traced.calls
  value_pure _ := rfl
  value_map _ _ := rfl
  value_bind _ _ := rfl
  log_pure _ := rfl
  log_bind _ _ := rfl

/-- What becomes of a form of an entry by the rules, with the call on record if there is a rule. -/
def RuleTable.call (rules : RuleTable) (path : List Nat) (e : Entry) (t : Tree) : Traced Tree :=
  match rules.get? e.id with
  | some rule => ⟨rule t, [⟨path, e, t⟩]⟩
  | none => ⟨t, []⟩

/-- Two tables of rules give the same answers to calls. -/
def RuleTable.AgreesWith (rules rules' : RuleTable) (calls : List Call) : Prop :=
  ∀ call ∈ calls, rules'.apply call.entry.id call.argument = rules.apply call.entry.id call.argument

theorem RuleTable.agreesWith_append {rules rules' : RuleTable} {calls calls' : List Call} :
    rules.AgreesWith rules' (calls ++ calls') ↔
      rules.AgreesWith rules' calls ∧ rules.AgreesWith rules' calls' :=
  List.forall_mem_append

/-- Applies rules to forms and leaves all else as it is. -/
def Walker.recording (rules : RuleTable) : Walker Traced := ⟨rules.call, pure, fun _ => pure⟩

/-- A run of a pass, with the calls of its rules on record. -/
def Pass.traced (p : Pass) (t : Tree) : Except RunError (Traced Tree) :=
  match p.source.entryOf? t with
  | some e => .ok (p.source.visit (.recording p.rules) [] e t)
  | none => .error (.inputMismatch p.name t)

namespace Language

variable {l : Language} {rules : RuleTable}

/-! ## A walk on record is a transformation -/

theorem value_call (path : List Nat) (e : Entry) (t : Tree) :
    (rules.call path e t).value = rules.apply e.id t := by
  unfold RuleTable.call RuleTable.apply
  cases rules.get? e.id <;> rfl

theorem recording_follows (rules : RuleTable) : (Walker.recording rules).Follows .traced rules :=
  ⟨value_call, fun _ => rfl, fun _ _ => rfl⟩

theorem value_walkUnder (path : List Nat) (e : Entry) (t : Tree) :
    (l.walkUnder (.recording rules) path e t).value = l.ready rules e t :=
  (recording_follows rules).value_walkUnder path e t

theorem value_visit (path : List Nat) (e : Entry) (t : Tree) :
    (l.visit (.recording rules) path e t).value = l.transformForm rules e t :=
  (recording_follows rules).value_visit path e t

/-! ## Which calls are made -/

/-- The calls for the forms inside a form come before the call for the form itself. -/
theorem calls_visit (path : List Nat) (e : Entry) (t : Tree) :
    (l.visit (.recording rules) path e t).calls =
      (l.walkUnder (.recording rules) path e t).calls ++
        (rules.call path e (l.ready rules e t)).calls := by
  rw [visit_eq, Traced.calls_bind, value_walkUnder]
  rfl

theorem walkUnder_cases (l : Language) (path : List Nat) (e : Entry) (t : Tree) :
    (∀ rules, l.walkUnder (.recording rules) path e t = pure t) ∨
      e.verbatim = false ∧ ∃ body q, e.clause = .list body q := by
  by_cases hv : e.verbatim = true
  · exact .inl fun _ => if_pos hv
  · cases hc : e.clause with
    | list body q => exact .inr ⟨by simpa using hv, body, q, rfl⟩
    | _ =>
      left
      intro rules
      rw [walkUnder, if_neg hv, hc]
      cases t <;> rfl

/-- A call for a form with a rule, at one of some places from a path on. -/
def IsCall (l : Language) (rules : RuleTable) (places : List Nat → Tree → Prop) (path : List Nat)
    (call : Call) : Prop :=
  ∃ sub x, places sub x ∧ l.entryOf? x = some call.entry ∧
    rules.contains call.entry.id = true ∧ call.path = path ++ sub ∧
    call.argument = l.ready rules call.entry x

theorem mem_calls_call_iff {path : List Nat} {e : Entry} {t : Tree} {call : Call} :
    call ∈ (rules.call path e t).calls ↔
      rules.contains e.id = true ∧ call.path = path ∧ call.entry = e ∧ call.argument = t := by
  unfold RuleTable.call RuleTable.contains
  obtain ⟨path', e', t'⟩ := call
  cases rules.get? e.id <;> simp

theorem mem_calls_walkAll_iff {items : List Tree} {path : List Nat} {i : Nat}
    {word : List Clause} {call : Call} :
    call ∈ (l.walkAll (.recording rules) items path i word).calls ↔
      ∃ k t c, items[k]? = some t ∧ word[k]? = some c ∧
        call ∈ (l.walk (.recording rules) t (path ++ [i + k]) c).calls :=
  Account.traced.mem_log_walkAll_iff

/-- The calls in a form, given those in it where an entry for lists takes it. -/
theorem mem_calls_visit_iff {t : Tree} {path : List Nat}
    (hlist : ∀ body q call, call ∈ (l.walk (.recording rules) t path (.list body q)).calls ↔
      l.IsCall rules (l.FormIn (.list body q) t) path call)
    {e : Entry} (he : l.entryOf? t = some e) (call : Call) :
    call ∈ (l.visit (.recording rules) path e t).calls ↔
      l.IsCall rules (l.FormAt t) path call := by
  rw [calls_visit, List.mem_append, mem_calls_call_iff]
  constructor
  · rintro (hinside | ⟨hrule, hpath, hentry, hargument⟩)
    · rcases l.walkUnder_cases path e t with hpure | ⟨hv, body, q, hc⟩
      · rw [hpure] at hinside
        cases hinside
      · rw [walkUnder_of_list hv hc, hlist] at hinside
        obtain ⟨sub, x, hx, hcall⟩ := hinside
        exact ⟨sub, x, .inside he hv hc hx, hcall⟩
    · subst hentry
      exact ⟨[], t, .here t, he, hrule, by rw [hpath, List.append_nil], hargument⟩
  · rintro ⟨sub, x, hx, hx', hrule, hpath, hargument⟩
    cases hx with
    | here =>
      cases he.symm.trans hx'
      exact .inr ⟨hrule, by rw [hpath, List.append_nil], rfl, hargument⟩
    | inside he' hv hc hx =>
      cases he.symm.trans he'
      rw [walkUnder_of_list hv hc, hlist]
      exact .inl ⟨sub, x, hx, hx', hrule, hpath, hargument⟩

theorem mem_calls_walk_iff_of_list {t : Tree} {path : List Nat}
    (hlist : ∀ body q call, call ∈ (l.walk (.recording rules) t path (.list body q)).calls ↔
      l.IsCall rules (l.FormIn (.list body q) t) path call) (c : Clause) (call : Call) :
    call ∈ (l.walk (.recording rules) t path c).calls ↔
      l.IsCall rules (l.FormIn c t) path call := by
  have hnone : ∀ {c : Clause}, (l.walk (.recording rules) t path c).calls = [] →
      (∀ sub x, l.FormIn c t sub x → l.entryOf? x = none) →
      (call ∈ (l.walk (.recording rules) t path c).calls ↔
        l.IsCall rules (l.FormIn c t) path call) := by
    intro c hcalls hforms
    rw [hcalls]
    refine ⟨fun h => (List.not_mem_nil h).elim, ?_⟩
    rintro ⟨sub, x, hx, hentry, -⟩
    cases (hforms sub x hx).symm.trans hentry
  cases c with
  | list body q => exact hlist body q call
  | group body q => exact hnone (by cases t <;> rfl) fun _ _ hx => by cases hx
  | literal name q => exact hnone (by cases t <;> rfl) fun _ _ hx => by cases hx
  | terminal name q =>
    by_cases hname : l.terminal? name = some .expression
    · cases he : l.entryOf? t with
      | none =>
        refine hnone (congrArg Traced.calls (walk_stray hname q he path)) ?_
        rintro sub x (⟨-, hx⟩ | _)
        cases hx with
        | here => exact he
        | inside he' => cases he.symm.trans he'
      | some e =>
        rw [walk_expression hname q he, mem_calls_visit_iff hlist he]
        constructor
        · rintro ⟨sub, x, hx, hcall⟩
          exact ⟨sub, x, .form hname hx, hcall⟩
        · rintro ⟨sub, x, ⟨-, hx⟩ | _, hcall⟩
          exact ⟨sub, x, hx, hcall⟩
    · refine hnone (congrArg Traced.calls (walk_name hname q t path)) ?_
      rintro sub x (⟨hname', -⟩ | _)
      exact absurd hname' hname

/-- A rule is called exactly for the forms in a tree that have one, and is given the form with the
forms in it done. -/
theorem mem_calls_walk_iff (t : Tree) (path : List Nat) (c : Clause) (call : Call) :
    call ∈ (l.walk (.recording rules) t path c).calls ↔
      l.IsCall rules (l.FormIn c t) path call := by
  induction t generalizing path c call with
  | atom a =>
    refine mem_calls_walk_iff_of_list (fun body q call => ?_) c call
    refine ⟨fun h => (List.not_mem_nil h).elim, ?_⟩
    rintro ⟨sub, x, hx, -⟩
    cases hx
  | list items ih =>
    refine mem_calls_walk_iff_of_list (fun body q call => ?_) c call
    cases hword : l.captures (.list body q) items with
    | none =>
      rw [walk_not_captured hword]
      refine ⟨fun h => (List.not_mem_nil h).elim, ?_⟩
      rintro ⟨sub, x, hx, -⟩
      cases hx with
      | item hword' => cases hword.symm.trans hword'
    | some word =>
      rw [walk_captured hword, Traced.calls_map, mem_calls_walkAll_iff]
      constructor
      · rintro ⟨k, t, d, ht, hd, hcall⟩
        obtain ⟨sub, x, hx, hentry, hrule, hpath, hargument⟩ :=
          (ih t (List.mem_of_getElem? ht) _ d call).mp hcall
        exact ⟨k :: sub, x, .item hword hd ht hx, hentry, hrule, by simpa using hpath, hargument⟩
      · rintro ⟨sub, x, hx, hentry, hrule, hpath, hargument⟩
        cases hx with
        | @item _ word' _ _ d u _ k path' hword' hd hu hx =>
          cases hword.symm.trans hword'
          refine ⟨k, u, d, hu, hd, (ih u (List.mem_of_getElem? hu) _ d call).mpr ?_⟩
          exact ⟨path', x, hx, hentry, hrule, by simpa using hpath, hargument⟩

/-! ## In which order calls are made -/

theorem ne_nil_of_formIn_list {body : List Clause} {q : Quantifier} {t x : Tree}
    {path : List Nat} (h : l.FormIn (.list body q) t path x) : path ≠ [] := by
  cases h
  exact List.cons_ne_nil _ _

theorem innerFirst_visit {t : Tree} {path : List Nat}
    (hlist : ∀ body q, Call.InnerFirst (l.walk (.recording rules) t path (.list body q)).calls)
    (e : Entry) :
    Call.InnerFirst (l.visit (.recording rules) path e t).calls := by
  have hown : Call.InnerFirst (rules.call path e (l.ready rules e t)).calls := by
    unfold RuleTable.call
    cases rules.get? e.id with
    | none => exact .nil
    | some rule => exact List.pairwise_singleton _ _
  rw [calls_visit]
  rcases l.walkUnder_cases path e t with hpure | ⟨hv, body, q, hc⟩
  · rwa [hpure]
  · rw [walkUnder_of_list hv hc]
    refine List.pairwise_append.mpr ⟨hlist body q, hown, fun a ha b hb hprefix => ?_⟩
    -- A form inside has a longer path than the form itself.
    obtain ⟨sub, x, hx, -, -, hpath, -⟩ := (mem_calls_walk_iff t path _ a).mp ha
    rw [hpath, (mem_calls_call_iff.mp hb).2.1] at hprefix
    have hlength := hprefix.length_le
    rw [List.length_append] at hlength
    exact ne_nil_of_formIn_list hx (List.length_eq_zero_iff.mp (by omega))

theorem innerFirst_walkAll {items : List Tree}
    (h : ∀ t ∈ items, ∀ path c, Call.InnerFirst (l.walk (.recording rules) t path c).calls)
    (path : List Nat) (i : Nat) (word : List Clause) :
    Call.InnerFirst (l.walkAll (.recording rules) items path i word).calls := by
  induction items generalizing i word with
  | nil =>
    rw [walkAll]
    · exact .nil
    · simp
  | cons t ts ih =>
    cases word with
    | nil =>
      rw [walkAll]
      · exact .nil
      · simp
    | cons c cs =>
      rw [walkAll, Traced.calls_bind, Traced.calls_bind, Traced.calls_pure, List.append_nil]
      refine List.pairwise_append.mpr
        ⟨h t (by simp) _ c, ih (fun u hu => h u (by simp [hu])) (i + 1) cs, ?_⟩
      intro a ha b hb hprefix
      -- The two paths part at the number of the item.
      obtain ⟨k, u, d, -, -, hb'⟩ := mem_calls_walkAll_iff.mp hb
      obtain ⟨sub, x, -, -, -, ha', -⟩ := (mem_calls_walk_iff t _ c a).mp ha
      obtain ⟨sub', y, -, -, -, hb'', -⟩ := (mem_calls_walk_iff u _ d b).mp hb'
      rw [ha', hb'', List.append_assoc, List.append_assoc, List.prefix_append_right_inj,
        List.singleton_append, List.singleton_append, List.cons_prefix_cons] at hprefix
      omega

theorem innerFirst_walk_of_list {t : Tree} {path : List Nat}
    (hlist : ∀ body q, Call.InnerFirst (l.walk (.recording rules) t path (.list body q)).calls)
    (c : Clause) : Call.InnerFirst (l.walk (.recording rules) t path c).calls := by
  cases c with
  | list body q => exact hlist body q
  | group body q => cases t <;> exact .nil
  | literal name q => cases t <;> exact .nil
  | terminal name q =>
    by_cases hname : l.terminal? name = some .expression
    · cases he : l.entryOf? t with
      | none =>
        rw [walk_stray hname q he]
        exact .nil
      | some e =>
        rw [walk_expression hname q he]
        exact innerFirst_visit hlist e
    · rw [walk_name hname]
      exact .nil

/-- On a walk through a tree inner forms have their turn first. -/
theorem innerFirst_walk (t : Tree) (path : List Nat) (c : Clause) :
    Call.InnerFirst (l.walk (.recording rules) t path c).calls := by
  induction t generalizing path c with
  | atom a =>
    refine innerFirst_walk_of_list (fun body q => ?_) c
    exact .nil
  | list items ih =>
    refine innerFirst_walk_of_list (fun body q => ?_) c
    cases hword : l.captures (.list body q) items with
    | none =>
      rw [walk_not_captured hword]
      exact .nil
    | some word =>
      rw [walk_captured hword]
      exact innerFirst_walkAll ih path 0 word

/-! ## What a run depends on -/

/-- A table of rules that agrees with another on the calls of a walk makes the walk the same. -/
def Determined (l : Language) (rules rules' : RuleTable) (t : Tree) (path : List Nat) (c : Clause) :
    Prop :=
  rules.AgreesWith rules' (l.walk (.recording rules) t path c).calls →
    l.walk (.recording rules') t path c = l.walk (.recording rules) t path c

theorem walkAll_congr {rules' : RuleTable} {items : List Tree}
    (hitems : ∀ t ∈ items, ∀ path c, l.Determined rules rules' t path c)
    {path : List Nat} {i : Nat} {word : List Clause}
    (h : rules.AgreesWith rules' (l.walkAll (.recording rules) items path i word).calls) :
    l.walkAll (.recording rules') items path i word =
      l.walkAll (.recording rules) items path i word := by
  induction items generalizing i word with
  | nil => simp [walkAll]
  | cons t ts ih =>
    cases word with
    | nil => simp [walkAll]
    | cons c cs =>
      rw [walkAll, Traced.calls_bind, Traced.calls_bind, RuleTable.agreesWith_append,
        RuleTable.agreesWith_append] at h
      obtain ⟨hfirst, hrest, -⟩ := h
      rw [walkAll, walkAll, hitems t (by simp) _ c hfirst,
        ih (fun u hu => hitems u (by simp [hu])) hrest]

section

variable {rules' : RuleTable} (hsame : ∀ id, rules'.contains id = rules.contains id)

include hsame

theorem call_congr {path : List Nat} {e : Entry} {t : Tree}
    (h : rules.AgreesWith rules' (rules.call path e t).calls) :
    rules'.call path e t = rules.call path e t := by
  have hid : rules'.contains e.id = rules.contains e.id := hsame e.id
  unfold RuleTable.contains at hid
  unfold RuleTable.AgreesWith RuleTable.apply at h
  unfold RuleTable.call at h ⊢
  cases hrule : rules.get? e.id with
  | none =>
    rw [hrule, Option.isSome_none, Option.isSome_eq_false_iff, Option.isNone_iff_eq_none] at hid
    rw [hid]
  | some rule =>
    rw [hrule, Option.isSome_some, Option.isSome_iff_exists] at hid
    obtain ⟨rule', hrule'⟩ := hid
    simp only [hrule, hrule', List.mem_singleton, forall_eq] at h
    simp only [hrule', h]

theorem visit_congr {t : Tree} {path : List Nat}
    (hlist : ∀ body q, l.Determined rules rules' t path (.list body q)) {e : Entry}
    (h : rules.AgreesWith rules' (l.visit (.recording rules) path e t).calls) :
    l.visit (.recording rules') path e t = l.visit (.recording rules) path e t := by
  rw [calls_visit, RuleTable.agreesWith_append] at h
  obtain ⟨hunder, hcall⟩ := h
  have hunder' : l.walkUnder (.recording rules') path e t =
      l.walkUnder (.recording rules) path e t := by
    rcases l.walkUnder_cases path e t with hpure | ⟨hv, body, q, hc⟩
    · rw [hpure, hpure]
    · rw [walkUnder_of_list hv hc] at hunder
      rw [walkUnder_of_list hv hc, walkUnder_of_list hv hc, hlist body q hunder]
  rw [visit_eq, visit_eq, hunder']
  apply Traced.bind_congr
  rw [value_walkUnder]
  exact call_congr hsame hcall

theorem determined_of_list {t : Tree} {path : List Nat}
    (hlist : ∀ body q, l.Determined rules rules' t path (.list body q)) (c : Clause) :
    l.Determined rules rules' t path c := by
  intro h
  cases c with
  | list body q => exact hlist body q h
  | group body q => cases t <;> rfl
  | literal name q => cases t <;> rfl
  | terminal name q =>
    by_cases hname : l.terminal? name = some .expression
    · cases he : l.entryOf? t with
      | none =>
        rw [walk_stray hname q he, walk_stray hname q he]
        rfl
      | some e =>
        rw [walk_expression hname q he] at h
        rw [walk_expression hname q he, walk_expression hname q he]
        exact visit_congr hsame hlist h
    · rw [walk_name hname, walk_name hname]

/-- What comes of a walk depends on the rules by their answers to the calls alone. -/
theorem determined (t : Tree) (path : List Nat) (c : Clause) :
    l.Determined rules rules' t path c := by
  induction t generalizing path c with
  | atom a => exact determined_of_list hsame (fun _ _ _ => rfl) c
  | list items ih =>
    refine determined_of_list hsame (fun body q hagree => ?_) c
    cases hword : l.captures (.list body q) items with
    | none =>
      rw [walk_not_captured hword, walk_not_captured hword]
      rfl
    | some word =>
      rw [walk_captured hword] at hagree
      rw [walk_captured hword, walk_captured hword, walkAll_congr ih hagree]

end

/-! ## What a rule is given -/

/-- Leaves what it takes as it is, by itself: a literal, or a terminal other than any form. -/
def Keeps (l : Language) : Clause → Prop
  | .literal _ _ => True
  | .terminal name _ => l.terminal? name ≠ some .expression
  | _ => False

theorem transform_of_keeps {c : Clause} (hc : l.Keeps c) (t : Tree) :
    l.transform rules t c = t := by
  cases c with
  | literal name q => cases t <;> rfl
  | terminal name q =>
    have hname : l.terminal? name ≠ some .expression := hc
    cases t <;> simp [transform, convertTaken, hname]
  | list body q => exact hc.elim
  | group body q => exact hc.elim

end Language

namespace Pass

theorem run_of_entryOf? {p : Pass} {t : Tree} {e : Entry} (he : p.source.entryOf? t = some e) :
    p.run t = .ok (p.source.transformForm p.rules e t) := by
  rw [run, he]

/-- What a rule is given for a form of an entry is true to the form. -/
structure Faithful (p : Pass) (e : Entry) (x argument : Tree) : Prop where
  /-- It is the form itself if the entry is verbatim or is not for lists. -/
  whole : e.verbatim = true ∨ e.clause.isList = false → argument = x
  /-- It has as many items as the form. What a literal takes is there, and what a terminal takes: if
  any form may stand there, as the pass makes it, and else as it was. -/
  items : ∀ items body q, x = .list items → e.clause = .list body q →
    ∃ word args, p.source.captures (.list body q) items = some word ∧ argument = .list args ∧
      word.length = items.length ∧ args.length = items.length ∧
      ∀ (i : Nat) u c, items[i]? = some u → word[i]? = some c →
        (p.source.Keeps c → args[i]? = some u) ∧
        (∀ name r, c = .terminal name r → p.source.terminal? name = some .expression →
          e.verbatim = false → ∃ v, p.run u = .ok v ∧ args[i]? = some v)

theorem faithful_ready {p : Pass} {x : Tree} {e : Entry} (he : p.source.entryOf? x = some e) :
    p.Faithful e x (p.source.ready p.rules e x) := by
  refine ⟨?_, ?_⟩
  · rintro (hv | hc)
    · exact Language.ready_of_verbatim hv x
    · exact Language.ready_of_not_isList hc x
  · rintro items body q rfl hc
    have hfits : p.source.fits (.list body q) (.list items) = true :=
      hc ▸ (Language.entryOf?_spec he).2
    obtain ⟨word, hword⟩ := Clause.fits_list_iff.mp hfits
    have hlength : word.length = items.length := Language.length_of_captures hword
    cases hv : e.verbatim with
    | true =>
      exact ⟨word, items, hword, Language.ready_of_verbatim hv _, hlength, rfl,
        fun i u c hu _ => ⟨fun _ => hu, by simp⟩⟩
    | false =>
      refine ⟨word, p.source.transformAll p.rules items word, hword, ?_, hlength,
        Language.length_transformAll hword, fun i u c hu hd => ⟨fun hkeeps => ?_, ?_⟩⟩
      · rw [Language.ready_of_list hv hc, Language.transform_captured hword]
      · rw [Language.getElem?_transformAll hu hd, Language.transform_of_keeps hkeeps]
      · rintro name r rfl hname -
        obtain ⟨d, hd'⟩ := Language.exists_entryOf?_of_fits hname
          (Language.fits_of_captures hword hd hu)
        refine ⟨_, run_of_entryOf? hd', ?_⟩
        rw [Language.getElem?_transformAll hu hd, Language.transform_expression hname r hd']

theorem traced_of_entryOf? {p : Pass} {t : Tree} {e : Entry} (he : p.source.entryOf? t = some e) :
    p.traced t = .ok (p.source.visit (.recording p.rules) [] e t) := by
  rw [traced, he]

theorem value_traced {p : Pass} {t : Tree} {e : Entry} (he : p.source.entryOf? t = some e)
    {run : Traced Tree} (h : p.traced t = .ok run) : p.run t = .ok run.value := by
  cases (traced_of_entryOf? he).symm.trans h
  rw [run_of_entryOf? he, Language.value_visit]

theorem mem_calls_traced_iff {p : Pass} {t : Tree} {e : Entry} (he : p.source.entryOf? t = some e)
    {run : Traced Tree} (h : p.traced t = .ok run) (call : Call) :
    call ∈ run.calls ↔ p.source.IsCall p.rules (p.source.FormAt t) [] call := by
  cases (traced_of_entryOf? he).symm.trans h
  exact Language.mem_calls_visit_iff
    (fun body q => Language.mem_calls_walk_iff t [] (.list body q)) he call

theorem innerFirst_traced {p : Pass} {t : Tree} {e : Entry} (he : p.source.entryOf? t = some e)
    {run : Traced Tree} (h : p.traced t = .ok run) : Call.InnerFirst run.calls := by
  cases (traced_of_entryOf? he).symm.trans h
  exact Language.innerFirst_visit
    (fun body q => Language.innerFirst_walk t [] (.list body q)) e

theorem traced_congr {p : Pass} {t : Tree} {e : Entry} (he : p.source.entryOf? t = some e)
    {run : Traced Tree} (h : p.traced t = .ok run) {rules : RuleTable}
    (hsame : ∀ id, rules.contains id = p.rules.contains id)
    (hagree : p.rules.AgreesWith rules run.calls) : ({ p with rules }).traced t = .ok run := by
  cases (traced_of_entryOf? he).symm.trans h
  rw [traced_of_entryOf? (p := { p with rules }) he]
  exact congrArg _ (Language.visit_congr hsame
    (fun body q => Language.determined hsame t [] (.list body q)) hagree)

theorem calls_traced_iff {p : Pass} {t : Tree} {e : Entry} (he : p.source.entryOf? t = some e)
    {run : Traced Tree} (h : p.traced t = .ok run) (path : List Nat) (d : Entry) :
    run.Calls path d ↔ ∃ x, p.source.FormAt t path x ∧ p.source.entryOf? x = some d ∧
      p.rules.contains d.id = true := by
  constructor
  · rintro ⟨call, hcall, rfl, rfl⟩
    obtain ⟨sub, x, hx, hentry, hrule, hpath, -⟩ := (mem_calls_traced_iff he h call).mp hcall
    rw [List.nil_append] at hpath
    exact ⟨x, hpath ▸ hx, hentry, hrule⟩
  · rintro ⟨x, hx, hentry, hrule⟩
    exact ⟨⟨path, d, p.source.ready p.rules d x⟩,
      (mem_calls_traced_iff he h _).mpr ⟨path, x, hx, hentry, hrule, rfl, rfl⟩, rfl, rfl⟩

theorem quiet_of_calls_eq_nil {p : Pass} {t : Tree} {e : Entry}
    (he : p.source.entryOf? t = some e) {run : Traced Tree} (h : p.traced t = .ok run)
    (hnil : run.calls = []) : p.source.Quiet p.rules (p.source.FormAt t) := by
  intro path x d hx hd
  by_contra hrule
  have hcontains : p.rules.contains d.id = true := Option.isSome_iff_ne_none.mpr hrule
  obtain ⟨call, hcall, -⟩ := (calls_traced_iff he h path d).mpr ⟨x, hx, hd, hcontains⟩
  rw [hnil] at hcall
  cases hcall

/-! ## The laws -/

/-- In a run of a pass on a tree of its source language, the rules are called exactly for the forms
of the tree that have one by their first entry, once for each and after the calls for the forms
inside. Each rule is given what is true to the form. For which forms there is a call depends on the
ids that have a rule alone, and what comes of the run on the answers to these calls alone. -/
theorem rules_are_called_once_for_each_form_inner_forms_first (p : Pass) (t : Tree)
    (ht : p.source.accepts t = true) :
    ∃ run, p.traced t = .ok run ∧ p.run t = .ok run.value ∧
      (∀ path e, run.Calls path e ↔ ∃ x, p.source.FormAt t path x ∧
        p.source.entryOf? x = some e ∧ p.rules.contains e.id = true) ∧
      (run.calls.map Call.path).Nodup ∧ Call.InnerFirst run.calls ∧
      (∀ call ∈ run.calls, ∃ x, t.at? call.path = some x ∧
        p.Faithful call.entry x call.argument) ∧
      ∀ rules, (∀ id, rules.contains id = p.rules.contains id) →
        (∃ run', ({ p with rules }).traced t = .ok run' ∧
          ∀ path e, run'.Calls path e ↔ run.Calls path e) ∧
        (p.rules.AgreesWith rules run.calls → ({ p with rules }).run t = p.run t) := by
  obtain ⟨e, he⟩ := (p.source.accepts_iff_entryOf? t).mp ht
  obtain ⟨run, hrun⟩ : ∃ run, p.traced t = .ok run := ⟨_, traced_of_entryOf? he⟩
  refine ⟨run, hrun, value_traced he hrun, calls_traced_iff he hrun,
    Call.nodup_of_innerFirst (innerFirst_traced he hrun), innerFirst_traced he hrun, ?_, ?_⟩
  · intro call hcall
    obtain ⟨sub, x, hx, hentry, -, hpath, hargument⟩ := (mem_calls_traced_iff he hrun call).mp hcall
    refine ⟨x, ?_, ?_⟩
    · rw [hpath, List.nil_append, hx.at?]
    · rw [hargument]
      exact faithful_ready hentry
  · intro rules hsame
    refine ⟨⟨_, traced_of_entryOf? (p := { p with rules }) he, fun path d => ?_⟩, fun hagree => ?_⟩
    · rw [calls_traced_iff (p := { p with rules }) he (traced_of_entryOf? he),
        calls_traced_iff he hrun, hsame d.id]
    · rw [value_traced he hrun,
        value_traced (p := { p with rules }) he (traced_congr he hrun hsame hagree)]

/-- Names, quoted data, conditionals, functions and applications. -/
def conditionals : Language :=
  ⟨"conditionals",
    [⟨⟨0⟩, .terminal "s" .one, false⟩,
      ⟨⟨1⟩, .list [.literal "quote" .one, .terminal "d" .one] .one, true⟩,
      ⟨⟨2⟩, .list [.literal "if" .one, .terminal "ε" .one, .terminal "ε" .one] .one, false⟩,
      ⟨⟨3⟩, .list [.literal "fn" .one, .list [.terminal "s" .zeroOrMore] .one,
        .terminal "ε" .one] .one, false⟩,
      ⟨⟨4⟩, .list [.terminal "ε" .oneOrMore] .one, false⟩],
    [("s", .symbol), ("d", .datum)]⟩

/-- Turns each conditional around. The rule makes a conditional of a conditional. -/
def turning : Pass where
  name := "turning"
  source := conditionals
  target := conditionals
  rules := ⟨[(⟨2⟩, fun
    | .list [keyword, a, b] => .list [keyword, b, a]
    | t => t)]⟩

/-- A conditional of two trees. -/
def conditional (a b : Tree) : Tree := .list [.symbol "if", a, b]

/-- Two conditionals in a third, and one in quoted data. -/
def nested : Tree :=
  conditional (conditional (.symbol "a") (.symbol "b"))
    (.list [.symbol "f", conditional (.symbol "c")
      (.list [.symbol "quote", conditional (.symbol "d") (.symbol "e")])])

/-- Three conditionals are turned around, each of them once though it is a conditional then, and the
one in quoted data is not. The outermost one comes last. -/
theorem nested_conditionals_are_turned_once :
    turning.source.accepts nested = true ∧
    ∃ run, turning.traced nested = .ok run ∧ run.calls.map Call.path = [[1], [2, 1], []] ∧
      Call.InnerFirst run.calls ∧
      (∀ call ∈ run.calls, ∃ x, nested.at? call.path = some x ∧
        turning.Faithful call.entry x call.argument) ∧
      turning.run nested = .ok (conditional
        (.list [.symbol "f", conditional
          (.list [.symbol "quote", conditional (.symbol "d") (.symbol "e")]) (.symbol "c")])
        (conditional (.symbol "b") (.symbol "a"))) := by
  have haccepts : turning.source.accepts nested = true := by decide +kernel
  obtain ⟨run, htraced, hvalue, -, -, horder, hfaithful, -⟩ :=
    rules_are_called_once_for_each_form_inner_forms_first turning nested haccepts
  have hpaths : (turning.traced nested).toOption.map (fun x => x.calls.map Call.path) =
      some [[1], [2, 1], []] := by decide +kernel
  have hturned : (turning.run nested).toOption = some (conditional
      (.list [.symbol "f", conditional
        (.list [.symbol "quote", conditional (.symbol "d") (.symbol "e")]) (.symbol "c")])
      (conditional (.symbol "b") (.symbol "a"))) := by decide +kernel
  rw [htraced] at hpaths
  rw [hvalue] at hturned
  refine ⟨haccepts, run, htraced, Option.some.inj hpaths, horder, hfaithful, ?_⟩
  rw [hvalue, Option.some.inj hturned]

/-- A pass gives back a tree of its source language as it is if no form in it has a rule: no rule is
for the first entry that fits the tree or any form in it. So does a pass without rules. -/
theorem a_pass_changes_nothing_that_has_no_rule (p : Pass) (t : Tree)
    (ht : p.source.accepts t = true) :
    ((∀ path x e, p.source.FormAt t path x → p.source.entryOf? x = some e →
      p.rules.get? e.id = none) → p.run t = .ok t) ∧
    ((∀ id, p.rules.contains id = true → ∀ path x e, p.source.FormAt t path x →
      p.source.entryOf? x = some e → e.id ≠ id) → p.run t = .ok t) ∧
    ({ p with rules := .empty }).run t = .ok t := by
  obtain ⟨e, he⟩ := (p.source.accepts_iff_entryOf? t).mp ht
  have hself : ∀ rules, p.source.Quiet rules (p.source.FormAt t) →
      ({ p with rules }).run t = .ok t := by
    intro rules hquiet
    rw [run_of_entryOf? (p := { p with rules }) he]
    exact congrArg _ (Language.transformForm_eq_self he
      (fun body q => Language.transform_eq_self) hquiet)
  refine ⟨hself p.rules, ?_, hself .empty fun _ _ _ _ _ => rfl⟩
  intro hother
  refine hself p.rules fun path x e hx he => ?_
  cases hrule : p.rules.get? e.id with
  | none => rfl
  | some rule => exact absurd rfl (hother e.id (by simp [RuleTable.contains, hrule]) path x e hx he)

/-- A function whose parameter list looks like a conditional, and so does quoted data in it. -/
def lookalikes : Tree :=
  .list [.symbol "fn", conditional (.symbol "x") (.symbol "y"),
    .list [.symbol "f", .list [.symbol "quote", conditional (.symbol "a") (.symbol "b")]]]

theorem parameters_and_quoted_data_are_not_turned :
    turning.source.accepts lookalikes = true ∧
      turning.source.Quiet turning.rules (turning.source.FormAt lookalikes) ∧
      turning.run lookalikes = .ok lookalikes := by
  have haccepts : turning.source.accepts lookalikes = true := by decide +kernel
  obtain ⟨e, he⟩ := (turning.source.accepts_iff_entryOf? lookalikes).mp haccepts
  have hcalls : (turning.traced lookalikes).toOption.map Traced.calls = some [] := by
    decide +kernel
  rw [traced_of_entryOf? he] at hcalls
  have hquiet : turning.source.Quiet turning.rules (turning.source.FormAt lookalikes) :=
    quiet_of_calls_eq_nil he (traced_of_entryOf? he) (Option.some.inj hcalls)
  obtain ⟨hself, -⟩ := a_pass_changes_nothing_that_has_no_rule turning lookalikes haccepts
  exact ⟨haccepts, hquiet, hself hquiet⟩

end Pass

end TreePasses
