import MacroLang.Proofs.Registry.Operations

/-!
# What holds of every session

Commands can come in any order and for any registries, and each may be refused. Two things hold all the same, because
every step keeps them. A session is consistent (`Session.Consistent`): each registry finds each of its macros under the
macro's own key, in a scope that it has, and a published scope belongs to a frozen registry that has the scope. And what
is published stays (`Session.Later`): the same registry has the scope from then on, and the macros of a frozen registry
do not change. So other units see the same macros of a published scope for ever.

Main statement: `published_scopes_stay`.
-/

namespace MacroLang

variable {β : Type}

namespace Registry

variable {g g' : Registry β} {scope : String}

theorem owns_withTable (g : Registry β) (scope other : String) :
    (g.withTable scope).owns other = (g.owns other || other == scope) := by
  cases howns : g.owns scope with
  | true =>
    rw [withTable_of_owns howns]
    by_cases ho : other = scope
    · simp [ho, howns]
    · simp [ho]
  | false =>
    rw [owns, table?_withTable g howns, owns]
    by_cases ho : other = scope
    · simp [ho]
    · simp [ho]

theorem owns_addMacro (g : Registry β) (m : Macro β) (other : String) :
    (g.addMacro m).owns other = (g.owns other || other == m.scope) :=
  owns_withTable { g with macros := g.macros ++ [m] } m.scope other

/-- The macros of a registry are kept in order: each is found under its own key, in a scope of the registry, and none
has the name of a special form. -/
structure WellKept (g : Registry β) : Prop where
  inSession : g.inSession = true
  found : ∀ m ∈ g.macros, g.macro? m.scope m.name m.arity = some m
  owned : ∀ m ∈ g.macros, g.owns m.scope = true
  ordinary : ∀ m ∈ g.macros, isSpecialForm m.name = false

theorem wellKept_new (unit : String) : ({ unit } : Registry β).WellKept :=
  ⟨rfl, nofun, nofun, nofun⟩

theorem WellKept.macro?_of_not_owns (h : g.WellKept) (hscope : g.owns scope = false) (name : String) (arity : Nat) :
    g.macro? scope name arity = none := by
  cases hm : g.macro? scope name arity with
  | none => rfl
  | some m =>
    obtain ⟨hmem, rfl, -⟩ := key_of_macro? hm
    rw [h.owned m hmem] at hscope
    cases hscope

theorem WellKept.addMacro (h : g.WellKept) {m : Macro β} (hordinary : isSpecialForm m.name = false)
    (hnew : g.macro? m.scope m.name m.arity = none) : (g.addMacro m).WellKept where
  inSession := (redeclares_withTable { g with macros := g.macros ++ [m] } m.scope).inSession.trans h.inSession
  found k hk := by
    rw [macro?, macros_addMacro, List.find?_append]
    rw [macros_addMacro, List.mem_append] at hk
    rcases hk with hold | hlast
    · have hfound : g.macros.find? (·.hasKey k.scope k.name k.arity) = some k := h.found k hold
      rw [hfound, Option.some_or]
    · cases List.mem_singleton.1 hlast
      have hnone : g.macros.find? (·.hasKey m.scope m.name m.arity) = none := hnew
      rw [hnone, Option.none_or]
      simp [Macro.hasKey]
  owned k hk := by
    rw [owns_addMacro]
    rw [macros_addMacro, List.mem_append] at hk
    rcases hk with hold | hlast
    · simp [h.owned k hold]
    · simp [List.mem_singleton.1 hlast]
  ordinary k hk := by
    rw [macros_addMacro, List.mem_append] at hk
    rcases hk with hold | hlast
    · exact h.ordinary k hold
    · exact List.mem_singleton.1 hlast ▸ hordinary

/-- The macros stay where they are, and no scope is lost. -/
theorem WellKept.of_macros (h : g.WellKept) (hin : g'.inSession = g.inSession) (hmacros : g'.macros = g.macros)
    (howns : ∀ scope, g.owns scope = true → g'.owns scope = true) : g'.WellKept where
  inSession := hin.trans h.inSession
  found m hm := by
    rw [hmacros] at hm
    rw [macro?, hmacros]
    exact h.found m hm
  owned m hm := howns _ (h.owned m (hmacros ▸ hm))
  ordinary m hm := h.ordinary m (hmacros ▸ hm)

/-- The registry `g'` is `g` at a later time: no scope is lost, and once frozen it stays so and keeps its macros. -/
structure Later (g g' : Registry β) : Prop where
  owns : ∀ scope, g.owns scope = true → g'.owns scope = true
  frozen : g.frozen = true → g'.frozen = true
  macros : g.frozen = true → g'.macros = g.macros

theorem Later.refl (g : Registry β) : g.Later g :=
  ⟨fun _ h => h, fun h => h, fun _ => rfl⟩

theorem Later.trans {g'' : Registry β} (h : g.Later g') (h' : g'.Later g'') : g.Later g'' :=
  ⟨fun scope hs => h'.owns scope (h.owns scope hs), fun hf => h'.frozen (h.frozen hf),
    fun hf => (h'.macros (h.frozen hf)).trans (h.macros hf)⟩

theorem owns_updateTable (g : Registry β) {f : Declarations → Declarations}
    (hf : ∀ d, d.scope = scope → (f d).scope = scope) (other : String) :
    (g.updateTable scope f).owns other = g.owns other := by
  rw [Bool.eq_iff_iff, owns_iff, owns_iff, scopes_updateTable g hf]

variable {writable : String → Prop}

theorem Step.later (h : g.Step writable g') (hwritable : ∀ scope, writable scope → g.frozen = false) :
    g.Later g' := by
  cases h with
  | @openScope scope hscope howns =>
    refine ⟨fun other ho => ?_, fun hf => ?_, fun _ => macros_withTable g scope⟩
    · rw [owns_withTable, ho, Bool.true_or]
    · rw [(redeclares_withTable g scope).frozen, hf]
  | @register m hscope hordinary hnew =>
    have hopen := hwritable _ hscope
    refine ⟨fun other ho => ?_, fun hf => ?_, fun hf => ?_⟩
    · rw [owns_addMacro, ho, Bool.true_or]
    · rw [hopen] at hf; cases hf
    · rw [hopen] at hf; cases hf
  | redeclare hf => exact ⟨fun other ho => (owns_updateTable g hf other).trans ho, fun h => h, fun _ => rfl⟩
  | hide scope => exact ⟨fun _ ho => ho, fun h => h, fun _ => rfl⟩
  | freeze => exact ⟨fun _ ho => ho, fun _ => rfl, fun _ => rfl⟩

theorem Step.wellKept (h : g.Step writable g') (hg : g.WellKept) : g'.WellKept := by
  cases h with
  | @openScope scope hscope howns =>
    refine hg.of_macros (redeclares_withTable g scope).inSession (macros_withTable g scope) fun other ho => ?_
    rw [owns_withTable, ho, Bool.true_or]
  | register hscope hordinary hnew => exact hg.addMacro hordinary hnew
  | redeclare hf => exact hg.of_macros rfl rfl fun other ho => (owns_updateTable g hf other).trans ho
  | hide scope => exact hg.of_macros rfl rfl fun _ ho => ho
  | freeze => exact hg.of_macros rfl rfl fun _ ho => ho

end Registry

namespace Session

variable {s s' : Session β} {r : Nat} {scope : String}

theorem registry_addRegistry (s : Session β) (g : Registry β) (q : Nat) :
    (s.addRegistry g).registry q = if q = s.registries.length then g else s.registry q := by
  unfold registry addRegistry
  rcases Nat.lt_trichotomy q s.registries.length with hq | hq | hq
  · rw [List.getElem?_append_left hq, if_neg (Nat.ne_of_lt hq)]
  · simp [hq]
  · have hnone : (s.registries ++ [g])[q]? = none := List.getElem?_eq_none (by simp; omega)
    simp [hnone, Nat.ne_of_gt hq, Nat.le_of_lt hq]

/-- A scope keeps its publisher, or else is published now. -/
theorem lookup_foldl_addPublished (r : Nat) (names : List String) (published : List (String × Nat)) (scope : String) :
    (names.foldl (addPublished r) published).lookup scope =
      (published.lookup scope).or (if scope ∈ names then some r else none) := by
  induction names generalizing published with
  | nil => simp
  | cons n names ih =>
    have hadd : (addPublished r published n).lookup scope =
        (published.lookup scope).or (if scope = n then some r else none) := by
      unfold addPublished
      split
      · rename_i hsome
        by_cases hn : scope = n
        · obtain ⟨q, hq⟩ := Option.isSome_iff_exists.1 hsome
          rw [hn, hq, Option.some_or]
        · simp [hn]
      · rw [List.lookup_append, List.lookup_cons, List.lookup_nil]
        by_cases hn : scope = n
        · simp [hn]
        · simp [hn, beq_false_of_ne hn]
    rw [List.foldl_cons, ih, hadd]
    by_cases hn : scope = n
    · simp [hn]
    · simp [hn]

/-! ## Consistency -/

/-- Every registry is well kept, and a published scope is one of the frozen registry that published it. -/
structure Consistent (s : Session β) : Prop where
  registries : ∀ r, (s.registry r).WellKept
  published : ∀ scope r, s.publisher? scope = some r →
    (s.registry r).frozen = true ∧ (s.registry r).owns scope = true

theorem consistent_empty : ({} : Session β).Consistent where
  registries r := by
    rw [registry_of_le _ (Nat.zero_le r)]
    exact Registry.wellKept_new ""
  published _ _ h := nomatch h

/-- The session `s'` is `s` at a later time: no scope has changed hands, and no registry has gone back. -/
structure Later (s s' : Session β) : Prop where
  publishers : ∀ scope r, s.publisher? scope = some r → s'.publisher? scope = some r
  registries : ∀ r, (s.registry r).Later (s'.registry r)

theorem Later.refl (s : Session β) : s.Later s :=
  ⟨fun _ _ h => h, fun r => .refl (s.registry r)⟩

theorem Later.trans {s'' : Session β} (h : s.Later s') (h' : s'.Later s'') : s.Later s'' :=
  ⟨fun scope r hr => h'.publishers scope r (h.publishers scope r hr),
    fun r => (h.registries r).trans (h'.registries r)⟩

/-- Of the registries, a step of one changes that one. -/
theorem registry_update (s : Session β) {f : Registry β → Registry β} (hr : r < s.registries.length) (q : Nat) :
    (s.update r f).registry q = if q = r then f (s.registry r) else s.registry q := by
  by_cases hq : q = r
  · rw [if_pos hq, hq, registry_update_self s r f hr]
  · rw [if_neg hq, registry_update_of_ne s f (Ne.symm hq)]

theorem Step.later (h : s.Step s') : s.Later s' := by
  cases h with
  | newRegistry unit =>
    refine ⟨fun _ _ hq => hq, fun q => ?_⟩
    rw [registry_addRegistry]
    split
    · rename_i hq
      rw [registry_of_le s (Nat.le_of_eq hq.symm)]
      exact ⟨nofun, nofun, nofun⟩
    · exact .refl _
  | change hr hstep =>
    refine ⟨fun _ _ hq => hq, fun q => ?_⟩
    rw [registry_update s hr]
    split
    · rename_i hq
      rw [hq]
      exact hstep.later fun _ hwritable => hwritable.unfrozen
    · exact .refl _
  | publish hfrozen hconflict =>
    refine ⟨fun scope q hq => ?_, fun q => .refl _⟩
    change s.published.lookup scope = some q at hq
    rw [publisher?, lookup_foldl_addPublished, hq, Option.some_or]

theorem Step.consistent (h : s.Step s') (hs : s.Consistent) : s'.Consistent := by
  have hlater := h.later
  -- what was published before is still with the same registry, which is frozen and has the scope
  have hold : ∀ scope r, s.publisher? scope = some r →
      (s'.registry r).frozen = true ∧ (s'.registry r).owns scope = true := fun scope r hr =>
    ⟨(hlater.registries r).frozen (hs.published scope r hr).1,
      (hlater.registries r).owns scope (hs.published scope r hr).2⟩
  cases h with
  | newRegistry unit =>
    refine ⟨fun q => ?_, hold⟩
    rw [registry_addRegistry]
    split
    · exact Registry.wellKept_new unit
    · exact hs.registries q
  | change hr hstep =>
    refine ⟨fun q => ?_, hold⟩
    rw [registry_update s hr]
    split
    · exact hstep.wellKept (hs.registries _)
    · exact hs.registries q
  | @publish r hfrozen hconflict =>
    refine ⟨hs.registries, fun scope q hq => ?_⟩
    rw [publisher?, lookup_foldl_addPublished, Option.or_eq_some_iff] at hq
    rcases hq with hq | ⟨-, hq⟩
    · exact hold scope q hq
    · split at hq
      · rename_i hscope
        cases hq
        have howned : scope ∈ (s.registry r).scopes := (List.mem_filter.1 hscope).1
        exact ⟨hfrozen, Registry.owns_iff.2 howned⟩
      · cases hq

theorem Reaches.later (h : s.Reaches s') : s.Later s' := by
  induction h with
  | refl => exact .refl s
  | tail _ hstep ih => exact ih.trans hstep.later

theorem Reaches.consistent (h : s.Reaches s') (hs : s.Consistent) : s'.Consistent := by
  induction h with
  | refl => exact hs
  | tail _ hstep ih => exact hstep.consistent ih

theorem consistent_ofCommands (commands : List (Command β)) : (ofCommands commands).Consistent :=
  (reaches_run {} commands).consistent consistent_empty

/-! ## What other units see -/

/-- What a unit does not have, it reads from the unit that published it. -/
theorem Consistent.otherRegistry?_of_not_owns (h : s.Consistent) (howns : (s.registry r).owns scope = false) :
    s.otherRegistry? r scope = (s.publisher? scope).map s.registry := by
  unfold otherRegistry?
  rw [if_pos (h.registries r).inSession]
  cases hq : s.publisher? scope with
  | none => rfl
  | some q =>
    have hne : q ≠ r := by
      rintro rfl
      rw [(h.published scope q hq).2] at howns
      cases howns
    simp [hne]

theorem Consistent.macro?_of_not_owns (h : s.Consistent) (howns : (s.registry r).owns scope = false) (name : String)
    (arity : Nat) :
    s.macro? r scope name arity =
      (s.publisher? scope).bind fun q => (s.registry q).macro? scope name arity := by
  rw [macro?, (h.registries r).macro?_of_not_owns howns, howns, if_neg Bool.false_ne_true,
    h.otherRegistry?_of_not_owns howns, Option.bind_map]
  rfl

theorem published_of_publish_error {e : Error} (h : s.publish r = (s', .error e)) :
    s'.published = s.published := by
  unfold publish at h
  dsimp only at h
  split at h
  · cases h
    rfl
  · cases h

/-- Let `s` be a session after any commands, and `s'` the same one after any more. Then

* a scope that is published in `s` is published in `s'`, by the same registry;
* a registry that published a scope is frozen and has the scope;
* each macro of a registry is found there under its own scope, name and arity, its scope is one of the registry, and its
  name is no special form;
* what a registry of `s` that does not have a published scope sees of the macros there is what any registry of `s'` that
  does not have it sees;
* if publishing a registry fails, the same scopes are published as before, by the same registries. -/
theorem published_scopes_stay (commands more : List (Command β)) :
    let s := ofCommands commands
    let s' := s.run more
    (∀ scope r, s.publisher? scope = some r → s'.publisher? scope = some r) ∧
    (∀ scope r, s.publisher? scope = some r → (s.registry r).frozen = true ∧ (s.registry r).owns scope = true) ∧
    (∀ r, ∀ m ∈ (s.registry r).macros, (s.registry r).macro? m.scope m.name m.arity = some m ∧
      (s.registry r).owns m.scope = true ∧ isSpecialForm m.name = false) ∧
    (∀ scope r r', s.isPublished scope = true → (s.registry r).owns scope = false →
      (s'.registry r').owns scope = false →
      ∀ name arity, s'.macro? r' scope name arity = s.macro? r scope name arity) ∧
    ∀ r e s'', s.publish r = (s'', .error e) → s''.published = s.published := by
  intro s s'
  have hs : s.Consistent := consistent_ofCommands commands
  have hreaches : s.Reaches s' := reaches_run s more
  have hs' : s'.Consistent := hreaches.consistent hs
  have hlater : s.Later s' := hreaches.later
  refine ⟨hlater.publishers, hs.published, fun r m hm => ?_, ?_, fun r e s'' => published_of_publish_error⟩
  · have hr := hs.registries r
    exact ⟨hr.found m hm, hr.owned m hm, hr.ordinary m hm⟩
  · intro scope r r' hpublished howns howns' name arity
    obtain ⟨q, hq⟩ := Option.isSome_iff_exists.1 hpublished
    have hmacros := (hlater.registries q).macros (hs.published scope q hq).1
    rw [hs.macro?_of_not_owns howns, hs'.macro?_of_not_owns howns', hq, hlater.publishers scope q hq]
    simp only [Option.bind_some, Registry.macro?, hmacros]

end Session

end MacroLang
