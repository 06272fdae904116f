import MacroLang.Registry.Session

/-!
# What calls can see

Which macro a call means depends on the macros, imports and requirements that its registry sees, and on nothing else:
two registries that see the same ones (`Session.SameMacros`) look up the same macros (`SameMacros.lookup_eq`). What is
looked up is a macro of the registry or one that a unit published (`Session.sees_of_lookup`). A change to a registry
that leaves those alone is hidden from macros (`sameMacros_update`). There are two such changes:

* `sameMacros_withAliases`: a scope gets other aliases;
* `sameMacros_openScope`: a scope that the unit does not read from another one gets its first declarations.
-/

namespace MacroLang

variable {β : Type}

/-- The imports and the requirements of a scope that may have no declarations. -/
def Declarations.dependsBy : Option Declarations → List Dependency × List Dependency
  | some d => (d.imported, d.required)
  | none => ([], [])

namespace Registry

theorem scope_of_table? {registry : Registry β} {scope : String} {d : Declarations}
    (h : registry.table? scope = some d) : d.scope = scope := by
  have := List.find?_some h
  exact eq_of_beq this

/-- A macro has the key that it is found under. -/
theorem key_of_macro? {registry : Registry β} {scope name : String} {arity : Nat} {m : Macro β}
    (h : registry.macro? scope name arity = some m) :
    m ∈ registry.macros ∧ m.scope = scope ∧ m.name = name ∧ m.arity = arity := by
  refine ⟨List.mem_of_find?_eq_some h, ?_⟩
  have hkey := List.find?_some h
  simpa [Macro.hasKey, and_assoc] using hkey

theorem table?_updateTable (registry : Registry β) {scope : String} {f : Declarations → Declarations}
    (hf : ∀ d, d.scope = scope → (f d).scope = scope) (other : String) :
    (registry.updateTable scope f).table? other =
      if other = scope then (registry.table? scope).map f else registry.table? other := by
  have keeps : ∀ d : Declarations, (if d.scope == scope then f d else d).scope = d.scope := by
    intro d
    split
    · rename_i hd
      rw [hf d (eq_of_beq hd), eq_of_beq hd]
    · rfl
  unfold table? updateTable
  rw [List.find?_map]
  simp only [Function.comp_def, keeps]
  by_cases ho : other = scope
  · subst ho
    rw [if_pos rfl]
    refine Option.map_congr fun d hd => ?_
    rw [if_pos (List.find?_some hd)]
  · rw [if_neg ho]
    cases hfind : registry.tables.find? (·.scope == other) with
    | none => rfl
    | some d =>
      have hd : d.scope = other := scope_of_table? hfind
      rw [Option.map_some, if_neg (by simpa [hd] using ho)]

theorem table?_withTable (registry : Registry β) {scope : String} (h : registry.owns scope = false)
    (other : String) :
    (registry.withTable scope).table? other =
      if other = scope then some { scope } else registry.table? other := by
  have hnone : registry.tables.find? (·.scope == scope) = none := by simpa [owns, table?] using h
  simp only [withTable, h, Bool.false_eq_true, if_false, table?, List.find?_append]
  by_cases ho : other = scope
  · simp [ho, hnone]
  · have hne : scope ≠ other := Ne.symm ho
    simp [ho, hne]

end Registry

namespace Session

variable {s s' s'' : Session β} {r r' r'' : Nat}

theorem registry_update_self (s : Session β) (r : Nat) (f : Registry β → Registry β)
    (hr : r < s.registries.length) : (s.update r f).registry r = f (s.registry r) := by
  simp [registry, update, hr]

theorem registry_update_of_ne (s : Session β) {r q : Nat} (f : Registry β → Registry β) (h : r ≠ q) :
    (s.update r f).registry q = s.registry q := by
  simp [registry, update, h]

/-- A number that no registry has is not changed. -/
theorem update_of_le (s : Session β) {r : Nat} (f : Registry β → Registry β)
    (h : s.registries.length ≤ r) : s.update r f = s := by
  unfold update
  rw [List.modify_eq_self h]

theorem registry_of_le (s : Session β) (h : s.registries.length ≤ r) : s.registry r = { unit := "" } := by
  simp [registry, h]

/-- The imports and the requirements of a scope, as unit `r` sees them. -/
def dependenciesOf (s : Session β) (r : Nat) (scope : String) : List Dependency × List Dependency :=
  Declarations.dependsBy (s.declarationsFor r scope)

theorem importsOf_eq (s : Session β) (r : Nat) (scope : String) (c : Context) :
    s.importsOf r scope c =
      ((s.dependenciesOf r scope).1.filter (·.context == c)).map (·.module) := by
  unfold importsOf dependenciesOf
  cases s.declarationsFor r scope with
  | some d => rfl
  | none => rfl

theorem dependsOn_eq (s : Session β) (r : Nat) (scope module : String) (c : Context) :
    s.dependsOn r scope module c =
      ((s.dependenciesOf r scope).2.contains ⟨module, c⟩ ||
        (s.dependenciesOf r scope).1.contains ⟨module, c⟩) := by
  unfold dependsOn dependenciesOf
  cases s.declarationsFor r scope with
  | some d => rfl
  | none => rfl

/-- Two registries see the same macros, imports and requirements in every scope. -/
structure SameMacros (s : Session β) (r : Nat) (s' : Session β) (r' : Nat) : Prop where
  macros : ∀ scope name arity, s'.macro? r' scope name arity = s.macro? r scope name arity
  dependencies : ∀ scope, s'.dependenciesOf r' scope = s.dependenciesOf r scope

theorem SameMacros.refl (s : Session β) (r : Nat) : SameMacros s r s r :=
  ⟨fun _ _ _ => rfl, fun _ => rfl⟩

theorem SameMacros.trans (h : SameMacros s r s' r') (h' : SameMacros s' r' s'' r'') :
    SameMacros s r s'' r'' where
  macros scope name arity := (h'.macros scope name arity).trans (h.macros scope name arity)
  dependencies scope := (h'.dependencies scope).trans (h.dependencies scope)

/-- Registries that see the same macros, imports and requirements look up the same macros. -/
theorem SameMacros.lookup_eq (h : SameMacros s r s' r') (caller name : String) (arity : Nat)
    (c : Context) (module? : Option String) :
    s'.lookup r' caller name arity c module? = s.lookup r caller name arity c module? := by
  have hmay : ∀ module, s'.mayName r' caller module c = s.mayName r caller module c := by
    intro module
    simp only [mayName, dependsOn_eq, h.dependencies]
  have hfirst : ∀ modules, s'.firstPublic? r' modules name arity = s.firstPublic? r modules name arity := by
    intro modules
    simp only [firstPublic?, publicMacro?, h.macros]
  unfold lookup
  split
  · rfl
  · cases module? with
    | some module => simp only [lookupRemote, h.macros, hmay]
    | none =>
      simp only [lookupLocal, lookupOrigin, publicMacro?, importsOf_eq, h.macros, h.dependencies, hfirst]

/-- Where no scope has a macro, no call means one. -/
theorem lookup_eq_none (h : ∀ scope name arity, s.macro? r scope name arity = none) (caller name : String) (arity : Nat)
    (c : Context) (module? : Option String) : s.lookup r caller name arity c module? = none := by
  have hpublic : ∀ module, s.publicMacro? r module name arity = none := fun module => by
    simp [publicMacro?, h]
  have hfirst : ∀ modules, s.firstPublic? r modules name arity = none := fun modules => by
    simp [firstPublic?, hpublic]
  unfold lookup
  split
  · rfl
  · cases module? with
    | some module => simp [lookupRemote, h]
    | none => cases c <;> simp [lookupLocal, lookupOrigin, h, hpublic, hfirst]

/-- A macro of registry `r`, or of the registry that published its scope. -/
def Sees (s : Session β) (r : Nat) (m : Macro β) : Prop :=
  m ∈ (s.registry r).macros ∨ ∃ q, s.publisher? m.scope = some q ∧ m ∈ (s.registry q).macros

theorem sees_of_macro? {scope name : String} {arity : Nat} {m : Macro β} (h : s.macro? r scope name arity = some m) :
    s.Sees r m := by
  unfold macro? at h
  split at h
  · rename_i m' hown
    cases h
    exact .inl (Registry.key_of_macro? hown).1
  · split at h
    · cases h
    · obtain ⟨g, hother, hm⟩ := Option.bind_eq_some_iff.1 h
      obtain ⟨hmem, rfl, -⟩ := Registry.key_of_macro? hm
      unfold otherRegistry? at hother
      split at hother
      · obtain ⟨q, hq, hg⟩ := Option.bind_eq_some_iff.1 hother
        split at hg
        · cases hg
        · cases hg
          exact .inr ⟨q, hq, hmem⟩
      · cases hother

theorem sees_of_firstPublic? {modules : List String} {name : String} {arity : Nat} {m : Macro β}
    (h : s.firstPublic? r modules name arity = some m) : s.Sees r m := by
  obtain ⟨module, -, hm⟩ := List.exists_of_findSome?_eq_some h
  exact sees_of_macro? (Option.filter_eq_some_iff.1 hm).1

theorem sees_of_lookupOrigin {caller origin name : String} {arity : Nat} {m : Macro β}
    (h : s.lookupOrigin r caller origin name arity = some m) : s.Sees r m := by
  rcases Option.or_eq_some_iff.1 h with h | ⟨-, h⟩
  · split at h
    · cases h
    · exact sees_of_macro? (Option.filter_eq_some_iff.1 h).1
  · exact sees_of_firstPublic? h

/-- Whichever way a macro is found, its unit has it or a unit published it. -/
theorem sees_of_lookup {caller name : String} {arity : Nat} {c : Context} {module? : Option String} {m : Macro β}
    (h : s.lookup r caller name arity c module? = some m) : s.Sees r m := by
  unfold lookup at h
  split at h
  · cases h
  cases module? with
  | some module => exact sees_of_macro? (Option.filter_eq_some_iff.1 h).1
  | none =>
    rcases Option.or_eq_some_iff.1 h with h | ⟨-, h⟩
    · exact sees_of_macro? h
    rcases Option.or_eq_some_iff.1 h with h | ⟨-, h⟩
    · exact sees_of_firstPublic? h
    cases c with
    | direct => cases h
    | quotedIn origin => exact sees_of_lookupOrigin h

/-! ## Changes that macros do not see -/

theorem otherRegistry?_update {f : Registry β → Registry β}
    (hf : (f (s.registry r)).inSession = (s.registry r).inSession) (scope : String) :
    Session.otherRegistry? (s.update r f) r scope = s.otherRegistry? r scope := by
  rcases Nat.lt_or_ge r s.registries.length with hr | hr
  · unfold otherRegistry?
    rw [registry_update_self s r f hr, hf]
    split
    · show (s.publisher? scope >>= fun owner => _) = _
      congr 1; funext owner
      split
      · rfl
      · rename_i ho
        rw [registry_update_of_ne s f (Ne.symm ho)]
    · rfl
  · rw [update_of_le s f hr]

theorem declarationsFor_of_alone {scope : String} (h : s.otherRegistry? r scope = none) :
    s.declarationsFor r scope = (s.registry r).table? scope := by
  rw [declarationsFor, h]
  cases (s.registry r).table? scope with
  | some d => rfl
  | none => rfl

/-- A new state of registry `r` that shows other units and macros what the old one showed them. A scope may get its
first declarations only if the unit does not read it from another one. -/
structure HiddenChange (s : Session β) (r : Nat) (new : Registry β) : Prop where
  macros : new.macros = (s.registry r).macros
  inSession : new.inSession = (s.registry r).inSession
  dependencies : ∀ scope, Declarations.dependsBy (new.table? scope) =
    Declarations.dependsBy ((s.registry r).table? scope)
  owns : ∀ scope, new.owns scope = (s.registry r).owns scope ∨ s.otherRegistry? r scope = none

theorem sameMacros_update {f : Registry β → Registry β} (hf : s.HiddenChange r (f (s.registry r))) :
    SameMacros s r (s.update r f) r := by
  rcases Nat.lt_or_ge r s.registries.length with hr | hr
  · have hself := registry_update_self s r f hr
    have hother := otherRegistry?_update hf.inSession
    constructor
    · intro scope name arity
      unfold macro?
      rw [hself, hother, Registry.macro?, hf.macros]
      rcases hf.owns scope with ho | ho
      · rw [ho]; rfl
      · rw [ho]; simp [Registry.macro?]
    · intro scope
      rcases hf.owns scope with ho | ho
      · rw [dependenciesOf, dependenciesOf, declarationsFor, declarationsFor, hself, hother]
        have hdeps := hf.dependencies scope
        unfold Registry.owns at ho
        cases hnew : (f (s.registry r)).table? scope with
        | some d =>
          cases hold : (s.registry r).table? scope with
          | some d' => rwa [hnew, hold] at hdeps
          | none => simp [hnew, hold] at ho
        | none =>
          cases hold : (s.registry r).table? scope with
          | some d' => simp [hnew, hold] at ho
          | none => rfl
      · rw [dependenciesOf, dependenciesOf, declarationsFor_of_alone ho,
          declarationsFor_of_alone ((hother scope).trans ho), hself, hf.dependencies]
  · rw [update_of_le s f hr]
    exact .refl s r

theorem table_of_table? {scope : String} {d : Declarations}
    (h : (s.registry r).table? scope = some d) : s.table r scope = d := by
  rw [table, h]; rfl

theorem scope_table (s : Session β) (r : Nat) (scope : String) : (s.table r scope).scope = scope := by
  unfold table
  cases h : (s.registry r).table? scope with
  | some d => exact Registry.scope_of_table? h
  | none => rfl

/-- The session after a scope of unit `r` got other aliases. -/
def withAliases (s : Session β) (r : Nat) (scope : String) (aliases : List Alias) : Session β :=
  s.update r (·.updateTable scope fun _ => { s.table r scope with aliases })

theorem table?_withAliases (s : Session β) (r : Nat) (scope : String) (aliases : List Alias)
    (other : String) :
    ((s.registry r).updateTable scope fun _ => { s.table r scope with aliases }).table? other =
      ((s.registry r).table? other).map fun d =>
        if other = scope then { d with aliases } else d := by
  have hscope : ∀ d : Declarations, d.scope = scope →
      ({ s.table r scope with aliases } : Declarations).scope = scope := fun _ _ => s.scope_table r scope
  rw [Registry.table?_updateTable _ hscope]
  by_cases ho : other = scope
  · subst ho
    simp only [if_true]
    refine Option.map_congr fun d hd => ?_
    rw [table_of_table? hd]
  · simp [ho]

/-- The aliases of a scope say nothing about macros. -/
theorem sameMacros_withAliases (s : Session β) (r : Nat) (scope : String) (aliases : List Alias) :
    SameMacros s r (s.withAliases r scope aliases) r := by
  refine sameMacros_update ⟨rfl, rfl, fun other => ?_, fun other => .inl ?_⟩
  · rw [table?_withAliases]
    cases (s.registry r).table? other with
    | some d => by_cases ho : other = scope <;> simp [Declarations.dependsBy, ho]
    | none => rfl
  · rw [Registry.owns, table?_withAliases, Option.isSome_map, Registry.owns]

theorem owns_withAliases (s : Session β) (r : Nat) (scope : String) (aliases : List Alias)
    (other : String) :
    ((s.withAliases r scope aliases).registry r).owns other = (s.registry r).owns other := by
  rcases Nat.lt_or_ge r s.registries.length with hr | hr
  · rw [withAliases, registry_update_self s r _ hr, Registry.owns, table?_withAliases,
      Option.isSome_map, Registry.owns]
  · rw [withAliases, update_of_le s _ hr]

theorem openScope_of_owns {scope : String} (h : (s.registry r).owns scope = true) :
    s.openScope r scope = .ok s := by
  simp [openScope, h, pure, Except.pure]

theorem otherRegistry?_of_checkWritable {scope : String} {info : Info}
    (h : s.checkWritable r scope info = .ok ()) : s.otherRegistry? r scope = none := by
  simp only [checkWritable] at h
  split at h
  · cases h
  split at h
  · cases h
  rename_i hpublished
  rw [Bool.and_eq_true, not_and, isPublished] at hpublished
  unfold otherRegistry?
  split
  · rename_i hin
    have hnone : s.publisher? scope = none := by simpa using hpublished hin
    rw [hnone]; rfl
  · rfl

/-- Neither does a scope that is opened. -/
theorem sameMacros_openScope {scope : String} (h : s.openScope r scope = .ok s') :
    SameMacros s r s' r := by
  cases howns : (s.registry r).owns scope with
  | true =>
    rw [openScope_of_owns howns] at h
    cases h
    exact .refl s r
  | false =>
    simp only [openScope, howns, Bool.false_eq_true, if_false] at h
    cases hwritable : s.checkWritable r scope {} with
    | error e => rw [hwritable] at h; cases h
    | ok u =>
      rw [hwritable] at h
      cases h
      have hother := otherRegistry?_of_checkWritable hwritable
      have htables := Registry.table?_withTable (s.registry r) howns
      have hfalse : ((s.registry r).table? scope) = none := by simpa [Registry.owns] using howns
      refine sameMacros_update ⟨?_, ?_, fun other => ?_, fun other => ?_⟩
      · simp [Registry.withTable, howns]
      · simp [Registry.withTable, howns]
      · rw [htables]
        by_cases ho : other = scope
        · subst ho; rw [if_pos rfl, hfalse]; rfl
        · rw [if_neg ho]
      · by_cases ho : other = scope
        · subst ho; exact .inr hother
        · left; rw [Registry.owns, htables, if_neg ho, Registry.owns]

end Session

end MacroLang
