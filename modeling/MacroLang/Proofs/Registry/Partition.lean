import MacroLang.Proofs.Registry.Lookup

/-!
# One registry or several

The scopes of a program can be spread over several units, each with a registry of its own, or all be kept in one
registry. The operations on a scope read and change what the registry has of that scope and nothing else
(`Registry.Part`). So the operations on the scopes of one unit make of an empty registry the part of the single registry
that belongs to those scopes. A unit that comes last reads the parts of the units that were published before it, and
with its own part that is all that the single registry has.

Main statement: `lookup_unitByUnit`.
-/

namespace MacroLang

variable {β : Type}

namespace Operation

/-- The scope that an operation is about. -/
def scope : Operation β → String
  | .register m => m.scope
  | .define scope .. => scope
  | .openScope scope => scope
  | .addAlias scope .. => scope
  | .addDependency scope .. => scope
  | .hideScope scope => scope

/-- Does the operation keep its scope from being published? -/
def hides : Operation β → Bool
  | .hideScope _ => true
  | _ => false

end Operation

namespace Session

/-- The session after a change, if the change was not refused. -/
def accepted : Session β × Except Error Unit → Except Error (Session β)
  | (s, .ok ()) => .ok s
  | (_, .error e) => .error e

/-- Has registry `r` carry out operations one after the other, up to the first that is refused. -/
def carryOut (s : Session β) (r : Nat) (ops : List (Operation β)) : Except Error (Session β) :=
  ops.foldlM (fun s op => accepted (s.perform r op)) s

/-- A session with one registry, which reads what others published or does not. -/
def single (unit : String) (inSession : Bool) : Session β :=
  { registries := [{ unit, inSession }] }

/-- Adds a registry for unit `i` and has it carry out the operations in the scopes of that unit. -/
def buildUnit (unit : Nat → String) (unitOf : String → Nat) (ops : List (Operation β)) (s : Session β) (i : Nat) :
    Except Error (Session β) :=
  (s.addRegistry { unit := unit i }).carryOut i (ops.filter fun op => unitOf op.scope == i)

/-- Builds the units up to `n` in one session. Each but the last is published before the next one is begun. -/
def unitByUnit (unit : Nat → String) (unitOf : String → Nat) (ops : List (Operation β)) :
    Nat → Except Error (Session β)
  | 0 => buildUnit unit unitOf ops {} 0
  | n + 1 => do
    let s ← unitByUnit unit unitOf ops n
    let s ← accepted (s.publish n)
    buildUnit unit unitOf ops s (n + 1)

end Session

/-! ## Operations on a registry alone -/

namespace Registry

/-- Adds a macro, unless its name is a special form or its key is taken. -/
def register (g : Registry β) (m : Macro β) : Except Error (Registry β) :=
  if isSpecialForm m.name then .error ((Cause.specialForm m.name m.arity).on m.info)
  else if (g.macro? m.scope m.name m.arity).isSome then
    .error ((Cause.duplicateMacro m.scope m.name m.arity).on m.info)
  else .ok (g.addMacro m)

/-- Declares a short name in a scope that has a table. -/
def addAlias (g : Registry β) (scope module : String) (short? : Option String) (c : Context) :
    Except Error (Registry β) := do
  let (_, table) ← ((g.table? scope).getD { scope }).addAlias module short? c
  return g.updateTable scope fun _ => table

/-- What an operation makes of a registry that may change the scope. -/
def apply (g : Registry β) : Operation β → Except Error (Registry β)
  | .register m => g.register m
  | .define scope name params body visibility info => do
    let isPublic ← Macro.readVisibility visibility
    g.register { scope, name, params := params.map Macro.paramName, body, isPublic, info }
  | .openScope scope => .ok (g.withTable scope)
  | .addAlias scope module short? c => (g.withTable scope).addAlias scope module short? c
  | .addDependency scope module c imported =>
    .ok ((g.withTable scope).updateTable scope fun d =>
      if imported then d.addImport module c else d.addRequire module c)
  | .hideScope scope => .ok ({ g with unshared := g.unshared ++ [scope] }.withTable scope)

end Registry

namespace Session

variable {s s' : Session β} {r : Nat} {scope : String}

theorem accepted_attempt (s : Session β) (outcome : Except Error (Session β)) :
    accepted (s.attempt outcome) = outcome := by
  cases outcome with
  | ok s' => rfl
  | error e => rfl

theorem update_update (s : Session β) (r : Nat) (f f' : Registry β → Registry β) :
    (s.update r f).update r f' = s.update r fun g => f' (f g) := by
  unfold update
  rw [List.modify_modify_eq]
  rfl

theorem update_congr {f f' : Registry β → Registry β} (h : f (s.registry r) = f' (s.registry r)) :
    s.update r f = s.update r f' := by
  have hmodify : s.registries.modify r f = s.registries.modify r f' := by
    refine List.ext_getElem? fun j => ?_
    rw [List.getElem?_modify, List.getElem?_modify]
    cases hg : s.registries[j]? with
    | none => rfl
    | some g =>
      by_cases hj : r = j
      · have hregistry : s.registry r = g := by rw [registry, hj, hg, Option.getD_some]
        rw [hregistry] at h
        simp [hj, h]
      · simp [hj]
  rw [update, hmodify, update]

theorem update_registry (s : Session β) (r : Nat) : s.update r (fun _ => s.registry r) = s := by
  have hid : s.update r (fun _ => s.registry r) = s.update r id := update_congr rfl
  rw [hid, update, List.modify_id]

theorem openScope_of_writable (h : s.Writable r scope) :
    s.openScope r scope = .ok (s.update r (·.withTable scope)) := by
  unfold openScope
  split
  · rename_i howns
    have hsame : s.update r (·.withTable scope) = s.update r fun _ => s.registry r :=
      update_congr (Registry.withTable_of_owns howns)
    rw [hsame, update_registry]
    rfl
  · rw [checkWritable_eq_ok.2 h]
    rfl

theorem register_of_writable {m : Macro β} (h : s.Writable r m.scope) :
    s.register r m = ((s.registry r).register m).map fun g => s.update r fun _ => g := by
  unfold register Registry.register
  dsimp only
  split
  · rfl
  · rw [checkWritable_eq_ok.2 h]
    show (if _ then _ else _) = _
    split
    · rfl
    · exact congrArg Except.ok (update_congr rfl)

/-- Where the scope may be changed, an operation does to the registry what it does to the registry alone. -/
theorem accepted_perform (hr : r < s.registries.length) {op : Operation β} (h : s.Writable r op.scope) :
    accepted (s.perform r op) = ((s.registry r).apply op).map fun g => s.update r fun _ => g := by
  cases op with
  | register m => exact (accepted_attempt ..).trans (register_of_writable h)
  | define scope name params body visibility info =>
    refine (accepted_attempt ..).trans ?_
    rw [Registry.apply]
    cases Macro.readVisibility visibility with
    | ok isPublic => exact register_of_writable h
    | error e => rfl
  | openScope scope =>
    refine (accepted_attempt ..).trans ?_
    have hopen : s.openScope r scope = _ := openScope_of_writable h
    rw [hopen]
    exact congrArg Except.ok (update_congr rfl)
  | addAlias scope module short? c =>
    have hopen : s.openScope r scope = _ := openScope_of_writable h
    have htable : (s.update r (·.withTable scope)).table r scope =
        (((s.registry r).withTable scope).table? scope).getD { scope } := by
      rw [table, registry_update_self s r _ hr]
    rw [perform, hopen]
    refine (accepted_attempt ..).trans ?_
    rw [addAlias, htable, Registry.apply, Registry.addAlias]
    cases Declarations.addAlias _ module short? c with
    | ok entry => exact congrArg Except.ok ((update_update s r _ _).trans (update_congr rfl))
    | error e => rfl
  | addDependency scope module c imported =>
    have hopen : s.openScope r scope = _ := openScope_of_writable h
    refine (accepted_attempt ..).trans ?_
    rw [addDependency, hopen]
    exact congrArg Except.ok ((update_update s r _ _).trans (update_congr rfl))
  | hideScope scope =>
    have hself := registry_update_self s r (fun g => { g with unshared := g.unshared ++ [scope] }) hr
    have hhidden : (s.hideScope r scope).Writable r scope := by
      constructor
      · rw [hideScope, hself]
        exact h.unfrozen
      · rw [hideScope, hself]
        exact h.unpublished
    rw [perform]
    refine (accepted_attempt ..).trans ?_
    rw [openScope_of_writable hhidden]
    exact congrArg Except.ok ((update_update s r _ _).trans (update_congr rfl))

end Session

/-! ## The part of a registry that belongs to some scopes -/

namespace Registry

/-- The registry `g'` has what `g` has of some scopes, in the same order. -/
structure Part (keep : String → Bool) (g g' : Registry β) : Prop where
  macros : g'.macros = g.macros.filter (keep ·.scope)
  tables : g'.tables = g.tables.filter (keep ·.scope)

variable {keep : String → Bool} {g g' g₁ : Registry β} {scope : String}

theorem part_new (keep : String → Bool) (unit unit' : String) (inSession inSession' : Bool) :
    ({ unit, inSession } : Registry β).Part keep { unit := unit', inSession := inSession' } :=
  ⟨rfl, rfl⟩

/-- What is looked for in one scope is found in a part if the part has that scope. -/
theorem find?_filter_scope {α : Type} {scopeOf : α → String} {p : α → Bool} (hp : ∀ a, p a = true → scopeOf a = scope)
    (xs : List α) :
    (xs.filter fun a => keep (scopeOf a)).find? p = if keep scope then xs.find? p else none := by
  rw [List.find?_filter]
  split
  · rename_i hkeep
    refine congrArg (List.find? · xs) (funext fun a => ?_)
    rw [Bool.eq_iff_iff, decide_eq_true_iff, and_iff_right_iff_imp]
    intro ha
    rw [hp a ha, hkeep]
  · rename_i hkeep
    rw [List.find?_eq_none]
    intro a _ ha
    obtain ⟨hkept, ha⟩ := of_decide_eq_true ha
    rw [hp a ha] at hkept
    exact hkeep hkept

namespace Part

theorem macro?_eq (h : g.Part keep g') (scope name : String) (arity : Nat) :
    g'.macro? scope name arity = if keep scope then g.macro? scope name arity else none := by
  unfold Registry.macro?
  rw [h.macros]
  refine find?_filter_scope (fun m hm => ?_) _
  simp only [Macro.hasKey, Bool.and_eq_true, beq_iff_eq] at hm
  exact hm.1.1

theorem table?_eq (h : g.Part keep g') (scope : String) :
    g'.table? scope = if keep scope then g.table? scope else none := by
  unfold Registry.table?
  rw [h.tables]
  exact find?_filter_scope (fun _ hd => eq_of_beq hd) _

theorem owns_eq (h : g.Part keep g') (scope : String) : g'.owns scope = (keep scope && g.owns scope) := by
  rw [owns, h.table?_eq, owns]
  cases keep scope with
  | true => rfl
  | false => rfl

/-! Each change in a scope of the part is made in the part too. A change elsewhere leaves the part as it is. -/

theorem withTable (h : g.Part keep g') (hkeep : keep scope = true) :
    (g.withTable scope).Part keep (g'.withTable scope) := by
  have howns : g'.owns scope = g.owns scope := by rw [h.owns_eq, hkeep, Bool.true_and]
  unfold Registry.withTable
  rw [howns]
  split
  · exact h
  · refine ⟨h.macros, ?_⟩
    rw [List.filter_append, h.tables]
    simp [hkeep]

theorem withTable_elsewhere (h : g.Part keep g') (hkeep : keep scope = false) : (g.withTable scope).Part keep g' := by
  unfold Registry.withTable
  split
  · exact h
  · refine ⟨h.macros, ?_⟩
    rw [List.filter_append, h.tables]
    simp [hkeep]

theorem addMacro (h : g.Part keep g') {m : Macro β} (hkeep : keep m.scope = true) :
    (g.addMacro m).Part keep (g'.addMacro m) := by
  refine withTable ⟨?_, h.tables⟩ hkeep
  rw [List.filter_append, h.macros]
  simp [hkeep]

theorem addMacro_elsewhere (h : g.Part keep g') {m : Macro β} (hkeep : keep m.scope = false) :
    (g.addMacro m).Part keep g' := by
  refine withTable_elsewhere ⟨?_, h.tables⟩ hkeep
  rw [List.filter_append, h.macros]
  simp [hkeep]

theorem filter_updateTable (g : Registry β) {f : Declarations → Declarations}
    (hf : ∀ d, d.scope = scope → (f d).scope = scope) :
    (g.updateTable scope f).tables.filter (keep ·.scope) =
      (g.tables.filter (keep ·.scope)).map fun d => if d.scope == scope then f d else d := by
  unfold updateTable
  rw [List.filter_map]
  refine congrArg (List.map _) (List.filter_congr fun d _ => ?_)
  show keep (if d.scope == scope then f d else d).scope = keep d.scope
  split
  · rename_i hd
    rw [hf d (eq_of_beq hd), eq_of_beq hd]
  · rfl

theorem updateTable (h : g.Part keep g') {f : Declarations → Declarations}
    (hf : ∀ d, d.scope = scope → (f d).scope = scope) :
    (g.updateTable scope f).Part keep (g'.updateTable scope f) := by
  refine ⟨h.macros, ?_⟩
  rw [filter_updateTable g hf, ← h.tables]
  rfl

theorem updateTable_elsewhere (h : g.Part keep g') (hkeep : keep scope = false) {f : Declarations → Declarations}
    (hf : ∀ d, d.scope = scope → (f d).scope = scope) : (g.updateTable scope f).Part keep g' := by
  refine ⟨h.macros, ?_⟩
  rw [filter_updateTable g hf, ← h.tables]
  have hsame : g'.tables.map (fun d => if d.scope == scope then f d else d) = g'.tables.map id := by
    refine List.map_congr_left fun d hd => ?_
    rw [h.tables, List.mem_filter] at hd
    have hne : d.scope ≠ scope := by
      rintro rfl
      rw [hkeep] at hd
      exact Bool.false_ne_true hd.2
    simp [hne]
  rw [hsame, List.map_id]

theorem register (h : g.Part keep g') {m : Macro β} (hkeep : keep m.scope = true) (hg : g.register m = .ok g₁) :
    ∃ g₁', g'.register m = .ok g₁' ∧ g₁.Part keep g₁' := by
  unfold Registry.register at hg ⊢
  rw [h.macro?_eq, if_pos hkeep]
  split at hg
  · cases hg
  split at hg
  · cases hg
  · rename_i hspecial hnew
    cases hg
    exact ⟨_, by rw [if_neg hspecial, if_neg hnew], h.addMacro hkeep⟩

theorem register_elsewhere (h : g.Part keep g') {m : Macro β} (hkeep : keep m.scope = false)
    (hg : g.register m = .ok g₁) : g₁.Part keep g' := by
  unfold Registry.register at hg
  split at hg
  · cases hg
  split at hg
  · cases hg
  · cases hg
    exact h.addMacro_elsewhere hkeep

theorem scope_of_addAlias {module : String} {short? : Option String} {c : Context}
    {entry : Option String × Declarations}
    (h : ((g.table? scope).getD { scope }).addAlias module short? c = .ok entry) : entry.2.scope = scope := by
  rw [Declarations.scope_of_addAlias h]
  cases htable : g.table? scope with
  | none => rfl
  | some d => exact scope_of_table? htable

/-- An operation in a scope of the part makes the same change there. -/
theorem apply (h : g.Part keep g') {op : Operation β} (hkeep : keep op.scope = true) (hg : g.apply op = .ok g₁) :
    ∃ g₁', g'.apply op = .ok g₁' ∧ g₁.Part keep g₁' := by
  cases op with
  | register m => exact h.register hkeep hg
  | define scope name params body visibility info =>
    obtain ⟨isPublic, hpublic, hg⟩ := except_bind_eq_ok.1 hg
    rw [Registry.apply, hpublic]
    exact h.register hkeep hg
  | openScope scope =>
    cases hg
    exact ⟨_, rfl, h.withTable hkeep⟩
  | addAlias scope module short? c =>
    have hscope : keep scope = true := hkeep
    have hopen := h.withTable hscope
    obtain ⟨entry, hentry, hg⟩ := except_bind_eq_ok.1 hg
    cases hg
    refine ⟨_, ?_, hopen.updateTable fun _ _ => scope_of_addAlias hentry⟩
    rw [Registry.apply, Registry.addAlias, hopen.table?_eq, if_pos hscope, hentry]
    rfl
  | addDependency scope module c imported =>
    cases hg
    refine ⟨_, rfl, (h.withTable hkeep).updateTable fun d hd => ?_⟩
    split
    · exact hd
    · exact hd
  | hideScope scope =>
    cases hg
    exact ⟨_, rfl, withTable ⟨h.macros, h.tables⟩ hkeep⟩

/-- An operation in another scope leaves the part as it is. -/
theorem apply_elsewhere (h : g.Part keep g') {op : Operation β} (hkeep : keep op.scope = false)
    (hg : g.apply op = .ok g₁) : g₁.Part keep g' := by
  cases op with
  | register m => exact h.register_elsewhere hkeep hg
  | define scope name params body visibility info =>
    obtain ⟨isPublic, hpublic, hg⟩ := except_bind_eq_ok.1 hg
    exact h.register_elsewhere hkeep hg
  | openScope scope =>
    cases hg
    exact h.withTable_elsewhere hkeep
  | addAlias scope module short? c =>
    obtain ⟨entry, hentry, hg⟩ := except_bind_eq_ok.1 hg
    cases hg
    exact (h.withTable_elsewhere hkeep).updateTable_elsewhere hkeep fun _ _ => scope_of_addAlias hentry
  | addDependency scope module c imported =>
    cases hg
    refine (h.withTable_elsewhere hkeep).updateTable_elsewhere hkeep fun d hd => ?_
    split
    · exact hd
    · exact hd
  | hideScope scope =>
    cases hg
    exact withTable_elsewhere ⟨h.macros, h.tables⟩ hkeep

/-- The operations in the scopes of a part make of it the part of what all operations make of the whole. -/
theorem applyAll (h : g.Part keep g') {ops : List (Operation β)} (hg : ops.foldlM Registry.apply g = .ok g₁) :
    ∃ g₁', (ops.filter (keep ·.scope)).foldlM Registry.apply g' = .ok g₁' ∧ g₁.Part keep g₁' := by
  induction ops generalizing g g' with
  | nil =>
    cases hg
    exact ⟨g', rfl, h⟩
  | cons op ops ih =>
    rw [List.foldlM_cons] at hg
    obtain ⟨g₂, hop, hg⟩ := except_bind_eq_ok.1 hg
    cases hkeep : keep op.scope with
    | true =>
      obtain ⟨g₂', hop', hpart⟩ := h.apply hkeep hop
      obtain ⟨g₁', hall, hpart⟩ := ih hpart hg
      refine ⟨g₁', ?_, hpart⟩
      rw [List.filter_cons, if_pos hkeep, List.foldlM_cons, hop']
      exact hall
    | false =>
      obtain ⟨g₁', hall, hpart⟩ := ih (h.apply_elsewhere hkeep hop) hg
      refine ⟨g₁', ?_, hpart⟩
      rw [List.filter_cons, hkeep, if_neg Bool.false_ne_true]
      exact hall

end Part

/-- What an operation that hides no scope leaves alone. -/
structure SameStanding (g g' : Registry β) : Prop where
  inSession : g'.inSession = g.inSession
  frozen : g'.frozen = g.frozen
  unshared : g'.unshared = g.unshared

theorem SameStanding.trans {g'' : Registry β} (h : g.SameStanding g') (h' : g'.SameStanding g'') :
    g.SameStanding g'' :=
  ⟨h'.inSession.trans h.inSession, h'.frozen.trans h.frozen, h'.unshared.trans h.unshared⟩

theorem Redeclares.sameStanding (h : g.Redeclares scope g') : g.SameStanding g' :=
  ⟨h.inSession, h.frozen, h.unshared⟩

theorem sameStanding_register {m : Macro β} (h : g.register m = .ok g') : g.SameStanding g' := by
  unfold register at h
  split at h
  · cases h
  split at h
  · cases h
  · cases h
    have hadded := redeclares_withTable { g with macros := g.macros ++ [m] } m.scope
    exact ⟨hadded.inSession, hadded.frozen, hadded.unshared⟩

theorem sameStanding_apply {op : Operation β} (hop : op.hides = false) (h : g.apply op = .ok g') :
    g.SameStanding g' := by
  cases op with
  | register m => exact sameStanding_register h
  | define scope name params body visibility info =>
    obtain ⟨isPublic, hpublic, h⟩ := except_bind_eq_ok.1 h
    exact sameStanding_register h
  | openScope scope =>
    cases h
    exact (redeclares_withTable g scope).sameStanding
  | addAlias scope module short? c =>
    obtain ⟨entry, hentry, h⟩ := except_bind_eq_ok.1 h
    cases h
    have hput := redeclares_updateTable (g.withTable scope) (f := fun _ => entry.2)
      fun _ _ => Part.scope_of_addAlias hentry
    exact ((redeclares_withTable g scope).trans hput).sameStanding
  | addDependency scope module c imported =>
    cases h
    refine ((redeclares_withTable g scope).trans (redeclares_updateTable _ fun d hd => ?_)).sameStanding
    split
    · exact hd
    · exact hd
  | hideScope scope => cases hop

theorem sameStanding_applyAll {ops : List (Operation β)} (hops : ∀ op ∈ ops, op.hides = false)
    (h : ops.foldlM apply g = .ok g') : g.SameStanding g' := by
  induction ops generalizing g with
  | nil =>
    cases h
    exact ⟨rfl, rfl, rfl⟩
  | cons op ops ih =>
    rw [List.foldlM_cons] at h
    obtain ⟨g₁, hop, h⟩ := except_bind_eq_ok.1 h
    rw [List.forall_mem_cons] at hops
    exact (sameStanding_apply hops.1 hop).trans (ih hops.2 h)

end Registry

/-! ## Units -/

namespace Session

variable {s s' : Session β} {r : Nat} {ops : List (Operation β)}

/-- Where all scopes may be changed, the registry goes through the operations as it would alone. -/
theorem carryOut_eq (hr : r < s.registries.length) (hwritable : ∀ op ∈ ops, s.Writable r op.scope)
    (hops : ∀ op ∈ ops, op.hides = false) :
    s.carryOut r ops = (ops.foldlM Registry.apply (s.registry r)).map fun g => s.update r fun _ => g := by
  induction ops generalizing s with
  | nil => exact congrArg Except.ok (s.update_registry r).symm
  | cons op ops ih =>
    rw [List.forall_mem_cons] at hops hwritable
    rw [carryOut, List.foldlM_cons, List.foldlM_cons, accepted_perform hr hwritable.1]
    cases hop : (s.registry r).apply op with
    | error e => rfl
    | ok g =>
      have hsame := Registry.sameStanding_apply hops.1 hop
      have hself := registry_update_self s r (fun _ => g) hr
      refine (ih (s := s.update r fun _ => g) ?_ (fun op' hop' => ?_) hops.2).trans ?_
      · rwa [update, List.length_modify]
      · refine ⟨?_, ?_⟩
        · rw [hself, hsame.frozen]
          exact (hwritable.2 op' hop').unfrozen
        · rw [hself, hsame.inSession]
          exact (hwritable.2 op' hop').unpublished
      · rw [hself]
        simp only [update_update]
        rfl

theorem fst_of_accepted {outcome : Session β × Except Error Unit} (h : accepted outcome = .ok s') : outcome.1 = s' := by
  obtain ⟨s, result⟩ := outcome
  cases result with
  | ok u => cases h; rfl
  | error e => cases h

theorem reaches_carryOut (h : s.carryOut r ops = .ok s') : s.Reaches s' := by
  induction ops generalizing s with
  | nil =>
    cases h
    exact .refl
  | cons op ops ih =>
    rw [carryOut, List.foldlM_cons] at h
    obtain ⟨s₁, hop, h⟩ := except_bind_eq_ok.1 h
    have hfirst := s.reaches_perform r op
    rw [fst_of_accepted hop] at hfirst
    exact hfirst.trans (ih h)

theorem reaches_unitByUnit {unit : Nat → String} {unitOf : String → Nat} {n : Nat}
    (h : unitByUnit unit unitOf ops n = .ok s) : ({} : Session β).Reaches s := by
  induction n generalizing s with
  | zero => exact .head (.newRegistry (unit 0)) (reaches_carryOut h)
  | succ n ih =>
    obtain ⟨s₁, hbuilt, h⟩ := except_bind_eq_ok.1 h
    obtain ⟨s₂, hpublish, h⟩ := except_bind_eq_ok.1 h
    have hpublished := s₁.reaches_publish n
    rw [fst_of_accepted hpublish] at hpublished
    exact ((ih hbuilt).trans hpublished).trans (.head (.newRegistry (unit (n + 1))) (reaches_carryOut h))

/-- The first `built` units have their parts of the registry `g`, and the first `published` of them are published. -/
structure Spread (unitOf : String → Nat) (g : Registry β) (built published : Nat) (s : Session β) : Prop where
  count : s.registries.length = built
  parts : ∀ i < built, g.Part (unitOf · == i) (s.registry i)
  shared : ∀ i < built, (s.registry i).unshared = []
  publisher : ∀ scope, s.publisher? scope =
    if unitOf scope < published ∧ g.owns scope = true then some (unitOf scope) else none

namespace Spread

variable {unit : Nat → String} {unitOf : String → Nat} {g : Registry β} {built n : Nat}

theorem empty (unitOf : String → Nat) (g : Registry β) : Spread unitOf g 0 0 {} where
  count := rfl
  parts i hi := absurd hi (Nat.not_lt_zero i)
  shared i hi := absurd hi (Nat.not_lt_zero i)
  publisher scope := by simp [publisher?]

/-- A scope that is not of a published unit is not published. -/
theorem publisher_of_le (h : Spread unitOf g built n s) {scope : String} (hscope : n ≤ unitOf scope) :
    s.publisher? scope = none := by
  rw [h.publisher, if_neg fun hlt => absurd hlt.1 (Nat.not_lt.2 hscope)]

theorem addPart (h : Spread unitOf g n n s) (new : Registry β) {g' : Registry β} (hpart : g.Part (unitOf · == n) g')
    (hshared : g'.unshared = []) : Spread unitOf g (n + 1) n ((s.addRegistry new).update n fun _ => g') := by
  have hcount : (s.addRegistry new).registries.length = n + 1 := by simp [addRegistry, h.count]
  have hregistry : ∀ i, ((s.addRegistry new).update n fun _ => g').registry i =
      if i = n then g' else s.registry i := by
    intro i
    rw [registry_update _ (by omega), registry_addRegistry, h.count]
    by_cases hi : i = n
    · rw [if_pos hi, if_pos hi]
    · rw [if_neg hi, if_neg hi, if_neg hi]
  refine ⟨by rw [update, List.length_modify, hcount], fun i hi => ?_, fun i hi => ?_, h.publisher⟩
  · rw [hregistry]
    split
    · rename_i hin
      rw [hin]
      exact hpart
    · exact h.parts i (by omega)
  · rw [hregistry]
    split
    · exact hshared
    · exact h.shared i (by omega)

/-- The next unit carries out its operations and so comes to have its part. -/
theorem buildUnit (h : Spread unitOf g n n s) {name : String} {inSession : Bool}
    (hall : ops.foldlM Registry.apply { unit := name, inSession } = .ok g) (hops : ∀ op ∈ ops, op.hides = false) :
    ∃ s', s.buildUnit unit unitOf ops n = .ok s' ∧ Spread unitOf g (n + 1) n s' := by
  have hnew : (s.addRegistry { unit := unit n }).registry n = { unit := unit n } := by
    rw [registry_addRegistry, if_pos h.count.symm]
  have hlt : n < (s.addRegistry { unit := unit n }).registries.length := by simp [addRegistry, h.count]
  have hmine : ∀ op ∈ ops.filter fun op => unitOf op.scope == n, op.hides = false := fun op hop =>
    hops op (List.mem_filter.1 hop).1
  have hwritable : ∀ op ∈ ops.filter fun op => unitOf op.scope == n,
      (s.addRegistry { unit := unit n }).Writable n op.scope := by
    intro op hop
    have hunit : unitOf op.scope = n := eq_of_beq (List.mem_filter.1 hop).2
    refine ⟨by rw [hnew], fun _ => ?_⟩
    exact congrArg Option.isSome (h.publisher_of_le (Nat.le_of_eq hunit.symm))
  obtain ⟨g', hrun, hpart⟩ := (Registry.part_new (unitOf · == n) name (unit n) inSession true).applyAll hall
  refine ⟨_, ?_, h.addPart { unit := unit n } hpart (Registry.sameStanding_applyAll hmine hrun).unshared⟩
  rw [Session.buildUnit, carryOut_eq hlt hwritable hmine, hnew, hrun]
  rfl

/-- The last unit that is built can be published, for no other unit has any of its scopes. -/
theorem publish (h : Spread unitOf g (n + 1) n s) :
    ∃ s', accepted (s.publish n) = .ok s' ∧ Spread unitOf g (n + 1) (n + 1) s' := by
  have hsame : ∀ i, ((s.freeze n).registry i).macros = (s.registry i).macros ∧
      ((s.freeze n).registry i).tables = (s.registry i).tables ∧
      ((s.freeze n).registry i).unshared = (s.registry i).unshared := by
    intro i
    rw [freeze, registry_update s (by rw [h.count]; omega)]
    split
    · rename_i hin
      rw [hin]
      exact ⟨rfl, rfl, rfl⟩
    · exact ⟨rfl, rfl, rfl⟩
  have hshared : ((s.freeze n).registry n).sharedScopes = (s.registry n).scopes := by
    unfold Registry.sharedScopes Registry.scopes
    rw [(hsame n).2.1, (hsame n).2.2, h.shared n (Nat.lt_succ_self n)]
    simp
  have hmem : ∀ scope, scope ∈ (s.registry n).scopes ↔ unitOf scope = n ∧ g.owns scope = true := by
    intro scope
    rw [← Registry.owns_iff, (h.parts n (Nat.lt_succ_self n)).owns_eq, Bool.and_eq_true, beq_iff_eq]
  have hconflict : (s.freeze n).conflict? n (s.registry n).scopes = none := by
    refine conflict?_eq_none.2 fun scope hscope q hq => ?_
    have hnone : s.publisher? scope = none := h.publisher_of_le (Nat.le_of_eq ((hmem scope).1 hscope).1.symm)
    cases hnone.symm.trans hq
  refine ⟨{ s.freeze n with published := (s.registry n).scopes.foldl (addPublished n) s.published }, ?_, ?_⟩
  · rw [Session.publish, hshared, hconflict]
    rfl
  · refine ⟨by rw [← h.count]; exact List.length_modify .., fun i hi => ?_, fun i hi => ?_, fun scope => ?_⟩
    · have hpart := h.parts i hi
      exact ⟨(hsame i).1.trans hpart.macros, (hsame i).2.1.trans hpart.tables⟩
    · exact (hsame i).2.2.trans (h.shared i hi)
    · have hbefore : s.published.lookup scope = _ := h.publisher scope
      rw [publisher?, lookup_foldl_addPublished, hbefore]
      simp only [hmem]
      cases g.owns scope with
      | false => simp
      | true =>
        rcases Nat.lt_trichotomy (unitOf scope) n with hlt | heq | hgt
        · simp [hlt, Nat.lt_succ_of_lt hlt]
        · simp [heq]
        · simp [Nat.not_lt_of_gt hgt, Nat.ne_of_gt hgt, Nat.not_lt.2 hgt]

/-- Every unit can be built, and all but the last be published. -/
theorem unitByUnit {name : String} {inSession : Bool}
    (hall : ops.foldlM Registry.apply { unit := name, inSession } = .ok g) (hops : ∀ op ∈ ops, op.hides = false)
    (n : Nat) : ∃ s, unitByUnit unit unitOf ops n = .ok s ∧ Spread unitOf g (n + 1) n s := by
  induction n with
  | zero => exact (empty unitOf g).buildUnit hall hops
  | succ n ih =>
    obtain ⟨s, hbuilt, hs⟩ := ih
    obtain ⟨s', hpublished, hs'⟩ := hs.publish
    obtain ⟨s'', hnext, hs''⟩ := hs'.buildUnit hall hops
    refine ⟨s'', ?_, hs''⟩
    rw [Session.unitByUnit, hbuilt]
    show (accepted (s.publish n) >>= _) = _
    rw [hpublished]
    exact hnext

/-- The last unit knows each scope from the registry of the unit that the scope belongs to. -/
theorem authority?_eq (h : Spread unitOf g (n + 1) n s) (hunits : ∀ scope, g.owns scope = true → unitOf scope ≤ n)
    (scope : String) :
    s.authority? n scope = if g.owns scope then some (s.registry (unitOf scope)) else none := by
  rw [authority?, (h.parts n (Nat.lt_succ_self n)).owns_eq, h.publisher]
  cases howns : g.owns scope with
  | false => simp
  | true =>
    rcases Nat.lt_or_eq_of_le (hunits scope howns) with hlt | heq
    · simp [hlt, Nat.ne_of_lt hlt]
    · simp [heq]

/-- The last unit sees what the single registry has. -/
theorem sameMacros (h : Spread unitOf g (n + 1) n s) (hs : s.Consistent)
    (hunits : ∀ i, n < i → g.Part (unitOf · == i) { unit := "" }) {s₁ : Session β} (hregistry : s₁.registry 0 = g)
    (hpublished : s₁.published = []) : SameMacros s₁ 0 s n := by
  have hparts : ∀ i, g.Part (unitOf · == i) (s.registry i) := by
    intro i
    rcases Nat.lt_or_ge i (n + 1) with hi | hi
    · exact h.parts i hi
    · rw [registry_of_le s (by rw [h.count]; exact hi)]
      exact hunits i hi
  have howned : ∀ scope, g.owns scope = true → unitOf scope ≤ n := by
    intro scope howns
    rcases Nat.lt_or_ge n (unitOf scope) with hgt | hle
    · have hempty := (hunits (unitOf scope) hgt).owns_eq scope
      rw [howns, beq_self_eq_true] at hempty
      exact nomatch hempty
    · exact hle
  have hother : ∀ scope, s₁.otherRegistry? 0 scope = none := by
    intro scope
    simp [publisher?, otherRegistry?, hpublished]
  constructor
  · intro scope name arity
    have hfound := (hparts (unitOf scope)).macro?_eq scope name arity
    rw [if_pos (beq_self_eq_true _)] at hfound
    rw [hs.macro?_eq, definition?, h.authority?_eq howned, macro?, hother, hregistry]
    cases howns : g.owns scope with
    | true =>
      rw [if_pos rfl, Option.bind_some, hfound]
      cases g.macro? scope name arity with
      | some m => rfl
      | none => rfl
    | false =>
      have hnot : (s.registry (unitOf scope)).owns scope = false := by
        rw [(hparts (unitOf scope)).owns_eq, howns, Bool.and_false]
      rw [(hs.registries (unitOf scope)).macro?_of_not_owns hnot] at hfound
      rw [← hfound]
      rfl
  · intro scope
    have htable := (hparts (unitOf scope)).table?_eq scope
    rw [if_pos (beq_self_eq_true _)] at htable
    rw [dependenciesOf, dependenciesOf, hs.declarationsFor_eq, declarations?, h.authority?_eq howned,
      declarationsFor_of_alone (hother scope), hregistry]
    cases howns : g.owns scope with
    | true => rw [if_pos rfl, Option.bind_some, htable]
    | false =>
      have hnone : g.table? scope = none := by simpa [Registry.owns] using howns
      rw [hnone]
      rfl

end Spread

theorem registry_single (unit : String) (inSession : Bool) :
    (single unit inSession : Session β).registry 0 = { unit, inSession } :=
  rfl

/-- How scopes are spread over units makes no difference to what calls mean. Let a single registry carry out some
operations, none of which keeps a scope from being published, and let it refuse none. Let each scope that they are about
belong to one of the units up to `last`. Then the units can be built one by one in one session, each with the operations
in its own scopes, in the same order, and all but the last can be published; no operation is refused, and every call
means to the last unit what it means to the single registry. -/
theorem lookup_unitByUnit {whole : String} {inSession : Bool} {ops : List (Operation β)} {s : Session β}
    (hall : (single whole inSession).carryOut 0 ops = .ok s) (hops : ∀ op ∈ ops, op.hides = false)
    (unit : Nat → String) {unitOf : String → Nat} {last : Nat} (hunits : ∀ op ∈ ops, unitOf op.scope ≤ last) :
    ∃ s', unitByUnit unit unitOf ops last = .ok s' ∧
      ∀ caller name arity c module?,
        s'.lookup last caller name arity c module? = s.lookup 0 caller name arity c module? := by
  have hwritable : ∀ op ∈ ops, (single whole inSession : Session β).Writable 0 op.scope := fun op _ =>
    ⟨rfl, fun _ => rfl⟩
  rw [carryOut_eq (Nat.zero_lt_one) hwritable hops, registry_single] at hall
  cases hrun : ops.foldlM Registry.apply ({ unit := whole, inSession } : Registry β) with
  | error e => rw [hrun] at hall; cases hall
  | ok g =>
    rw [hrun] at hall
    cases hall
    obtain ⟨s', hs', hspread⟩ := Spread.unitByUnit hrun hops last
    refine ⟨s', hs', fun caller name arity c module? => ?_⟩
    have hconsistent := (reaches_unitByUnit hs').consistent consistent_empty
    refine (hspread.sameMacros hconsistent (fun i hi => ?_) rfl rfl).lookup_eq ..
    -- no operation is about a scope of a later unit
    obtain ⟨g', hnothing, hpart⟩ := (Registry.part_new (unitOf · == i) whole "" inSession true).applyAll hrun
    have hfilter : ops.filter (fun op => unitOf op.scope == i) = [] := by
      refine List.filter_eq_nil_iff.2 fun op hop => ?_
      have := hunits op hop
      simp only [beq_iff_eq]
      omega
    rw [hfilter] at hnothing
    cases hnothing
    exact hpart

/-- `App` imports `Lib`, which imports `Base`, a unit each. Code from a quote of `Lib` that stands in `App` calls a
macro of `Base`. -/
theorem lookup_unitByUnit_imported :
    let shift : Macro Unit := { scope := "Base", name := "shift", params := ["x"], body := () }
    let ops : List (Operation Unit) := [.addDependency "App" "Lib" .direct true, .register shift,
      .define "Lib" "twice" [.var "x" .direct {}] () "public" {}, .addDependency "Lib" "Base" .direct true]
    let unitOf (scope : String) : Nat := if scope = "Base" then 0 else if scope = "Lib" then 1 else 2
    (∀ op ∈ ops, op.hides = false) ∧ (∀ op ∈ ops, unitOf op.scope ≤ 2) ∧
    ∃ s s', (single "all.mex" false).carryOut 0 ops = .ok s ∧ unitByUnit (fun _ => "part.mex") unitOf ops 2 = .ok s' ∧
      s'.published = [("Base", 0), ("Lib", 1)] ∧
      s'.lookup 2 "App" "shift" 1 (.quotedIn "Lib") none = some shift := by
  intro shift ops unitOf
  have hops : ∀ op ∈ ops, op.hides = false := by simp [ops, Operation.hides]
  have hunits : ∀ op ∈ ops, unitOf op.scope ≤ 2 := by decide
  obtain ⟨s, hall⟩ : ∃ s, (single "all.mex" false).carryOut 0 ops = .ok s := ⟨_, rfl⟩
  obtain ⟨s', hunit, hlookup⟩ := lookup_unitByUnit hall hops (fun _ => "part.mex") hunits
  refine ⟨hops, hunits, s, s', hall, hunit, ?_, ?_⟩
  · cases hunit
    rfl
  · rw [hlookup]
    cases hall
    rfl

end Session

end MacroLang
