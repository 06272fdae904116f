import Mathlib.Tactic.ByContra
import MacroLang.Proofs.Registry.Invariant

/-!
# Frozen registries

A frozen registry refuses macros and new scopes. It does not refuse every change: in a scope that it has, it still
records new declarations, and it still hides the scope (`Session.Overlooks`). These are the only operations whose effect
can be seen afterwards, from the registry itself or from any other one of the session (`Session.SameAnswers`), and they
end without an error. Whatever else a frozen registry is asked for, all answers stay the same.

Main statement: `frozen_sameAnswers_iff`. Two registries answer alike if they show the same macros, declarations and
scopes (`Registry.Alike`).
-/

namespace MacroLang

variable {β : Type}

namespace Declarations

/-- A dependency is recorded just if it is new. -/
theorem addDependency_eq_self {new : Dependency} {ds : List Dependency} : addDependency new ds = ds ↔ new ∈ ds := by
  unfold addDependency
  by_cases hnew : new ∈ ds
  · simp [hnew]
  · simp [hnew]

/-- So is an import or a requirement. -/
theorem addImport_or_addRequire_eq_self (d : Declarations) (module : String) (c : Context) (imported : Bool) :
    (if imported then d.addImport module c else d.addRequire module c) = d ↔
      ⟨module, c⟩ ∈ if imported then d.imported else d.required := by
  cases d with
  | mk scope aliases imports requirements =>
    cases imported with
    | true => simp [addImport, addDependency_eq_self]
    | false => simp [addRequire, addDependency_eq_self]

theorem scope_addImport_or_addRequire {d : Declarations} {scope module : String} {c : Context} {imported : Bool}
    (h : d.scope = scope) : (if imported then d.addImport module c else d.addRequire module c).scope = scope := by
  split
  · exact h
  · exact h

end Declarations

/-- The registries show the same. They may differ in the scopes that they would hide, if they had them. -/
structure Registry.Alike (g g' : Registry β) : Prop where
  inSession : g'.inSession = g.inSession
  frozen : g'.frozen = g.frozen
  macros : g'.macros = g.macros
  tables : ∀ scope, g'.table? scope = g.table? scope
  shared : g'.sharedScopes = g.sharedScopes

theorem Registry.Alike.refl (g : Registry β) : g.Alike g :=
  ⟨rfl, rfl, rfl, fun _ => rfl, rfl⟩

theorem Registry.Alike.trans {g g' g'' : Registry β} (h : g.Alike g') (h' : g'.Alike g'') : g.Alike g'' where
  inSession := h'.inSession.trans h.inSession
  frozen := h'.frozen.trans h.frozen
  macros := h'.macros.trans h.macros
  tables scope := (h'.tables scope).trans (h.tables scope)
  shared := h'.shared.trans h.shared

/-- The declarations of a scope are replaced by the same ones. -/
theorem Registry.alike_updateTable (g : Registry β) {scope : String} {f : Declarations → Declarations}
    (hf : ∀ d, d.scope = scope → (f d).scope = scope) (hsame : ∀ d, g.table? scope = some d → f d = d) :
    g.Alike (g.updateTable scope f) where
  inSession := rfl
  frozen := rfl
  macros := rfl
  tables other := by
    rw [table?_updateTable g hf]
    split
    · rename_i ho
      rw [ho]
      cases hd : g.table? scope with
      | none => rfl
      | some d => rw [Option.map_some, hsame d hd]
    · rfl
  shared := by
    unfold sharedScopes
    rw [scopes_updateTable g hf]
    rfl

namespace Session

variable {s s' s'' : Session β} {r : Nat} {scope : String}

/-- All that can be asked of the registries has the same answer in both sessions. -/
structure SameAnswers (s s' : Session β) : Prop where
  lookup : ∀ r caller name arity c module?,
    s'.lookup r caller name arity c module? = s.lookup r caller name arity c module?
  declarations : ∀ r scope, s'.declarationsFor r scope = s.declarationsFor r scope
  aliases : ∀ r scope module c, s'.resolveAlias r scope module c = s.resolveAlias r scope module c
  dependencies : ∀ r scope module c, s'.dependsOn r scope module c = s.dependsOn r scope module c
  shared : ∀ r, (s'.registry r).sharedScopes = (s.registry r).sharedScopes

/-- The operation declares something new in a scope that registry `r` has, or hides such a scope. -/
def Overlooks (s : Session β) (r : Nat) : Operation β → Prop
  | .addAlias scope module short? c => ∃ d previous d', (s.registry r).table? scope = some d ∧
      d.addAlias module short? c = .ok (previous, d') ∧ d' ≠ d
  | .addDependency scope module c imported => ∃ d, (s.registry r).table? scope = some d ∧
      ⟨module, c⟩ ∉ if imported then d.imported else d.required
  | .hideScope scope => scope ∈ (s.registry r).sharedScopes
  | _ => False

/-! ## Sessions that answer alike -/

/-- The same scopes are published, and the registries show the same. -/
structure Alike (s s' : Session β) : Prop where
  published : s'.published = s.published
  registries : ∀ r, (s.registry r).Alike (s'.registry r)

theorem Alike.refl (s : Session β) : s.Alike s :=
  ⟨rfl, fun r => .refl (s.registry r)⟩

theorem Alike.trans (h : s.Alike s') (h' : s'.Alike s'') : s.Alike s'' :=
  ⟨h'.published.trans h.published, fun r => (h.registries r).trans (h'.registries r)⟩

theorem alike_update {f : Registry β → Registry β} (h : (s.registry r).Alike (f (s.registry r))) :
    s.Alike (s.update r f) := by
  rcases Nat.lt_or_ge r s.registries.length with hr | hr
  · refine ⟨rfl, fun q => ?_⟩
    rw [registry_update s hr]
    split
    · rename_i hq
      rw [hq]
      exact h
    · exact .refl _
  · rw [update_of_le s f hr]
    exact .refl s

/-- What is read from another unit's registry is the same if the registries show the same. -/
theorem Alike.otherRegistry?_bind (h : s.Alike s') {α : Type} (read : Registry β → Option α)
    (hread : ∀ q, read (s'.registry q) = read (s.registry q)) (r : Nat) (scope : String) :
    (s'.otherRegistry? r scope).bind read = (s.otherRegistry? r scope).bind read := by
  unfold otherRegistry? publisher?
  rw [(h.registries r).inSession, h.published]
  split
  · cases s.published.lookup scope with
    | none => rfl
    | some q =>
      by_cases hq : q = r
      · simp [hq]
      · simp [hq, hread]
  · rfl

theorem Alike.declarationsFor_eq (h : s.Alike s') (r : Nat) (scope : String) :
    s'.declarationsFor r scope = s.declarationsFor r scope := by
  have hother := h.otherRegistry?_bind (·.table? scope) (fun q => (h.registries q).tables scope) r scope
  unfold declarationsFor
  rw [(h.registries r).tables, hother]

theorem Alike.sameMacros (h : s.Alike s') (r : Nat) : SameMacros s r s' r := by
  refine ⟨fun scope name arity => ?_, fun scope => ?_⟩
  · have hmacros : ∀ q, (s'.registry q).macro? scope name arity = (s.registry q).macro? scope name arity := by
      intro q
      rw [Registry.macro?, (h.registries q).macros]
      rfl
    have hother := h.otherRegistry?_bind (·.macro? scope name arity) hmacros r scope
    unfold macro?
    rw [hmacros, hother, Registry.owns, (h.registries r).tables]
    rfl
  · rw [dependenciesOf, h.declarationsFor_eq, dependenciesOf]

theorem Alike.sameAnswers (h : s.Alike s') : s.SameAnswers s' where
  lookup r := (h.sameMacros r).lookup_eq
  declarations := h.declarationsFor_eq
  aliases r scope module c := by rw [resolveAlias, h.declarationsFor_eq, resolveAlias]
  dependencies r scope module c := by rw [dependsOn, h.declarationsFor_eq, dependsOn]
  shared r := (h.registries r).shared

theorem Alike.overlooks_iff (h : s.Alike s') (op : Operation β) : s'.Overlooks r op ↔ s.Overlooks r op := by
  cases op with
  | addAlias scope module short? c => simp only [Overlooks, (h.registries r).tables]
  | addDependency scope module c imported => simp only [Overlooks, (h.registries r).tables]
  | hideScope scope => simp only [Overlooks, (h.registries r).shared]
  | _ => exact Iff.rfl

/-! ## Declarations in a scope of a frozen registry -/

theorem openScope_of_frozen (hfrozen : (s.registry r).frozen = true) (howns : (s.registry r).owns scope = false) :
    ∃ e, s.openScope r scope = .error e := by
  cases hopen : s.openScope r scope with
  | error e => exact ⟨e, rfl⟩
  | ok s' =>
    unfold openScope at hopen
    rw [howns, if_neg Bool.false_ne_true] at hopen
    obtain ⟨_, hwritable, -⟩ := except_bind_eq_ok.1 hopen
    rw [(checkWritable_eq_ok.1 hwritable).unfrozen] at hfrozen
    cases hfrozen

theorem register_of_frozen (hfrozen : (s.registry r).frozen = true) (m : Macro β) :
    ∃ e, s.register r m = .error e := by
  cases hregister : s.register r m with
  | error e => exact ⟨e, rfl⟩
  | ok s' =>
    rw [(register_eq_ok hregister).1.1.unfrozen] at hfrozen
    cases hfrozen

theorem addDependency_of_owns {module : String} {c : Context} {imported : Bool}
    (howns : (s.registry r).owns scope = true) :
    s.addDependency r scope module c imported = .ok (s.update r (·.updateTable scope fun d =>
      if imported then d.addImport module c else d.addRequire module c)) := by
  rw [addDependency, openScope_of_owns howns]
  rfl

theorem owns_of_table? {d : Declarations} (h : (s.registry r).table? scope = some d) :
    (s.registry r).owns scope = true := by
  rw [Registry.owns, h, Option.isSome_some]

/-- What was declared in a scope of a registry shows. -/
theorem declarationsFor_updateTable {f : Declarations → Declarations} {d : Declarations}
    (hr : r < s.registries.length) (hf : ∀ d, d.scope = scope → (f d).scope = scope)
    (hd : (s.registry r).table? scope = some d) :
    (s.update r (·.updateTable scope f)).declarationsFor r scope = some (f d) := by
  rw [declarationsFor, registry_update_self s r _ hr, Registry.table?_updateTable _ hf, if_pos rfl, hd]
  rfl

theorem declarationsFor_of_table? {d : Declarations} (hd : (s.registry r).table? scope = some d) :
    s.declarationsFor r scope = some d := by
  rw [declarationsFor, hd]

theorem perform_addAlias_of_owns {module : String} {short? : Option String} {c : Context}
    (howns : (s.registry r).owns scope = true) :
    s.perform r (.addAlias scope module short? c) = s.attempt (s.addAlias r scope module short? c) := by
  rw [perform, openScope_of_owns howns]

theorem mem_sharedScopes_hide {g : Registry β} {other : String} :
    scope ∈ Registry.sharedScopes { g with unshared := g.unshared ++ [other] } ↔
      scope ∈ g.sharedScopes ∧ scope ≠ other := by
  simp [Registry.sharedScopes, Registry.scopes, and_assoc]

/-- Hiding a scope that is not there, or hidden already, does not show. -/
theorem alike_hide {g : Registry β} (h : scope ∉ g.sharedScopes) :
    g.Alike { g with unshared := g.unshared ++ [scope] } where
  inSession := rfl
  frozen := rfl
  macros := rfl
  tables _ := rfl
  shared := by
    refine List.filter_congr fun other hother => ?_
    by_cases ho : other = scope
    · have hhidden : g.unshared.contains scope = true := by
        by_contra hshown
        exact h (List.mem_filter.2 ⟨ho ▸ hother, by simpa using hshown⟩)
      have hmem : scope ∈ g.unshared := by simpa using hhidden
      simp [ho, hmem]
    · simp [ho]

/-! ## Frozen registries -/

/-- A scope is there already, or it is refused. -/
theorem alike_openScope (hfrozen : (s.registry r).frozen = true) (scope : String) :
    s.Alike (s.attempt (s.openScope r scope)).1 := by
  cases howns : (s.registry r).owns scope with
  | false =>
    obtain ⟨e, he⟩ := openScope_of_frozen hfrozen howns
    rw [he]
    exact .refl s
  | true =>
    rw [openScope_of_owns howns]
    exact .refl s

theorem alike_register (hfrozen : (s.registry r).frozen = true) (m : Macro β) :
    s.Alike (s.attempt (s.register r m)).1 := by
  obtain ⟨e, he⟩ := register_of_frozen hfrozen m
  rw [he]
  exact .refl s

/-- An alias that is refused, or there already, does not show. -/
theorem alike_addAlias {module : String} {short? : Option String} {c : Context} {d : Declarations}
    (hd : (s.registry r).table? scope = some d)
    (hsame : ∀ previous d', d.addAlias module short? c = .ok (previous, d') → d' = d) :
    s.Alike (s.attempt (s.addAlias r scope module short? c)).1 := by
  rw [addAlias, table_of_table? hd]
  cases hadd : d.addAlias module short? c with
  | error e => exact .refl s
  | ok p =>
    have hp : p.2 = d := hsame p.1 p.2 hadd
    refine alike_update (Registry.alike_updateTable _ (fun _ _ => ?_) fun k hk => ?_)
    · rw [hp, Registry.scope_of_table? hd]
    · rw [hp]
      exact Option.some.inj (hd.symm.trans hk)

/-- An operation that is not overlooked does not show. -/
theorem alike_perform (hfrozen : (s.registry r).frozen = true) {op : Operation β} (h : ¬s.Overlooks r op) :
    s.Alike (s.perform r op).1 := by
  cases op with
  | register m => exact alike_register hfrozen m
  | define scope name params body visibility info =>
    rw [perform]
    cases Macro.readVisibility visibility with
    | error e => exact .refl s
    | ok isPublic => exact alike_register hfrozen _
  | openScope scope => exact alike_openScope hfrozen scope
  | addAlias scope module short? c =>
    cases howns : (s.registry r).owns scope with
    | false =>
      obtain ⟨e, he⟩ := openScope_of_frozen hfrozen howns
      rw [perform, he]
      exact .refl s
    | true =>
      obtain ⟨d, hd⟩ := Option.isSome_iff_exists.1 howns
      rw [perform_addAlias_of_owns howns]
      refine alike_addAlias hd fun previous d' hadd => ?_
      by_contra hne
      exact h ⟨d, previous, d', hd, hadd, hne⟩
  | addDependency scope module c imported =>
    cases howns : (s.registry r).owns scope with
    | false =>
      obtain ⟨e, he⟩ := openScope_of_frozen hfrozen howns
      rw [perform, addDependency, he]
      exact .refl s
    | true =>
      rw [perform, addDependency_of_owns howns]
      refine alike_update (Registry.alike_updateTable _ (fun _ => Declarations.scope_addImport_or_addRequire)
        fun d hd => ?_)
      rw [Declarations.addImport_or_addRequire_eq_self]
      by_contra hnew
      exact h ⟨d, hd, hnew⟩
  | hideScope scope =>
    have hhidden : s.Alike (s.hideScope r scope) := alike_update (alike_hide h)
    exact hhidden.trans (alike_openScope ((hhidden.registries r).frozen.trans hfrozen) scope)

theorem lt_of_frozen (h : (s.registry r).frozen = true) : r < s.registries.length := by
  by_contra hr
  rw [registry_of_le s (Nat.le_of_not_lt hr)] at h
  cases h

/-- One that is overlooked is carried out, and it shows. -/
theorem perform_of_overlooks (hfrozen : (s.registry r).frozen = true) {op : Operation β} (h : s.Overlooks r op) :
    (s.perform r op).2 = .ok () ∧ ¬s.SameAnswers (s.perform r op).1 := by
  have hr := lt_of_frozen hfrozen
  cases op with
  | addAlias scope module short? c =>
    obtain ⟨d, previous, d', hd, hadd, hne⟩ := h
    have hscope : d'.scope = scope := (Declarations.scope_of_addAlias hadd).trans (Registry.scope_of_table? hd)
    rw [perform_addAlias_of_owns (owns_of_table? hd), addAlias, table_of_table? hd, hadd]
    refine ⟨rfl, fun hsame => hne ?_⟩
    have hshown := hsame.declarations r scope
    rw [declarationsFor_of_table? hd] at hshown
    exact Option.some.inj ((declarationsFor_updateTable hr (fun _ _ => hscope) hd).symm.trans hshown)
  | addDependency scope module c imported =>
    obtain ⟨d, hd, hnew⟩ := h
    rw [perform, addDependency_of_owns (owns_of_table? hd)]
    refine ⟨rfl, fun hsame => hnew ?_⟩
    have hshown := hsame.declarations r scope
    rw [declarationsFor_of_table? hd] at hshown
    rw [← Declarations.addImport_or_addRequire_eq_self]
    refine Option.some.inj (Eq.trans (Eq.symm ?_) hshown)
    exact declarationsFor_updateTable hr (fun _ => Declarations.scope_addImport_or_addRequire) hd
  | hideScope scope =>
    have howns : ((s.hideScope r scope).registry r).owns scope = true := by
      rw [hideScope, registry_update_self s r _ hr]
      exact Registry.owns_iff.2 (List.mem_filter.1 h).1
    rw [perform, openScope_of_owns howns]
    refine ⟨rfl, fun hsame => ?_⟩
    have hshown := hsame.shared r
    change ((s.hideScope r scope).registry r).sharedScopes = _ at hshown
    rw [hideScope, registry_update_self s r _ hr] at hshown
    have hstill : scope ∈ (s.registry r).sharedScopes := h
    rw [← hshown, mem_sharedScopes_hide] at hstill
    exact hstill.2 rfl
  | _ => exact h.elim

theorem alike_performAll (hfrozen : (s.registry r).frozen = true) {operations : List (Operation β)}
    (h : ∀ op ∈ operations, ¬s.Overlooks r op) : s.Alike (s.performAll r operations) := by
  induction operations generalizing s with
  | nil => exact .refl s
  | cons op operations ih =>
    have hfirst := alike_perform hfrozen (h op List.mem_cons_self)
    refine hfirst.trans (ih ((hfirst.registries r).frozen.trans hfrozen) fun op' hop' => ?_)
    rw [hfirst.overlooks_iff]
    exact h op' (List.mem_cons_of_mem _ hop')

/-- A frozen registry, however it was frozen, is asked for any operations. The effect of one shows, in this registry or
in another one of the session, just if it declares something new in a scope that the registry has or hides such a scope;
and such an operation ends without an error. After any number of others all answers are the same as before. -/
theorem frozen_sameAnswers_iff (hfrozen : (s.registry r).frozen = true) :
    (∀ op, s.SameAnswers (s.perform r op).1 ↔ ¬s.Overlooks r op) ∧
      (∀ op, s.Overlooks r op → (s.perform r op).2 = .ok ()) ∧
      ∀ operations, (∀ op ∈ operations, ¬s.Overlooks r op) → s.SameAnswers (s.performAll r operations) := by
  refine ⟨fun op => ⟨fun hsame h => ?_, fun h => ?_⟩, fun op h => ?_, fun operations h => ?_⟩
  · exact (perform_of_overlooks hfrozen h).2 hsame
  · exact (alike_perform hfrozen h).sameAnswers
  · exact (perform_of_overlooks hfrozen h).1
  · exact (alike_performAll hfrozen h).sameAnswers

/-- Two registries opened one scope. The second one is frozen by the attempt to publish it, which fails. It refuses a
new scope, but records a new import. -/
theorem frozen_sameAnswers_iff_conflict :
    let s : Session Unit := ofCommands [.newRegistry "a.mex", .newRegistry "b.mex", .change 0 (.openScope "Lib"),
      .change 1 (.openScope "Lib"), .publish 0, .publish 1]
    (s.registry 1).frozen = true ∧ s.published = [("Lib", 0)] ∧
      s.SameAnswers (s.performAll 1 [.openScope "App", .hideScope "App"]) ∧
      ¬s.SameAnswers (s.perform 1 (.addDependency "Lib" "Base" .direct true)).1 := by
  intro s
  have hfrozen : (s.registry 1).frozen = true := by rfl
  obtain ⟨hiff, -, hall⟩ := frozen_sameAnswers_iff hfrozen
  refine ⟨hfrozen, by rfl, hall _ fun op hop => ?_, fun hsame => (hiff _).1 hsame ⟨{ scope := "Lib" }, by rfl, ?_⟩⟩
  · rcases List.mem_cons.1 hop with rfl | hop
    · exact id
    · rw [List.mem_singleton.1 hop]
      show "App" ∉ (s.registry 1).sharedScopes
      decide
  · exact List.not_mem_nil

/-- A unit defines a macro in one scope and opens another. Frozen, it still lets the second scope import the first, and
then the macro is found there. -/
theorem frozen_registry_imports :
    let m : Macro Unit := { scope := "Lib", name := "m", params := [], body := () }
    let s := ofCommands [.newRegistry "a.mex", .change 0 (.register m), .change 0 (.openScope "App"), .freeze 0]
    let (s', outcome) := s.perform 0 (.addDependency "App" "Lib" .direct true)
    (s.registry 0).frozen = true ∧ outcome = .ok () ∧
      s.lookup 0 "App" "m" 0 .direct none = none ∧ s'.lookup 0 "App" "m" 0 .direct none = some m := by
  refine ⟨by rfl, by rfl, by rfl, by rfl⟩

end Session

end MacroLang
