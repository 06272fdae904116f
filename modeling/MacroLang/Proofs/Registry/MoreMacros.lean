import MacroLang.Build.Unit
import MacroLang.Proofs.Registry.Contexts
import MacroLang.Proofs.Registry.Partition

/-!
# Registries with more macros

Macros that are added to a registry (`Session.withMacros`) hide none that are there already. A call by a name and with a
number of arguments that none of them has means the same with them as without (`lookup_withMacros`). Declarations do not
depend on macros at all: scopes are opened and dependencies recorded with the additional macros as without them.
-/

namespace MacroLang

variable {β : Type}

/-- The registry with more macros, after those that it has. -/
def Registry.withMacros (g : Registry β) (more : List (Macro β)) : Registry β :=
  { g with macros := g.macros ++ more }

theorem Registry.withMacros_nil (g : Registry β) : g.withMacros [] = g := by
  rw [withMacros, List.append_nil]

theorem Registry.withMacros_withMacros (g : Registry β) (more more' : List (Macro β)) :
    (g.withMacros more).withMacros more' = g.withMacros (more ++ more') := by
  rw [withMacros, withMacros, withMacros, List.append_assoc]

/-- A name and arity that no additional macro has. -/
theorem Registry.macro?_withMacros (g : Registry β) {more : List (Macro β)} (scope : String) {name : String}
    {arity : Nat} (h : ∀ m ∈ more, ¬(m.name = name ∧ m.arity = arity)) :
    (g.withMacros more).macro? scope name arity = g.macro? scope name arity := by
  have hnone : more.find? (·.hasKey scope name arity) = none := by
    refine List.find?_eq_none.2 fun m hm hkey => h m hm ?_
    simp only [Macro.hasKey, Bool.and_eq_true, beq_iff_eq] at hkey
    exact ⟨hkey.1.2, hkey.2⟩
  rw [macro?, withMacros, List.find?_append, hnone, Option.or_none, macro?]

theorem Registry.withTable_withMacros (g : Registry β) (more : List (Macro β)) (scope : String) :
    (g.withMacros more).withTable scope = (g.withTable scope).withMacros more := by
  show (if g.owns scope then _ else _) = _
  cases howns : g.owns scope with
  | true => rw [withTable_of_owns howns, if_pos rfl]
  | false => rw [withTable, howns]; rfl

namespace Session

/-- The session with more macros in a registry. -/
def withMacros (s : Session β) (r : Nat) (more : List (Macro β)) : Session β :=
  s.update r (·.withMacros more)

variable {s : Session β} {r : Nat} {more : List (Macro β)}

theorem withMacros_nil (s : Session β) (r : Nat) : s.withMacros r [] = s := by
  have hsame : s.withMacros r [] = s.update r fun _ => s.registry r := update_congr (Registry.withMacros_nil _)
  rw [hsame, update_registry]

theorem withMacros_withMacros (s : Session β) (r : Nat) (more more' : List (Macro β)) :
    (s.withMacros r more).withMacros r more' = s.withMacros r (more ++ more') := by
  rw [withMacros, withMacros, update_update]
  exact update_congr (Registry.withMacros_withMacros ..)

/-- A change of the registry that goes past the macros. -/
theorem update_withMacros (s : Session β) {f : Registry β → Registry β}
    (hf : ∀ g, f (g.withMacros more) = (f g).withMacros more) :
    (s.withMacros r more).update r f = (s.update r f).withMacros r more := by
  rw [withMacros, withMacros, update_update, update_update]
  exact update_congr (hf _)

/-- Each registry is as it was, or with the additional macros. -/
theorem exists_registry_withMacros (s : Session β) (r : Nat) (more : List (Macro β)) (q : Nat) :
    ∃ new, (∀ m ∈ new, m ∈ more) ∧ (s.withMacros r more).registry q = (s.registry q).withMacros new := by
  rcases Nat.lt_or_ge r s.registries.length with hr | hr
  · rw [withMacros, registry_update s hr]
    split
    · rename_i hq
      exact ⟨more, fun _ h => h, by rw [hq]⟩
    · exact ⟨[], nofun, (Registry.withMacros_nil _).symm⟩
  · rw [withMacros, update_of_le s _ hr]
    exact ⟨[], nofun, (Registry.withMacros_nil _).symm⟩

theorem table?_withMacros (s : Session β) (r : Nat) (more : List (Macro β)) (q : Nat) (scope : String) :
    ((s.withMacros r more).registry q).table? scope = (s.registry q).table? scope := by
  obtain ⟨new, -, hq⟩ := exists_registry_withMacros s r more q
  rw [hq]
  rfl

theorem owns_withMacros (s : Session β) (r : Nat) (more : List (Macro β)) (q : Nat) (scope : String) :
    ((s.withMacros r more).registry q).owns scope = (s.registry q).owns scope := by
  rw [Registry.owns, table?_withMacros, Registry.owns]

theorem table_withMacros (s : Session β) (r : Nat) (more : List (Macro β)) (scope : String) :
    (s.withMacros r more).table r scope = s.table r scope := by
  rw [table, table?_withMacros, table]

theorem checkWritable_withMacros (s : Session β) (r : Nat) (more : List (Macro β)) (scope : String) (info : Info) :
    (s.withMacros r more).checkWritable r scope info = s.checkWritable r scope info := by
  obtain ⟨new, -, hr⟩ := exists_registry_withMacros s r more r
  rw [checkWritable, hr]
  rfl

/-! ## Lookups -/

theorem declarationsFor_withMacros (s : Session β) (r : Nat) (more : List (Macro β)) (scope : String) :
    (s.withMacros r more).declarationsFor r scope = s.declarationsFor r scope := by
  have hother : Session.otherRegistry? (s.withMacros r more) r scope = s.otherRegistry? r scope :=
    otherRegistry?_update rfl scope
  rw [declarationsFor, table?_withMacros, hother, declarationsFor]

theorem resolveAlias_withMacros (s : Session β) (r : Nat) (more : List (Macro β)) (scope module : String)
    (c : Context) : (s.withMacros r more).resolveAlias r scope module c = s.resolveAlias r scope module c := by
  rw [resolveAlias, declarationsFor_withMacros, resolveAlias]

theorem macro?_withMacros (s : Session β) (r : Nat) {name : String} {arity : Nat}
    (h : ∀ m ∈ more, ¬(m.name = name ∧ m.arity = arity)) (scope : String) :
    (s.withMacros r more).macro? r scope name arity = s.macro? r scope name arity := by
  have hother : Session.otherRegistry? (s.withMacros r more) r scope = s.otherRegistry? r scope :=
    otherRegistry?_update rfl scope
  have hown : ((s.withMacros r more).registry r).macro? scope name arity = (s.registry r).macro? scope name arity := by
    obtain ⟨new, hnew, hr⟩ := exists_registry_withMacros s r more r
    rw [hr, Registry.macro?_withMacros _ scope fun m hm => h m (hnew m hm)]
  rw [macro?, hown, owns_withMacros, hother, macro?]

theorem lookup_withMacros (s : Session β) (r : Nat) {name : String} {arity : Nat}
    (h : ∀ m ∈ more, ¬(m.name = name ∧ m.arity = arity)) (caller : String) (c : Context) (module? : Option String) :
    (s.withMacros r more).lookup r caller name arity c module? = s.lookup r caller name arity c module? := by
  refine lookup_congr (macro?_withMacros s r h) ?_ fun origin _ => ?_
  · rw [declaredTo, declarationsFor_withMacros, declaredTo]
  · rw [declaredTo, declarationsFor_withMacros, declaredTo]

theorem imports_withMacros (s : Session β) (r : Nat) (more : List (Macro β)) :
    (s.withMacros r more).imports = s.imports := by
  funext source c
  cases source with
  | own d => rfl
  | registered unit scope => rw [imports, table?_withMacros, imports]

/-! ## Declarations -/

theorem openScope_withMacros (s : Session β) (r : Nat) (more : List (Macro β)) (scope : String) :
    (s.withMacros r more).openScope r scope = (s.openScope r scope).map (·.withMacros r more) := by
  rw [openScope, owns_withMacros, checkWritable_withMacros, openScope]
  split
  · rfl
  · cases s.checkWritable r scope {} with
    | error e => rfl
    | ok u => exact congrArg Except.ok (update_withMacros s fun g => Registry.withTable_withMacros g more scope)

theorem addDependency_withMacros (s : Session β) (r : Nat) (more : List (Macro β)) (scope module : String) (c : Context)
    (imported : Bool) :
    (s.withMacros r more).addDependency r scope module c imported =
      (s.addDependency r scope module c imported).map (·.withMacros r more) := by
  rw [addDependency, openScope_withMacros, addDependency]
  cases s.openScope r scope with
  | error e => rfl
  | ok s' => exact congrArg Except.ok (update_withMacros s' fun g => rfl)

/-! ## Registration -/

/-- A macro of a scope that the registry has is one macro more, and nothing else. -/
theorem eq_withMacros_of_register {s s' : Session β} {r : Nat} {m : Macro β}
    (howns : (s.registry r).owns m.scope = true) (h : s.register r m = .ok s') : s' = s.withMacros r [m] := by
  obtain ⟨-, rfl⟩ := register_eq_ok h
  exact update_congr (Registry.withTable_of_owns howns)

end Session

end MacroLang
