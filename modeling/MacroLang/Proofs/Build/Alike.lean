import MacroLang.Proofs.Build.Forms
import MacroLang.Proofs.Expansion.MoreMacros

/-!
# Building does not read the log

States in which a unit is being compiled are alike if they differ in the log and the warnings only. Everything that is
done to compile a unit has the same outcome in alike states and leaves them alike: macros are registered, forms
expanded, modules loaded (`Build.alike_module`), scripts run and units published.
-/

namespace MacroLang

open Compilation

/-- The state `b'` is `b` with another log and other warnings. -/
def Building.Alike (b b' : Building) : Prop :=
  ∃ c, b.compilation.Alike c ∧ b' = { b with compilation := c }

namespace Building.Alike

variable {b b' b'' : Building}

theorem refl (b : Building) : b.Alike b :=
  ⟨b.compilation, .refl _, rfl⟩

theorem symm (h : b.Alike b') : b'.Alike b := by
  obtain ⟨c, hc, rfl⟩ := h
  exact ⟨b.compilation, hc.symm, rfl⟩

theorem trans (h : b.Alike b') (h' : b'.Alike b'') : b.Alike b'' := by
  obtain ⟨c, hc, rfl⟩ := h
  obtain ⟨c', hc', rfl⟩ := h'
  exact ⟨c', hc.trans hc', rfl⟩

end Building.Alike

namespace Expand

theorem alike_onWorld {α : Type} {code : EStateM Error World α} (h : Concurs World.Alike code) :
    Concurs Alike (onWorld code : Compile α) := by
  intro c c' hc
  exact (concurs_onWorld h ((ahead_nil 0).2 hc)).mono fun _ _ => (ahead_nil 0).1

theorem alike_setSession (s : Session MacroBody) : Concurs Alike (setSession s) := by
  refine .modify ?_
  rintro c _ ⟨log, warnings, rfl⟩
  exact ⟨log, warnings, rfl⟩

theorem alike_debug (text : String) : Concurs Alike (modify (·.debug text) : Compile PUnit) := by
  refine .modify ?_
  rintro c _ ⟨log, warnings, rfl⟩
  exact ⟨_, warnings, rfl⟩

theorem alike_warn (notice : Notice) (w : Warning) : Concurs Alike (warn notice w : Compile Unit) := by
  refine .modify ?_
  rintro c _ ⟨log, warnings, rfl⟩
  exact ⟨_, _, rfl⟩

theorem alike_register (r : Nat) (m : Macro MacroBody) : Concurs Alike (register r m) := by
  refine .reading (fun c => ?_) ?_
  · exact .andThen (.ofExcept _) fun s => .andThen (alike_setSession s) fun _ => alike_debug _
  · rintro c _ ⟨log, warnings, rfl⟩
    rfl

end Expand

theorem alike_report (o : Settings) (text : String) : Concurs Alike (report o text) := by
  unfold report
  split
  · refine .modify ?_
    rintro c _ ⟨log, warnings, rfl⟩
    exact ⟨_, warnings, rfl⟩
  · exact .pure _

namespace Build

variable {o : Settings} {x : Expander MacroBody} {onModule : List Value → Info → Build Unit} {scope : String}

theorem concur_lift {α : Type} {R : Compilation MacroBody → Compilation MacroBody → Prop}
    {S : Building → Building → Prop} {code : Compile α} {b b' : Building}
    (h : Concur R (code b.compilation) (code b'.compilation))
    (hstates : ∀ c c', R c c' → S { b with compilation := c } { b' with compilation := c' }) :
    Concur S (lift code b) (lift code b') := by
  unfold lift
  generalize code b.compilation = result at h
  generalize code b'.compilation = result' at h
  cases h with
  | ok hc => exact .ok (hstates _ _ hc)
  | error hc => exact .error (hstates _ _ hc)

theorem concurs_lift {α : Type} {code : Compile α} (h : Concurs Alike code) : Concurs Building.Alike (lift code) := by
  rintro b _ ⟨c, hc, rfl⟩
  exact concur_lift (h hc) fun c₁ c₁' hc₁ => ⟨c₁', hc₁, rfl⟩

/-- What is left to do may depend on the state, but for the log and the warnings. -/
theorem concurs_reading {α : Type} {next : Building → Build α} (h : ∀ b, Concurs Building.Alike (next b))
    (hsame : ∀ b log warnings, next { b with compilation :=
      { b.compilation with world := { b.compilation.world with log }, warnings } } = next b) :
    Concurs Building.Alike (get >>= next) := by
  refine .reading h ?_
  rintro b _ ⟨c, ⟨log, warnings, rfl⟩, rfl⟩
  exact hsame b log warnings

theorem alike_defineMacro (r : Nat) (scope form : String) (args : List Value) (info : Info) :
    Concurs Building.Alike (defineMacro r scope form args info) := by
  refine .andThen (.ofExcept _) fun d => concurs_reading (fun b => ?_) fun _ _ _ => rfl
  refine .andThen (.ofExcept _) fun session => ?_
  exact .andThen (concurs_lift (Expand.alike_setSession _)) fun _ => concurs_lift (Expand.alike_register _ _)

theorem alike_items (r : Nat) (hmodule : ∀ args info, Concurs Building.Alike (onModule args info)) (vs : List Value) :
    Concurs Building.Alike (items r onModule scope vs) :=
  (laws_concurs Building.Alike).items hmodule (alike_defineMacro r scope) vs

theorem alike_forms (hx : x.Oblivious) (hmodule : ∀ args info, Concurs Building.Alike (onModule args info))
    (vs : List Value) : Concurs Building.Alike (forms x onModule scope vs) :=
  (laws_concurs Building.Alike).forms hmodule (alike_defineMacro x.registry scope)
    (fun v => concurs_lift (Expander.alike_expand hx scope v)) vs

theorem alike_warnShadowed (module : String) (fs : List Function) :
    Concurs Building.Alike (warnShadowed x module fs) := by
  induction fs with
  | nil => exact .pure _
  | cons f fs ih =>
    refine concurs_reading (fun b => ?_) fun _ _ _ => rfl
    split
    · exact .andThen (concurs_lift (Expand.alike_warn _ _)) fun _ => ih
    · exact ih

theorem alike_checkNew (r : Nat) (name : String) (info : Info) : Concurs Building.Alike (checkNew r name info) := by
  refine concurs_reading (fun b => ?_) fun _ _ _ => rfl
  dsimp only
  split
  · exact .throw _
  · exact .pure _

theorem alike_modify {f : Building → Building}
    (hf : ∀ b c, f { b with compilation := c } = { f b with compilation := c }) :
    Concurs Building.Alike (modify f : Build PUnit) := by
  refine .modify ?_
  rintro b _ ⟨c, hc, rfl⟩
  refine ⟨c, ?_, hf b c⟩
  have hkept := congrArg Building.compilation (hf b b.compilation)
  have hsame : (f b).compilation = b.compilation := hkept
  rw [hsame]
  exact hc

/-! ## Modules -/

/-- A module stands in no other module. -/
def refuseModule (name : String) (_ : List Value) (info : Info) : Build Unit :=
  throw ((Cause.nestedModule name).on info)

/-- Opens the scope of a module that is to be compiled, and returns its name. -/
def openModule (o : Settings) (x : Expander MacroBody) (first : Value) (info : Info) : Build String := do
  let name ← ofExcept (moduleName info first)
  checkNew x.registry name info
  let session ← ofExcept ((← get).compilation.session.openScope x.registry name)
  lift (Expand.setSession session)
  modify fun b => { b with modules := b.modules ++ [name] }
  lift (report o ("Compiling module " ++ name))
  lift (report o ("Expanding " ++ name))
  return name

/-- Loads a module whose body is expanded. -/
def loadModule (o : Settings) (x : Expander MacroBody) (name : String) (kept : List Value) : Build Unit := do
  modify fun b => { b with expanded := b.expanded ++ [(name, kept)] }
  lift (report o ("Lowering " ++ name))
  let link := o.linkage (← get).compilation.session
  lift (Expand.onWorld (World.load link name kept (some (.registered x.registry name))))
  modify fun b => { b with loaded := name :: b.loaded }
  let functions := ((← get).compilation.world.module? name).map (·.functions)
  warnShadowed x name (functions.getD [])

/-- A module is compiled in three parts: its scope is opened, its body is expanded and it is loaded. -/
theorem module_cons (o : Settings) (x : Expander MacroBody) (first : Value) (body : List Value) (info : Info) :
    module o x (first :: body) info = (do
      let name ← openModule o x first info
      let kept ← forms x (refuseModule name) name body
      loadModule o x name kept) := by
  simp only [module, openModule, expandScope, loadModule, bind_assoc, pure_bind]
  rfl

theorem alike_openModule (first : Value) (info : Info) : Concurs Building.Alike (openModule o x first info) := by
  refine .andThen (.ofExcept _) fun name => .andThen (alike_checkNew _ _ _) fun _ => ?_
  refine concurs_reading (fun b => ?_) fun _ _ _ => rfl
  refine .andThen (.ofExcept _) fun session => .andThen (concurs_lift (Expand.alike_setSession _)) fun _ => ?_
  refine .andThen (alike_modify fun _ _ => rfl) fun _ => .andThen (concurs_lift (alike_report _ _)) fun _ => ?_
  exact .andThen (concurs_lift (alike_report _ _)) fun _ => .pure _

theorem alike_loadModule (name : String) (kept : List Value) : Concurs Building.Alike (loadModule o x name kept) := by
  refine .andThen (alike_modify fun _ _ => rfl) fun _ => ?_
  refine .andThen (concurs_lift (alike_report _ _)) fun _ => concurs_reading (fun b => ?_) fun _ _ _ => rfl
  refine .andThen (concurs_lift (Expand.alike_onWorld ?_)) fun _ => ?_
  · exact World.concurs_load (Eval.callsAlike_within _ _) _ _ _
  · refine .andThen (alike_modify fun _ _ => rfl) fun _ => concurs_reading (fun b => ?_) fun _ _ _ => rfl
    exact alike_warnShadowed _ _

theorem alike_module (hx : x.Oblivious) (args : List Value) (info : Info) :
    Concurs Building.Alike (module o x args info) := by
  cases args with
  | nil => exact .throw _
  | cons first body =>
    rw [module_cons]
    refine .andThen (alike_openModule first info) fun name => ?_
    exact .andThen (alike_forms hx (fun _ _ => .throw _) body) fun kept => alike_loadModule name kept

/-! ## Units -/

theorem alike_runForms (r : Nat) (vs : List Value) : Concurs Alike (runForms o r vs) := by
  refine .andThen (alike_report _ _) fun _ => .reading (fun c => ?_) ?_
  · exact Expand.alike_onWorld (World.concurs_script (Eval.callsAlike_within _ _) _ _)
  · rintro c _ ⟨log, warnings, rfl⟩
    rfl

theorem alike_publish (r : Nat) : Concurs Alike (publish r) := by
  refine .reading (fun c => ?_) ?_
  · refine .andThen (Expand.alike_setSession _) fun _ => .andThen (.ofExcept _) fun _ => ?_
    exact Expand.alike_debug _
  · rintro c _ ⟨log, warnings, rfl⟩
    rfl

/-- What is done to a unit whose script is expanded. -/
def finishScript (o : Settings) (x : Expander MacroBody) (runScript : Bool) (script : List Value) : Build Value := do
  modify fun b => { b with expanded := b.expanded ++ [(scriptScope, script)] }
  let result ← if runScript then lift (runForms o x.registry script) else pure .nil
  lift (publish x.registry)
  return result

theorem unit_eq (o : Settings) (x : Expander MacroBody) (runScript : Bool) (vs : List Value) :
    unit o x runScript vs = (do
      lift (report o ("Expanding " ++ scriptScope))
      let script ← forms x (module o x) scriptScope vs
      finishScript o x runScript script) := by
  simp only [unit, expandScope, finishScript, bind_assoc]

theorem alike_finishScript (runScript : Bool) (script : List Value) :
    Concurs Building.Alike (finishScript o x runScript script) := by
  refine .andThen (alike_modify fun _ _ => rfl) fun _ => ?_
  have hpublish : ∀ result, Concurs Building.Alike (do lift (publish x.registry); return result) :=
    fun result => .andThen (concurs_lift (alike_publish _)) fun _ => .pure (result : Value)
  dsimp only
  split
  · exact .andThen (concurs_lift (alike_runForms _ _)) hpublish
  · exact hpublish .nil

end Build

end MacroLang
