import MacroLang.Evaluation.Run
import MacroLang.Proofs.Evaluation.Laws
import MacroLang.Proofs.TwoRuns

/-!
# Private functions stay inside their module

A private function of a loaded module is applied by the code of that module only. This is said in two ways:

* one run: every application is watched, and one from outside the module would be replaced by any other code, the
  breach. Evaluation is the same under watch, so there is no such application (`Linkage.agreesWhereOpen_watched`);
* two runs: if a module has private functions only, code that starts outside of it comes to the same in a world in which
  that module has other private functions, or none (`Eval.conceals_laws`).

Main statement: `private_functions_stay_inside`.
-/

namespace MacroLang

/-! ## Activities -/

/-- What can be run in the world. -/
inductive Activity where
  | call (module name : String) (args : List Value) (info : Info)
  | script (home : Home) (forms : List Value)
  | load (name : String) (forms : List Value) (declarations : Option DeclarationSource)
  | runMacro (body : MacroBody) (args : List Value)

namespace Activity

def code (link : Linkage) : Activity → EStateM Error World Value
  | call module name args info => World.call link module name args info
  | script home forms => World.script link home forms
  | load name forms declarations => do
    World.load link name forms declarations
    return .nil
  | runMacro body args => World.runMacro link body args

/-- The module that the activity starts in. A call from outside starts in none that is loaded. -/
def home (w : World) : Activity → Home
  | call module _ _ _ => .unlisted { name := module }
  | script home _ => home
  | load name _ _ => .loaded name
  | runMacro body _ => .ofScope w body.scope body.declarations

end Activity

/-! ## One run, watched -/

/-- May the function of the module `home` be applied by code that runs in the module `caller`? A private function of a
loaded module is for that module only. -/
def Function.isOpenTo (f : Function) (home caller : Home) : Bool :=
  match home with
  | .loaded name => f.isPublic || caller.isLoadedAs name
  | .unlisted _ => true

theorem Function.isOpenTo_self (f : Function) (home : Home) : f.isOpenTo home home = true := by
  cases home with
  | loaded name => simp [isOpenTo, Home.isLoadedAs]
  | unlisted module => rfl

/-- Applies a function that is open to the code that applies it, and carries out `breach` for another one. -/
def Eval.watch (breach apply : Home → Function → List Value → Eval Value) (home : Home) (f : Function)
    (args : List Value) : Eval Value := do
  if f.isOpenTo home (← get).home then apply home f args else breach home f args

/-- As `applyWithin`, with all applications under watch. -/
def applyWatched (imported : Imports) (breach : Home → Function → List Value → Eval Value) :
    Nat → Home → Function → List Value → Eval Value
  | 0 => Eval.watch breach fun _ _ _ => throw .callDepth
  | depth + 1 => Eval.watch breach fun home f args =>
    Eval.inFrame home (Env.ofArgs f.params args)
      (evaluateBody ⟨imported, applyWatched imported breach depth⟩ .nil f.body)

namespace Linkage

/-- The linkage under which calls may nest at most `depth` deep and are watched. -/
def watched (imported : Imports) (breach : Home → Function → List Value → Eval Value) (depth : Nat) : Linkage where
  imported := imported
  apply := applyWatched imported breach depth

/-- The two linkages apply functions alike, provided that these are open to the code that applies them. -/
structure AgreesWhereOpen (link link' : Linkage) : Prop where
  imported : link'.imported = link.imported
  apply {home : Home} {f : Function} {m : Machine} (args : List Value) :
    f.isOpenTo home m.home = true → link'.apply home f args m = link.apply home f args m

end Linkage

namespace Eval

variable {link link' : Linkage}

theorem callLocal_eq (h : link.AgreesWhereOpen link') (name : String) (args : List Value) (info : Info) :
    callLocal link' name args info = callLocal link name args info := by
  funext m
  rw [callLocal, callLocal, get_bind, get_bind, h.imported]
  dsimp only
  cases (m.home.module m.world).function? name args.length with
  | some f => exact h.apply args (Function.isOpenTo_self f _)
  | none =>
    cases hfound : m.world.importedFunction? _ name args.length with
    | none => rfl
    | some found =>
      obtain ⟨_, -, -, hpublic⟩ := World.importedFunction?_eq_some hfound
      exact h.apply args (by rw [Function.isOpenTo, hpublic, Bool.true_or])

theorem callRemote_eq (h : link.AgreesWhereOpen link') {inside : Bool} {module : String} {m : Machine}
    (hinside : inside = true → m.home.isLoadedAs module = true) (name : String) (args : List Value) (info : Info) :
    callRemote link' inside module name args info m = callRemote link inside module name args info m := by
  unfold callRemote
  cases if module == "Kernel" then Builtin.find? name args.length else none with
  | some b => rfl
  | none =>
    dsimp only
    rw [callModule, callModule, get_bind, get_bind]
    cases m.world.module? module with
    | none => rfl
    | some k =>
      dsimp only
      cases k.function? name args.length with
      | none => rfl
      | some f =>
        dsimp only
        by_cases hreach : (f.isPublic || inside) = true
        · rw [if_pos hreach, if_pos hreach]
          refine h.apply args ?_
          rw [Function.isOpenTo, Bool.or_eq_true]
          exact (Bool.or_eq_true _ _ ▸ hreach).imp_right hinside
        · rw [if_neg hreach, if_neg hreach]

/-- Linkages that differ on breaches only cannot be told apart by evaluation. -/
theorem agree_laws (h : link.AgreesWhereOpen link') :
    Laws link link' (fun _ => True) (fun _ => True) (fun _ => True) fun _ code code' => code' = code where
  pure _ := rfl
  throw _ _ := rfl
  andThen hcode hnext := by rw [hcode, funext hnext]
  atHome _ _ := rfl
  lookup _ _ := rfl
  bind _ _ := rfl
  define _ := rfl
  callLocal := callLocal_eq h
  callRemote module name args info := funext fun _ => callRemote_eq h id name args info

theorem evaluateBody_eq (h : link.AgreesWhereOpen link') (last : Value) (forms : List Value) :
    evaluateBody link' last forms = evaluateBody link last forms :=
  (agree_laws h).evaluateBody last fun _ _ =>
    (agree_laws h).evaluate ⟨fun _ _ => trivial, fun _ _ => trivial⟩ fun _ _ => trivial

theorem watch_eq {breach apply : Home → Function → List Value → Eval Value} {home : Home} {f : Function} {m : Machine}
    (h : f.isOpenTo home m.home = true) (args : List Value) :
    watch breach apply home f args m = apply home f args m := by
  rw [watch, get_bind, if_pos h]

end Eval

/-- By induction on how deep calls may nest: the body of a function is evaluated with one level less. -/
theorem Linkage.agreesWhereOpen_watched (imported : Imports) (breach : Home → Function → List Value → Eval Value)
    (depth : Nat) : (Linkage.within imported depth).AgreesWhereOpen (.watched imported breach depth) := by
  refine ⟨rfl, fun {home f m} args hopen => ?_⟩
  show applyWatched imported breach depth home f args m = applyWithin imported depth home f args m
  induction depth generalizing home f args m with
  | zero => exact Eval.watch_eq hopen args
  | succ depth ih =>
    have hagrees :
        AgreesWhereOpen ⟨imported, applyWithin imported depth⟩ ⟨imported, applyWatched imported breach depth⟩ :=
      ⟨rfl, fun args hopen => ih args hopen⟩
    rw [applyWatched, Eval.watch_eq hopen, Eval.evaluateBody_eq hagrees, applyWithin]

namespace World

variable {link link' : Linkage}

theorem script_eq (h : link.AgreesWhereOpen link') (home : Home) (forms : List Value) :
    script link' home forms = script link home forms := by
  rw [script, Eval.evaluateBody_eq h, script]

theorem load_eq (h : link.AgreesWhereOpen link') (name : String) (forms : List Value)
    (declarations : Option DeclarationSource) :
    load link' name forms declarations = load link name forms declarations := by
  unfold load
  rw [script_eq h]

theorem call_eq (h : link.AgreesWhereOpen link') (module name : String) (args : List Value) (info : Info) :
    call link' module name args info = call link module name args info := by
  funext w
  rw [call, call, runIn, runIn, Eval.callRemote_eq h fun hinside : false = true => nomatch hinside]

theorem runMacro_eq (h : link.AgreesWhereOpen link') (body : MacroBody) (args : List Value) :
    runMacro link' body args = runMacro link body args := by
  unfold runMacro
  rw [Eval.evaluateBody_eq h]

end World

theorem Activity.code_eq {link link' : Linkage} (h : link.AgreesWhereOpen link') (a : Activity) :
    a.code link' = a.code link := by
  cases a with
  | call module name args info => exact World.call_eq h module name args info
  | script home forms => exact World.script_eq h home forms
  | load name forms declarations => rw [code, World.load_eq h, code]
  | runMacro body args => exact World.runMacro_eq h body args

/-! ## Two runs, with other private functions -/

/-- The module with other functions, if it has the name. -/
def Module.withFunctions (name : String) (fs : List Function) (m : Module) : Module :=
  if m.name = name then { m with functions := fs } else m

theorem Module.withFunctions_of_ne {name : String} {m : Module} (h : m.name ≠ name) (fs : List Function) :
    m.withFunctions name fs = m :=
  if_neg h

theorem Module.name_withFunctions (name : String) (fs : List Function) (m : Module) :
    (m.withFunctions name fs).name = m.name := by
  unfold withFunctions
  split
  · rfl
  · rfl

namespace World

variable {name : String} {fs : List Function} {w : World}

/-- The world in which the loaded module of a name has other functions. -/
def withFunctions (name : String) (fs : List Function) (w : World) : World :=
  { w with modules := w.modules.map (·.withFunctions name fs) }

/-- All functions of the module of a name are private. -/
def OnlyPrivate (name : String) (w : World) : Prop :=
  ∀ m ∈ w.modules, m.name = name → ∀ f ∈ m.functions, f.isPublic = false

theorem module?_withFunctions (w : World) (name : String) (fs : List Function) (module : String) :
    (w.withFunctions name fs).module? module = (w.module? module).map (·.withFunctions name fs) := by
  unfold module? withFunctions
  rw [List.find?_map]
  congr 2
  funext m
  rw [Function.comp_apply, Module.name_withFunctions]

theorem module?_withFunctions_of_ne (w : World) (fs : List Function) {module : String} (h : module ≠ name) :
    (w.withFunctions name fs).module? module = w.module? module := by
  rw [module?_withFunctions]
  cases hm : w.module? module with
  | none => rfl
  | some m => exact congrArg some (Module.withFunctions_of_ne (name_of_module? hm ▸ h) fs)

theorem isLoaded_withFunctions (w : World) (name : String) (fs : List Function) (module : String) :
    (w.withFunctions name fs).isLoaded module = w.isLoaded module := by
  rw [isLoaded, module?_withFunctions, Option.isSome_map, isLoaded]

/-- A module with private functions only offers nothing, whatever they are. -/
theorem OnlyPrivate.isPublic_eq (h : w.OnlyPrivate name) {m : Module} (hm : w.module? name = some m) {called : String}
    {arity : Nat} {f : Function} (hf : m.function? called arity = some f) : f.isPublic = false :=
  h m (List.mem_of_find?_eq_some hm) (name_of_module? hm) f (List.mem_of_find?_eq_some hf)

theorem OnlyPrivate.offers_none (h : w.OnlyPrivate name) (called : String) (arity : Nat) :
    (do
      let m ← w.module? name
      let f ← m.function? called arity
      if f.isPublic then some (name, f) else none) = none := by
  cases hm : w.module? name with
  | none => rfl
  | some m =>
    cases hf : m.function? called arity with
    | none => simp [hf]
    | some f => simp [hf, h.isPublic_eq hm hf]

theorem OnlyPrivate.withFunctions (w : World) (name : String) (hfs : ∀ f ∈ fs, f.isPublic = false) :
    (w.withFunctions name fs).OnlyPrivate name := by
  intro m hm hname
  obtain ⟨k, -, rfl⟩ := List.mem_map.1 hm
  rw [Module.name_withFunctions] at hname
  rw [Module.withFunctions, if_pos hname]
  exact hfs

theorem OnlyPrivate.updateModule (h : w.OnlyPrivate name) {module : String} (hne : module ≠ name) {f : Module → Module}
    (hf : ∀ m, (f m).name = m.name) : (w.updateModule module f).OnlyPrivate name := by
  intro m hm hname
  obtain ⟨k, hk, rfl⟩ := List.mem_map.1 hm
  split at hname
  · rename_i heq
    exact absurd ((eq_of_beq heq).symm.trans ((hf k).symm.trans hname)) hne
  · rename_i heq
    rw [if_neg heq]
    exact h k hk hname

theorem updateModule_withFunctions {module : String} (hne : module ≠ name) {f : Module → Module}
    (hf : ∀ m, (f m).name = m.name) :
    (w.withFunctions name fs).updateModule module f = (w.updateModule module f).withFunctions name fs := by
  unfold updateModule withFunctions
  simp only [List.map_map]
  congr 1
  refine List.map_congr_left fun m _ => ?_
  by_cases hname : m.name = name
  · have hother : m.name ≠ module := fun heq => hne (heq.symm.trans hname)
    simp [Module.name_withFunctions, hother]
  · simp only [Function.comp_apply, Module.withFunctions_of_ne hname]
    split
    · rw [Module.withFunctions_of_ne (hf m ▸ hname)]
    · rw [Module.withFunctions_of_ne hname]

/-- What calls by name find in the modules that are imported. -/
theorem OnlyPrivate.importedFunction?_eq (h : w.OnlyPrivate name) (hfs : ∀ f ∈ fs, f.isPublic = false)
    (modules : List String) (called : String) (arity : Nat) :
    (w.withFunctions name fs).importedFunction? modules called arity = w.importedFunction? modules called arity := by
  unfold importedFunction?
  congr 1
  funext module
  by_cases hmodule : module = name
  · subst hmodule
    rw [h.offers_none, (OnlyPrivate.withFunctions w module hfs).offers_none]
  · rw [module?_withFunctions_of_ne w fs hmodule]

theorem OnlyPrivate.ne_of_imported (h : w.OnlyPrivate name) {modules : List String} {called owner : String}
    {arity : Nat} {f : Function} (hfound : w.importedFunction? modules called arity = some (owner, f)) :
    owner ≠ name := by
  rintro rfl
  obtain ⟨m, hm, hf, hpublic⟩ := importedFunction?_eq_some hfound
  exact Bool.false_ne_true ((h.isPublic_eq hm hf).symm.trans hpublic)

end World

theorem Home.module_withFunctions {home : Home} {name : String} (h : home.isLoadedAs name = false) (w : World)
    (fs : List Function) : home.module (w.withFunctions name fs) = home.module w := by
  cases home with
  | unlisted m => rfl
  | loaded module =>
    have hne : module ≠ name := fun heq => by simp [isLoadedAs, heq] at h
    rw [Home.module, World.module?_withFunctions_of_ne w fs hne, Home.module]

/-- The machine `m'` is `m` with other functions in the module of a name. Code runs outside of that module, and its
functions are private. -/
structure Machine.Conceals (name : String) (fs : List Function) (m m' : Machine) : Prop where
  outside : m.home.isLoadedAs name = false
  onlyPrivate : m.world.OnlyPrivate name
  eq : m' = { m with world := m.world.withFunctions name fs }

namespace Eval

variable {link : Linkage} {name : String} {fs : List Function}

/-- Functions of other modules come to the same, whatever the private functions of the module are. -/
def CallsConceal (link : Linkage) (name : String) (fs : List Function) : Prop :=
  ∀ home f args, home.isLoadedAs name = false → Concurs (Machine.Conceals name fs) (link.apply home f args)

theorem conceals_callLocal (h : CallsConceal link name fs) (hfs : ∀ f ∈ fs, f.isPublic = false) (called : String)
    (args : List Value) (info : Info) : Concurs (Machine.Conceals name fs) (callLocal link called args info) := by
  rintro m _ ⟨houtside, hprivate, rfl⟩
  have hm : m.Conceals name fs _ := ⟨houtside, hprivate, rfl⟩
  rw [callLocal, get_bind, get_bind]
  dsimp only
  rw [Home.module_withFunctions houtside, hprivate.importedFunction?_eq hfs]
  cases (m.home.module m.world).function? called args.length with
  | some f => exact h m.home f args houtside hm
  | none =>
    cases hfound : m.world.importedFunction? _ called args.length with
    | some found =>
      have hne : found.1 ≠ name := hprivate.ne_of_imported hfound
      exact h (.loaded found.1) found.2 args (beq_false_of_ne hne) hm
    | none =>
      cases Builtin.find? called args.length with
      | some b => exact Concurs.ofExcept _ hm
      | none => exact .error hm

/-- From outside, a module with private functions only has no functions at all. -/
theorem callModule_of_onlyPrivate {module : String} {m : Machine} (h : m.world.OnlyPrivate module) (called : String)
    (args : List Value) (info : Info) :
    callModule link false module called args info m =
      .error ((if m.world.isLoaded module then Cause.undefinedRemote module called args.length
        else Cause.moduleMissing module called args.length).on info) m := by
  rw [callModule, get_bind, World.isLoaded]
  cases hmodule : m.world.module? module with
  | none => rfl
  | some k =>
    dsimp only
    cases hf : k.function? called args.length with
    | none => rfl
    | some f =>
      dsimp only
      rw [h.isPublic_eq hmodule hf]
      rfl

theorem conceals_callRemote (h : CallsConceal link name fs) (hfs : ∀ f ∈ fs, f.isPublic = false) {inside : Bool}
    {module : String} (hinside : module = name → inside = false) (called : String) (args : List Value) (info : Info) :
    Concurs (Machine.Conceals name fs) (callRemote link inside module called args info) := by
  rintro m _ ⟨houtside, hprivate, rfl⟩
  have hm : m.Conceals name fs _ := ⟨houtside, hprivate, rfl⟩
  unfold callRemote
  cases if module == "Kernel" then Builtin.find? called args.length else none with
  | some b => exact Concurs.ofExcept _ hm
  | none =>
    dsimp only
    by_cases hmodule : module = name
    · cases hmodule
      cases hinside rfl
      rw [callModule_of_onlyPrivate hprivate, callModule_of_onlyPrivate (World.OnlyPrivate.withFunctions _ _ hfs),
        World.isLoaded_withFunctions]
      exact .error hm
    · rw [callModule, get_bind, get_bind]
      dsimp only
      rw [World.module?_withFunctions_of_ne _ _ hmodule]
      cases m.world.module? module with
      | none => exact .error hm
      | some k =>
        dsimp only
        cases k.function? called args.length with
        | none => exact .error hm
        | some f =>
          dsimp only
          split
          · exact h (.loaded module) f args (beq_false_of_ne hmodule) hm
          · exact .error hm

theorem conceals_addFunction (f : Function) : Concurs (Machine.Conceals name fs) (addFunction f) := by
  refine .modify ?_
  rintro ⟨world, home, env, inFunction⟩ _ ⟨houtside, hprivate, rfl⟩
  cases home with
  | unlisted module => exact ⟨rfl, hprivate, rfl⟩
  | loaded module =>
    have hne : module ≠ name := fun heq => by simp [Home.isLoadedAs, heq] at houtside
    refine ⟨houtside, hprivate.updateModule hne fun _ => rfl, ?_⟩
    dsimp only
    rw [World.updateModule_withFunctions hne (f := (·.addFunction f)) fun _ => rfl]
    rfl

theorem conceals_define (form : String) (args : List Value) (info : Info) :
    Concurs (Machine.Conceals name fs) (define form args info) := by
  refine .reading (fun m => ?_) ?_
  · refine .refuseIf (.andThen (.ofExcept _) fun d => .refuseIf ?_)
    exact .andThen (conceals_addFunction _) fun _ => .ofExcept _
  · rintro m _ ⟨houtside, hprivate, rfl⟩
    dsimp only
    rw [Home.module_withFunctions houtside]

/-- Evaluation outside of a module does not depend on its private functions. -/
theorem conceals_laws (h : CallsConceal link name fs) (hfs : ∀ f ∈ fs, f.isPublic = false) :
    Laws link link (fun _ => True) (fun _ => True) (fun _ => True)
      fun _ code _ => Concurs (Machine.Conceals name fs) code where
  pure := .pure
  throw e _ := .throw e
  andThen := .andThen
  atHome next hnext := by
    refine .reading (fun m => hnext m.home) ?_
    rintro m _ ⟨-, -, rfl⟩
    rfl
  lookup info _ := by
    refine .reading (fun m => ?_) ?_
    · split
      · exact .pure _
      · exact .throw _
    · rintro m _ ⟨-, -, rfl⟩
      rfl
  bind v _ := by
    refine .modify ?_
    rintro m _ ⟨houtside, hprivate, rfl⟩
    exact ⟨houtside, hprivate, rfl⟩
  define _ := conceals_define _ _ _
  callLocal := conceals_callLocal h hfs
  callRemote module called args info := by
    rintro m _ ⟨houtside, hprivate, rfl⟩
    exact conceals_callRemote h hfs (fun hmodule => hmodule ▸ houtside) called args info ⟨houtside, hprivate, rfl⟩

theorem conceals_evaluateBody (h : CallsConceal link name fs) (hfs : ∀ f ∈ fs, f.isPublic = false) (last : Value)
    (forms : List Value) : Concurs (Machine.Conceals name fs) (evaluateBody link last forms) :=
  (conceals_laws h hfs).evaluateBody last fun _ _ =>
    (conceals_laws h hfs).evaluate ⟨fun _ _ => trivial, fun _ _ => trivial⟩ fun _ _ => trivial

theorem conceals_inFrame {α : Type} {home : Home} (hhome : home.isLoadedAs name = false) (env : Env) {code : Eval α}
    (h : Concurs (Machine.Conceals name fs) code) : Concurs (Machine.Conceals name fs) (inFrame home env code) := by
  rintro m _ ⟨houtside, hprivate, rfl⟩
  have hcode := h (⟨hhome, hprivate, rfl⟩ : Machine.Conceals name fs ⟨m.world, home, env, true⟩ _)
  unfold inFrame
  generalize code _ = r at hcode
  generalize code _ = r' at hcode
  cases hcode with
  | ok hm =>
    obtain ⟨-, hprivate', rfl⟩ := hm
    exact .ok ⟨houtside, hprivate', rfl⟩
  | error hm =>
    obtain ⟨-, hprivate', rfl⟩ := hm
    exact .error ⟨houtside, hprivate', rfl⟩

theorem callsConceal_within (imported : Imports) (depth : Nat) (hfs : ∀ f ∈ fs, f.isPublic = false) :
    CallsConceal (.within imported depth) name fs := by
  induction depth with
  | zero => exact fun _ _ _ _ => .throw _
  | succ depth ih =>
    exact fun home f args hhome => conceals_inFrame hhome _ (conceals_evaluateBody ih hfs .nil f.body)

end Eval

namespace World

variable {link : Linkage} {name : String} {fs : List Function}

/-- The world `w'` is `w` with other functions in the module of a name, whose functions are private. -/
structure Conceals (name : String) (fs : List Function) (w w' : World) : Prop where
  onlyPrivate : w.OnlyPrivate name
  eq : w' = w.withFunctions name fs

theorem conceals_runIn {α : Type} {home : Home} (hhome : home.isLoadedAs name = false) (env : Env) {code : Eval α}
    (h : Concurs (Machine.Conceals name fs) code) : Concurs (World.Conceals name fs) (runIn home env code) := by
  rintro w _ ⟨hprivate, rfl⟩
  have hcode := h (⟨hhome, hprivate, rfl⟩ : Machine.Conceals name fs ⟨w, home, env, false⟩ _)
  unfold runIn
  generalize code _ = r at hcode
  generalize code _ = r' at hcode
  cases hcode with
  | ok hm =>
    obtain ⟨-, hprivate', rfl⟩ := hm
    exact .ok ⟨hprivate', rfl⟩
  | error hm =>
    obtain ⟨-, hprivate', rfl⟩ := hm
    exact .error ⟨hprivate', rfl⟩

theorem conceals_script (h : Eval.CallsConceal link name fs) (hfs : ∀ f ∈ fs, f.isPublic = false) {home : Home}
    (hhome : home.isLoadedAs name = false) (forms : List Value) :
    Concurs (World.Conceals name fs) (script link home forms) :=
  conceals_runIn hhome [] (Eval.conceals_evaluateBody h hfs .nil forms)

theorem conceals_load (h : Eval.CallsConceal link name fs) (hfs : ∀ f ∈ fs, f.isPublic = false) {module : String}
    (hne : module ≠ name) (forms : List Value) (declarations : Option DeclarationSource) :
    Concurs (World.Conceals name fs) (load link module forms declarations) := by
  rintro w _ ⟨hprivate, rfl⟩
  unfold load defineModule
  rw [isLoaded_withFunctions]
  cases w.isLoaded module with
  | true => exact .error ⟨hprivate, rfl⟩
  | false =>
    have hstart : World.Conceals name fs { w with modules := w.modules ++ [{ name := module, declarations }] }
        { w.withFunctions name fs with
          modules := (w.withFunctions name fs).modules ++ [{ name := module, declarations }] } := by
      refine ⟨fun m hm hname => ?_, ?_⟩
      · rcases List.mem_append.1 hm with hold | hnew
        · exact hprivate m hold hname
        · cases List.mem_singleton.1 hnew
          exact absurd hname hne
      · simp [withFunctions, Module.withFunctions, hne]
    have hhome : (Home.loaded module).isLoadedAs name = false := beq_false_of_ne hne
    have hscript := conceals_script h hfs hhome forms hstart
    simp only [Bool.false_eq_true, if_false]
    generalize script link (.loaded module) forms _ = r at hscript
    generalize script link (.loaded module) forms _ = r' at hscript
    cases hscript with
    | ok hw =>
      obtain ⟨hprivate', rfl⟩ := hw
      dsimp only
      rw [module?_withFunctions_of_ne _ _ hne]
      exact .ok ⟨hprivate', rfl⟩
    | error hw =>
      obtain ⟨hprivate', rfl⟩ := hw
      refine .error ⟨fun m hm => hprivate' m (List.mem_filter.1 hm).1, ?_⟩
      simp [unload, removeModule, withFunctions, debug, List.filter_map, Function.comp_def, Module.name_withFunctions]

end World

theorem Activity.conceals_code {link : Linkage} {name : String} {fs : List Function} {w : World}
    (h : Eval.CallsConceal link name fs) (hfs : ∀ f ∈ fs, f.isPublic = false) (hw : w.OnlyPrivate name) (a : Activity)
    (ha : (a.home w).isLoadedAs name = false) :
    Concur (World.Conceals name fs) (a.code link w) (a.code link (w.withFunctions name fs)) := by
  have hstart : World.Conceals name fs w _ := ⟨hw, rfl⟩
  cases a with
  | call module called args info =>
    exact World.conceals_runIn rfl [] (Eval.conceals_callRemote h hfs (fun _ => rfl) called args info) hstart
  | script home forms => exact World.conceals_script h hfs ha forms hstart
  | load module forms declarations =>
    have hne : module ≠ name := fun heq => by simp [Activity.home, Home.isLoadedAs, heq] at ha
    exact Concurs.andThen (World.conceals_load h hfs hne forms declarations) (fun _ => .pure _) hstart
  | runMacro body args =>
    have hhome : Home.ofScope (w.withFunctions name fs) body.scope body.declarations =
        .ofScope w body.scope body.declarations := by
      rw [Home.ofScope, World.isLoaded_withFunctions, Home.ofScope]
    rw [code, World.runMacro, World.runMacro, hhome]
    exact World.conceals_runIn ha _ (Eval.conceals_evaluateBody h hfs .nil body.forms) hstart

/-- Whatever is run in the world, private functions are used inside their module only. First, if any application of a
private function of a loaded module by code that runs elsewhere were replaced by some other code, nothing would change.
Second, if a module has private functions only, then in a world in which it has other private functions, or none,
everything that starts outside of it ends in the same value or error and leaves the same world, apart from these
functions. -/
theorem private_functions_stay_inside (imported : Imports) (depth : Nat) (a : Activity) :
    (∀ breach, a.code (.watched imported breach depth) = a.code (.within imported depth)) ∧
    ∀ (w : World) (name : String) (fs : List Function),
      w.OnlyPrivate name → (∀ f ∈ fs, f.isPublic = false) → (a.home w).isLoadedAs name = false →
      Concur (fun v v' => v' = v.withFunctions name fs) (a.code (.within imported depth) w)
        (a.code (.within imported depth) (w.withFunctions name fs)) := by
  refine ⟨fun breach => a.code_eq (Linkage.agreesWhereOpen_watched imported breach depth),
    fun w name fs hw hfs ha => ?_⟩
  have hcalls : Eval.CallsConceal (.within imported depth) name fs := Eval.callsConceal_within imported depth hfs
  exact (a.conceals_code hcalls hfs hw ha).mono fun _ _ h => h.eq

/-- A public function that calls a private one of another module comes to the same error if that one is deleted. -/
theorem private_functions_stay_inside_key :
    let key : Function := ⟨"Safe", "key", [], [.int 7], false⟩
    let peek : Function := ⟨"App", "peek", [], [.apply (.call "." [.atom "Safe", .atom "key"] {}) [] {}], true⟩
    let w : World := { modules := [⟨"Safe", none, [key]⟩, ⟨"App", none, [peek]⟩] }
    let a : Activity := .call "App" "peek" [] {}
    let link : Linkage := .within (fun _ _ => []) 2
    w.OnlyPrivate "Safe" ∧ (a.home w).isLoadedAs "Safe" = false ∧
      a.code link w = .error ((Cause.undefinedRemote "Safe" "key" 0).on {}) w ∧
      Concur (fun v v' => v' = v.withFunctions "Safe" []) (a.code link w)
        (a.code link (w.withFunctions "Safe" [])) := by
  intro key peek w a link
  have hprivate : w.OnlyPrivate "Safe" := by
    intro m hm hname f hf
    simp only [w, List.mem_cons, List.not_mem_nil, or_false] at hm
    rcases hm with rfl | rfl
    · simp only [List.mem_singleton] at hf
      rw [hf]
    · exact absurd hname (by decide)
  exact ⟨hprivate, rfl, rfl,
    (private_functions_stay_inside (fun _ _ => []) 2 a).2 w "Safe" [] hprivate (List.forall_mem_nil _) rfl⟩

end MacroLang
