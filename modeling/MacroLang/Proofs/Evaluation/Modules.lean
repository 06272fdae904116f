import MacroLang.Evaluation.Run
import MacroLang.Proofs.Code
import MacroLang.Proofs.Evaluation.Laws

/-!
# What running code does to loaded modules

Functions are defined outside of function bodies only, and only in the module that the code runs in. So whatever a tree
does, it changes no loaded module but its own, which may gain functions that are defined in the tree
(`Machine.DefinesIn`, `Eval.respects_define`); function calls change none, at any depth (`Eval.callsKeep_within`). What
follows for code that is run in the world:

* a script that runs outside of the loaded modules and a call from outside leave them as they are (`World.keeps_runIn`);
* the body of a macro may add the functions that it defines to the module of its scope (`World.gains_runMacro`);
* loading adds one module or, if it fails, none (`World.ensures_load`).
-/

namespace MacroLang

namespace Module

/-- The module `m'` is the module `m`, perhaps with more functions. -/
structure Extends (m m' : Module) : Prop where
  name : m'.name = m.name
  declarations : m'.declarations = m.declarations
  functions : m.functions <+: m'.functions

theorem Extends.refl (m : Module) : m.Extends m :=
  ⟨rfl, rfl, List.prefix_rfl⟩

/-- Adds functions to the module of a name. -/
def gain (name? : Option String) (fs : List Function) (m : Module) : Module :=
  if name? = some m.name then { m with functions := m.functions ++ fs } else m

theorem extends_gain (name? : Option String) (fs : List Function) (m : Module) : m.Extends (m.gain name? fs) := by
  unfold gain
  split
  · exact ⟨rfl, rfl, List.prefix_append _ _⟩
  · exact .refl m

theorem gain_nil (name? : Option String) (m : Module) : m.gain name? [] = m := by
  unfold gain
  split
  · rw [List.append_nil]
  · rfl

theorem gain_gain (name? : Option String) (fs fs' : List Function) (m : Module) :
    (m.gain name? fs).gain name? fs' = m.gain name? (fs ++ fs') := by
  by_cases h : name? = some m.name
  · simp [gain, h]
  · simp [gain, h]

theorem gain_of_ne {name : String} {m : Module} (h : m.name ≠ name) (fs : List Function) :
    m.gain (some name) fs = m :=
  if_neg fun heq => h (Option.some.inj heq).symm

theorem gain_none (fs : List Function) (m : Module) : m.gain none fs = m :=
  if_neg nofun

/-- The module `m'` is the module `m` with more functions behind, all of which are `allowed` in a module of its name. -/
structure ExtendsBy (allowed : String → Function → Prop) (m m' : Module) : Prop where
  name : m'.name = m.name
  declarations : m'.declarations = m.declarations
  functions : ∃ fs, (∀ f ∈ fs, allowed m.name f) ∧ m'.functions = m.functions ++ fs

section

variable {allowed : String → Function → Prop} {m m' : Module}

theorem ExtendsBy.refl (allowed : String → Function → Prop) (m : Module) : m.ExtendsBy allowed m :=
  ⟨rfl, rfl, [], nofun, (List.append_nil _).symm⟩

theorem ExtendsBy.imp {allowed' : String → Function → Prop} (h : m.ExtendsBy allowed m')
    (himp : ∀ f, allowed m.name f → allowed' m.name f) : m.ExtendsBy allowed' m' := by
  obtain ⟨fs, hfs, hfunctions⟩ := h.functions
  exact ⟨h.name, h.declarations, fs, fun f hf => himp f (hfs f hf), hfunctions⟩

theorem ExtendsBy.gain (h : m.ExtendsBy allowed m') {name : String} {fs : List Function}
    (hfs : m.name = name → ∀ f ∈ fs, allowed m.name f) : m.ExtendsBy allowed (m'.gain (some name) fs) := by
  by_cases hname : m.name = name
  · obtain ⟨old, hold, hfunctions⟩ := h.functions
    rw [Module.gain, if_pos (by rw [h.name, hname])]
    refine ⟨h.name, h.declarations, old ++ fs, List.forall_mem_append.2 ⟨hold, hfs hname⟩, ?_⟩
    rw [hfunctions, List.append_assoc]
  · rw [gain_of_ne (h.name ▸ hname)]
    exact h

end

end Module

/-- Some loaded modules, after the one of a name has gained functions, all of them `allowed`. -/
def Gained (name? : Option String) (allowed : Function → Prop) (mods mods' : List Module) : Prop :=
  ∃ fs, (∀ f ∈ fs, allowed f) ∧ mods' = mods.map (·.gain name? fs)

section

variable {allowed : Function → Prop} {mods mods' : List Module}

theorem Gained.refl (name? : Option String) (allowed : Function → Prop) (mods : List Module) :
    Gained name? allowed mods mods :=
  ⟨[], nofun, by simp [Module.gain_nil]⟩

theorem Gained.eq_of_none (h : Gained none allowed mods mods') : mods' = mods := by
  obtain ⟨fs, -, rfl⟩ := h
  simp [Module.gain_none]

/-- The last one of some modules gains functions, if it is the only one of its name. -/
theorem Gained.last {m : Module} (h : Gained (some m.name) allowed (mods ++ [m]) mods')
    (hfresh : ∀ k ∈ mods, k.name ≠ m.name) : ∃ m', m.Extends m' ∧ mods' = mods ++ [m'] := by
  obtain ⟨fs, -, rfl⟩ := h
  refine ⟨m.gain (some m.name) fs, Module.extends_gain _ fs m, ?_⟩
  have hold : mods.map (·.gain (some m.name) fs) = mods.map id :=
    List.map_congr_left fun k hk => Module.gain_of_ne (hfresh k hk) fs
  rw [List.map_append, hold, List.map_id, List.map_singleton]

theorem Module.addFunction_eq_gain (name : String) (f : Function) (m : Module) :
    (if m.name == name then m.addFunction f else m) = m.gain (some name) [f] := by
  by_cases h : m.name = name
  · simp [gain, addFunction, h]
  · simp [gain, h, Ne.symm h]

theorem Gained.addFunction {name : String} {f : Function} (h : Gained (some name) allowed mods mods') (hf : allowed f) :
    Gained (some name) allowed mods (mods'.map fun m => if m.name == name then m.addFunction f else m) := by
  obtain ⟨fs, hfs, rfl⟩ := h
  refine ⟨fs ++ [f], List.forall_mem_append.2 ⟨hfs, List.forall_mem_singleton.2 hf⟩, ?_⟩
  rw [List.map_map]
  refine List.map_congr_left fun m _ => ?_
  rw [Function.comp_apply, Module.addFunction_eq_gain, Module.gain_gain]

end

theorem Home.name_module (w : World) (home : Home) : (home.module w).name = home.name := by
  cases home with
  | unlisted m => rfl
  | loaded name =>
    show ((w.module? name).getD { name }).name = name
    cases h : w.module? name with
    | none => rfl
    | some m => exact World.name_of_module? h

/-! ## Evaluation -/

namespace Machine

/-- The machine `m'` has the modules of `m` and runs code in the same place. The variables and the log may differ. -/
structure Alongside (m m' : Machine) : Prop where
  modules : m'.world.modules = m.world.modules
  home : m'.home = m.home
  inFunction : m'.inFunction = m.inFunction

theorem Alongside.refl (m : Machine) : m.Alongside m :=
  ⟨rfl, rfl, rfl⟩

theorem Alongside.trans {m m' m'' : Machine} (h : m.Alongside m') (h' : m'.Alongside m'') : m.Alongside m'' :=
  ⟨h'.modules.trans h.modules, h'.home.trans h.home, h'.inFunction.trans h.inFunction⟩

/-- Of the machine only the modules and the place where code runs matter to `I`. -/
def MindsModules (I : Machine → Prop) : Prop :=
  ∀ m m', I m → m.Alongside m' → I m'

theorem mindsModules_alongside (m : Machine) : MindsModules m.Alongside :=
  fun _ _ h h' => h.trans h'

/-- The modules are the given ones, after the one of a name has gained functions that are `allowed`; and definitions
made now go there, if they go to a loaded module. -/
structure DefinesIn (name? : Option String) (allowed : Function → Prop) (mods : List Module) (m : Machine) : Prop where
  modules : Gained name? allowed mods m.world.modules
  home : m.inFunction = false → ∀ name, m.home = .loaded name → name? = some name

theorem mindsModules_definesIn (name? : Option String) (allowed : Function → Prop) (mods : List Module) :
    MindsModules (DefinesIn name? allowed mods) := by
  intro m m' h h'
  refine ⟨?_, ?_⟩
  · rw [h'.modules]
    exact h.modules
  · rw [h'.inFunction, h'.home]
    exact h.home

end Machine

namespace Eval

variable {link : Linkage} {I : Machine → Prop}

/-- Functions leave the modules as they are, and their errors are common. -/
def CallsKeep (link : Linkage) : Prop :=
  ∀ m home f args, Preserves (Machine.Alongside m) (link.apply home f args)

theorem CallsKeep.respects_apply (h : CallsKeep link) (hI : Machine.MindsModules I) (home : Home) (f : Function)
    (args : List Value) : Preserves I (link.apply home f args) := by
  intro m hm
  have hcall := h m home f args m (.refl m)
  cases hrun : link.apply home f args m with
  | ok v m' => rw [hrun] at hcall; exact hI m m' hm hcall
  | error e m' => rw [hrun] at hcall; exact ⟨hI m m' hm hcall.1, hcall.2⟩

theorem respects_callLocal (h : CallsKeep link) (hI : Machine.MindsModules I) (name : String) (args : List Value)
    (info : Info) : Preserves I (callLocal link name args info) := by
  refine Maintains.reading fun m _ => ?_
  dsimp only
  split
  · exact h.respects_apply hI _ _ _
  · split
    · exact h.respects_apply hI _ _ _
    · split
      · exact .ofExcept (Standard.common.gives_run trivial _ fun _ _ => trivial).raises
      · exact .throw rfl

theorem respects_callRemote (h : CallsKeep link) (hI : Machine.MindsModules I) (inside : Bool) (module name : String)
    (args : List Value) (info : Info) : Preserves I (callRemote link inside module name args info) := by
  unfold callRemote
  split
  · exact .ofExcept (Standard.common.gives_run trivial _ fun _ _ => trivial).raises
  · refine Maintains.reading fun m _ => ?_
    split
    · exact .throw rfl
    · split
      · exact .throw rfl
      · split
        · exact h.respects_apply hI _ _ _
        · exact .throw rfl

/-- What is said of modules holds throughout evaluation, if definitions keep it. -/
theorem respects_laws (h : CallsKeep link) (hI : Machine.MindsModules I) {defines : Value → Prop}
    (hdefine : ∀ form args info, defines (.call form args info) → Preserves I (define form args info)) :
    Laws link link (fun _ => True) (fun _ => True) defines (fun _ code _ => Preserves I code) where
  pure a := .pure a
  throw e he := .throw he
  andThen := Maintains.andThen
  atHome next hn := Maintains.reading fun m _ => hn m.home
  lookup info _ := by
    refine Maintains.reading fun m _ => ?_
    split
    · exact .pure _
    · exact .throw rfl
  bind v _ := Ensures.modify fun m hm => hI m _ hm ⟨rfl, rfl, rfl⟩
  define := hdefine _ _ _
  callLocal := respects_callLocal h hI
  callRemote module name args info := Maintains.reading fun _ _ => respects_callRemote h hI _ module name args info

theorem respects_evaluateBody (h : CallsKeep link) (hI : Machine.MindsModules I) {defines : Value → Prop}
    (hdefine : ∀ form args info, defines (.call form args info) → Preserves I (define form args info)) (last : Value)
    {es : List Value} (hes : ∀ d ∈ Value.definitionsAll es, defines d) : Preserves I (evaluateBody link last es) := by
  have L := respects_laws h hI hdefine
  have known : ∀ e ∈ es, Laws.HoldsOf link link defines (fun _ code _ => Preserves I code) e :=
    fun e _ => L.holdsOf e ⟨fun _ _ => trivial, fun _ _ => trivial⟩
  exact L.evaluateBody last (Laws.HoldsOf.codeAll known hes)

/-! ### Function calls -/

/-- In the body of a function nothing can be defined. -/
theorem respects_define_of_inFunction {m : Machine} (hm : m.inFunction = true) (form : String) (args : List Value)
    (info : Info) : Preserves m.Alongside (define form args info) := by
  refine Ensures.reading fun m' hm' => ?_
  refine .refuseIf (fun _ h => ⟨h ▸ hm', rfl⟩) fun hin => ?_
  exact absurd (hm'.inFunction.trans hm) hin

theorem respects_inFrame {α : Type} {code : Eval α} (home : Home) (env : Env)
    (h : ∀ n, n.inFunction = true → Preserves (Machine.Alongside n) code) (m : Machine) :
    Preserves m.Alongside (inFrame home env code) := by
  intro m' hm'
  have hcode := h _ rfl { world := m'.world, home, env, inFunction := true } (.refl _)
  unfold inFrame
  cases hrun : code { world := m'.world, home, env, inFunction := true } with
  | ok a n => rw [hrun] at hcode; exact hm'.trans ⟨hcode.modules, rfl, rfl⟩
  | error e n => rw [hrun] at hcode; exact ⟨hm'.trans ⟨hcode.1.modules, rfl, rfl⟩, hcode.2⟩

theorem callsKeep_within (imported : Imports) (depth : Nat) : CallsKeep (.within imported depth) := by
  intro m home f args
  show Preserves _ (applyWithin imported depth home f args)
  induction depth generalizing m home f args with
  | zero => exact .throw rfl
  | succ depth ih =>
    have h : CallsKeep ⟨imported, applyWithin imported depth⟩ := ih
    refine respects_inFrame _ _ (fun n hn => ?_) m
    have hdefine : ∀ form args info, True → Preserves n.Alongside (define form args info) :=
      fun form args info _ => respects_define_of_inFunction hn form args info
    exact respects_evaluateBody h (Machine.mindsModules_alongside n) hdefine _ fun _ _ => trivial

/-! ### Definitions -/

variable {name? : Option String} {allowed : Function → Prop} {mods : List Module}

/-- The function that a definition stands for in the module of the name is allowed. -/
def Admits (name? : Option String) (allowed : Function → Prop) (d : Value) : Prop :=
  ∀ name f, name? = some name → Function.ofForm? name d = some f → allowed f

theorem ensures_addFunction {m : Machine} (hm : m.DefinesIn name? allowed mods) (hin : m.inFunction = false)
    {f : Function} (hf : ∀ name, m.home = .loaded name → allowed f) :
    Ensures (· = m) (addFunction f) (fun _ => Machine.DefinesIn name? allowed mods)
      (fun e m' => m'.DefinesIn name? allowed mods ∧ e.isCommon = true) := by
  rcases m with ⟨world, home, env, inFunction⟩
  refine Ensures.modify ?_
  rintro _ rfl
  cases home with
  | loaded name =>
    obtain rfl : name? = some name := hm.home hin name rfl
    exact ⟨hm.modules.addFunction (hf name rfl), hm.home⟩
  | unlisted module => exact ⟨hm.modules, nofun⟩

theorem respects_define {form : String} {args : List Value} {info : Info}
    (hadmits : Admits name? allowed (.call form args info)) :
    Preserves (Machine.DefinesIn name? allowed mods) (define form args info) := by
  refine Ensures.reading fun m hm => ?_
  refine .refuseIf (fun _ h => ⟨h ▸ hm, rfl⟩) fun hin => ?_
  refine Ensures.bind (R := fun d m' => m' = m ∧ Definition.ofForm form args info = .ok d)
    (.ofExcept (fun _ hok _ h => ⟨h, hok⟩) fun e he _ h => ?_) fun d => ?_
  · exact h ▸ ⟨hm, (Standard.common.gives_ofForm trivial _ fun _ _ => trivial).raises e he⟩
  refine Ensures.weaken (P := fun m' => Definition.ofForm form args info = .ok d ∧ m' = m) (.given fun hd => ?_)
    (fun _ h => h.symm) (fun _ _ h => h) fun _ _ h => h
  refine .refuseIf (fun _ h => ⟨h ▸ hm, rfl⟩) fun _ => ?_
  refine Ensures.bind (ensures_addFunction hm (Bool.eq_false_iff.2 hin) fun name hname => ?_) fun _ => ?_
  · have hmodule : (m.home.module m.world).name = name := by rw [Home.name_module, hname]; rfl
    refine hadmits name _ (hm.home (Bool.eq_false_iff.2 hin) name hname) ?_
    rw [Function.ofForm?, hd, hmodule]
    rfl
  · exact Maintains.ofExcept (Standard.common.gives_buildAtom trivial _).raises

/-- Forms add functions to one module at most, and only functions that they define. -/
theorem definesIn_evaluateBody (h : CallsKeep link) (last : Value) {es : List Value}
    (hes : ∀ d ∈ Value.definitionsAll es, Admits name? allowed d) :
    Preserves (Machine.DefinesIn name? allowed mods) (evaluateBody link last es) :=
  respects_evaluateBody h (Machine.mindsModules_definesIn _ _ _) (fun _ _ _ => respects_define) last hes

end Eval

/-! ## Code that is run in the world -/

namespace World

variable {mods : List Module} {link : Linkage} {allowed : Function → Prop}

/-- Code that is run in a module adds functions to that module at most. -/
theorem respects_runIn {α : Type} {name? : Option String} {home : Home} {code : Eval α} (env : Env)
    (hhome : ∀ name, home = .loaded name → name? = some name)
    (hcode : Preserves (Machine.DefinesIn name? allowed mods) code) :
    Preserves (fun w => Gained name? allowed mods w.modules) (runIn home env code) := by
  intro w hw
  have hrun := hcode { world := w, home, env } ⟨hw, fun _ => hhome⟩
  unfold runIn
  cases h : code { world := w, home, env } with
  | ok a m => rw [h] at hrun; exact hrun.modules
  | error e m => rw [h] at hrun; exact ⟨hrun.1.modules, hrun.2⟩

theorem respects_script (h : Eval.CallsKeep link) (name : String) (forms : List Value) :
    Preserves (fun w => Gained (some name) (fun _ => True) mods w.modules) (script link (.loaded name) forms) :=
  respects_runIn [] (fun _ hname => by cases hname; rfl)
    (Eval.definesIn_evaluateBody h _ fun _ _ _ _ _ _ => trivial)

/-- Code that runs outside of the loaded modules leaves them as they are. -/
theorem keeps_runIn {α : Type} {module : Module} {code : Eval α} (env : Env)
    (hcode : Preserves (Machine.DefinesIn none (fun _ => True) mods) code) :
    Preserves (fun w => w.modules = mods) (runIn (.unlisted module) env code) := by
  have h : Preserves (fun w => Gained none (fun _ => True) mods w.modules) (runIn (.unlisted module) env code) :=
    respects_runIn env nofun hcode
  exact h.weaken (fun _ hw => hw ▸ .refl ..) (fun _ _ hw => hw.eq_of_none) fun _ _ hw => ⟨hw.1.eq_of_none, hw.2⟩

theorem keeps_script (h : Eval.CallsKeep link) (module : Module) (forms : List Value) :
    Preserves (fun w => w.modules = mods) (script link (.unlisted module) forms) :=
  keeps_runIn [] (Eval.definesIn_evaluateBody h _ fun _ _ _ _ _ _ => trivial)

theorem keeps_call (h : Eval.CallsKeep link) (module name : String) (args : List Value) (info : Info) :
    Preserves (fun w => w.modules = mods) (call link module name args info) :=
  keeps_runIn [] (Eval.respects_callRemote h (Machine.mindsModules_definesIn _ _ _) _ _ _ _ _)

/-- The body of a macro runs in the module of its scope and may define functions there. -/
theorem gains_runMacro (h : Eval.CallsKeep link) (body : MacroBody) (args : List Value) :
    Preserves (fun w => Gained (some body.scope) (· ∈ body.definitions) mods w.modules) (runMacro link body args) := by
  intro w hw
  refine respects_runIn _ (fun name hname => ?_) (Eval.definesIn_evaluateBody h _ fun d hd name f hname hf => ?_) w hw
  · unfold Home.ofScope at hname
    split at hname
    · cases hname
      rfl
    · cases hname
  · cases hname
    exact List.mem_filterMap.2 ⟨d, hd, hf⟩

theorem isLoaded_eq_false {w : World} {name : String} :
    w.isLoaded name = false ↔ ∀ m ∈ w.modules, m.name ≠ name := by
  simp [isLoaded, module?]

theorem modules_unload {w : World} {m : Module} (h : w.modules = mods ++ [m]) (hfresh : ∀ k ∈ mods, k.name ≠ m.name) :
    (w.unload m.name).modules = mods := by
  show w.modules.filter (·.name != m.name) = mods
  rw [h, List.filter_append, List.filter_eq_self.2 fun k hk => bne_iff_ne.2 (hfresh k hk)]
  simp

theorem ensures_load (h : Eval.CallsKeep link) (name : String) (forms : List Value)
    (declarations : Option DeclarationSource) :
    Ensures (fun w => w.modules = mods) (load link name forms declarations)
      (fun _ w => ∃ m, m.name = name ∧ w.modules = mods ++ [m])
      (fun e w => w.modules = mods ∧ e.isCommon = true) := by
  rintro w rfl
  unfold load defineModule
  cases hloaded : w.isLoaded name with
  | true => exact ⟨rfl, rfl⟩
  | false =>
    have hfresh := isLoaded_eq_false.1 hloaded
    let m : Module := { name, declarations }
    have hscript : Preserves (fun w' => Gained (some name) (fun _ => True) (w.modules ++ [m]) w'.modules)
        (script link (.loaded name) forms) := respects_script h name forms
    have hstart : Gained (some name) (fun _ => True) (w.modules ++ [m]) (w.modules ++ [m]) := .refl ..
    simp only [Bool.false_eq_true, if_false]
    cases hrun : script link (.loaded name) forms { w with modules := w.modules ++ [m] } with
    | ok v w' =>
      have hgained : Gained (some m.name) _ (w.modules ++ [m]) w'.modules := hscript.of_ok hstart hrun
      obtain ⟨m', hm', hmods⟩ := hgained.last hfresh
      exact ⟨m', hm'.name, hmods⟩
    | error e w' =>
      obtain ⟨hgained, he⟩ := hscript.of_error hstart hrun
      change Gained (some m.name) _ (w.modules ++ [m]) w'.modules at hgained
      obtain ⟨m', hm', hmods⟩ := hgained.last hfresh
      have hname : m'.name = name := hm'.name
      refine ⟨?_, he⟩
      subst hname
      exact modules_unload hmods hfresh

end World

end MacroLang
