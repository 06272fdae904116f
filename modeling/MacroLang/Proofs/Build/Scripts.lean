import MacroLang.Proofs.Build.Blocks
import MacroLang.Proofs.Build.Functions
import MacroLang.Proofs.Build.Runs

/-!
# The script of a unit, run at once or later

A unit is compiled with its script, which is then run before the unit is published, or without it, and the script may
be run afterwards. That is the same. The run reads the loaded modules and what the scopes import, and of these
publication changes nothing (`Session.imports_publish`, `concurs_runForms`); and the run leaves nothing but log entries
behind. Nor can it be another script: the forms that a unit records are those of its modules
(`Build.maintains_module_recorded`), and no module has the name of the script's scope (`script_of_recorded`).

Main statement: `script_now_or_later`.
-/

namespace MacroLang

open Compilation

/-! ## What a script reads -/

namespace Session

variable {β : Type}

theorem table?_freeze (s : Session β) (r q : Nat) (scope : String) :
    ((s.freeze r).registry q).table? scope = (s.registry q).table? scope := by
  rcases Nat.lt_or_ge r s.registries.length with hr | hr
  · rw [freeze, registry_update s hr]
    split
    · subst q
      rfl
    · rfl
  · rw [freeze, update_of_le s _ hr]

/-- Publication, even if it is refused, leaves to each scope what it imports. -/
theorem imports_publish (s : Session β) (r : Nat) : (s.publish r).1.imports = s.imports := by
  have hfreeze : (s.freeze r).imports = s.imports := by
    funext source c
    cases source with
    | own d => rfl
    | registered unit scope => rw [imports, table?_freeze, imports]
  rw [publish]
  split
  · exact hfreeze
  · exact hfreeze

end Session

/-- The same modules are loaded, and the scopes import the same. -/
def Compilation.SameToScripts (c c' : Compilation MacroBody) : Prop :=
  c'.session.imports = c.session.imports ∧ c.world.Alike c'.world

theorem Expand.sameToScripts_onWorld {α : Type} {code : EStateM Error World α} (h : Concurs World.Alike code) :
    Concurs SameToScripts (onWorld code : Compile α) := by
  rintro c c' ⟨himports, hworld⟩
  have hcode := h hworld
  unfold onWorld
  generalize code c.world = result at hcode
  generalize code c'.world = result' at hcode
  cases hcode with
  | ok hw => exact .ok ⟨himports, hw⟩
  | error hw => exact .error ⟨himports, hw⟩

/-- A script runs the same wherever the same modules are loaded and the scopes import the same. -/
theorem concurs_runForms (o : Settings) (r : Nat) (forms : List Value) :
    Concurs SameToScripts (runForms o r forms) := by
  have hreport : ∀ text, Concurs SameToScripts (report o text) := by
    intro text
    unfold report
    split
    · refine .modify ?_
      rintro c c' ⟨himports, log, hworld⟩
      exact ⟨himports, _, by rw [hworld]⟩
    · exact .pure _
  refine .andThen (hreport _) fun _ => .reading (fun c => ?_) ?_
  · exact Expand.sameToScripts_onWorld (World.concurs_script (Eval.callsAlike_within _ _) _ _)
  · rintro c c' ⟨himports, -⟩
    rw [Settings.linkage, himports, Settings.linkage]

/-! ## The recorded forms -/

/-- The forms that are recorded so far are those of modules of the unit. -/
def Building.Recorded (b : Building) : Prop :=
  ∀ entry ∈ b.expanded, entry.1 ∈ b.modules

namespace Build

open Building

variable {o : Settings} {x : Expander MacroBody} {onModule : List Value → Info → Build Unit}

/-- Code that knows nothing of the unit changes neither its modules nor the recorded forms. -/
theorem maintains_lift {I : Building → Prop} (hI : ∀ b c, I b → I { b with compilation := c }) {α : Type}
    (code : Compile α) : Maintains I (fun _ => True) (lift code) := by
  refine .of_finalState fun b hb => ?_
  unfold lift
  cases code b.compilation with
  | ok a c => exact hI b c hb
  | error e c => exact hI b c hb

section

variable {I : Building → Prop} (hI : ∀ b c, I b → I { b with compilation := c })

include hI

theorem maintains_defineMacro (r : Nat) (scope form : String) (args : List Value) (info : Info) :
    Maintains I (fun _ => True) (defineMacro r scope form args info) := by
  refine .andThen (.ofExcept fun _ _ => trivial) fun d => .reading fun b _ => ?_
  refine .andThen (.ofExcept fun _ _ => trivial) fun session => ?_
  exact .andThen (maintains_lift hI _) fun _ => maintains_lift hI _

/-- Of all forms only modules concern what does not depend on the compilation. -/
theorem maintains_forms (hmodule : ∀ args info, Maintains I (fun _ => True) (onModule args info)) (scope : String)
    (vs : List Value) : Maintains I (fun _ => True) (forms x onModule scope vs) :=
  (laws_maintains I _).forms hmodule (maintains_defineMacro hI x.registry scope) (fun _ => maintains_lift hI _) vs

theorem maintains_warnShadowed (module : String) (fs : List Function) :
    Maintains I (fun _ => True) (warnShadowed x module fs) := by
  induction fs with
  | nil => exact .pure _
  | cons f fs ih =>
    refine Maintains.reading fun b _ => ?_
    split
    · exact .andThen (maintains_lift hI _) fun _ => ih
    · exact ih

end

/-- A module that is loaded is one of the unit by then. -/
theorem ensures_openModule_recorded (first : Value) (info : Info) :
    Ensures Recorded (openModule o x first info) (fun name b => name ∈ b.modules ∧ b.Recorded)
      (fun _ b => b.Recorded ∧ True) := by
  have hlift : ∀ {α : Type} (code : Compile α), Maintains Recorded (fun _ => True) (lift code) :=
    maintains_lift fun _ _ h => h
  refine Ensures.bind (R := fun _ => Recorded) (Maintains.ofExcept fun _ _ => trivial) fun name => ?_
  refine Ensures.bind (R := fun _ => Recorded) ?_ fun _ => ?_
  · refine Maintains.reading fun b _ => ?_
    dsimp only
    split
    · exact .throw trivial
    · exact .pure _
  refine Ensures.peeking fun b => ?_
  refine Ensures.bind (R := fun _ => Recorded) (Maintains.ofExcept fun _ _ => trivial) fun session => ?_
  refine Ensures.bind (R := fun _ => Recorded) (hlift _) fun _ => ?_
  -- from here on the name is one of the modules
  let J := fun b : Building => name ∈ b.modules ∧ b.Recorded
  have hJ : ∀ {α : Type} (code : Compile α), Ensures J (lift code) (fun _ => J) fun _ b => b.Recorded ∧ True :=
    fun code => (maintains_lift (I := J) (fun _ _ h => h) code).weaken (fun _ h => h) (fun _ _ h => h)
      fun _ _ h => ⟨h.1.2, trivial⟩
  refine Ensures.bind (R := fun _ => J) (.modify fun b hb => ⟨?_, fun entry hentry => ?_⟩) fun _ => ?_
  · exact List.mem_append_right _ List.mem_cons_self
  · exact List.mem_append_left _ (hb entry hentry)
  exact Ensures.bind (hJ _) fun _ => Ensures.bind (hJ _) fun _ => .pure fun _ h => h

theorem ensures_loadModule_recorded (name : String) (kept : List Value) :
    Ensures (fun b => name ∈ b.modules ∧ b.Recorded) (loadModule o x name kept) (fun _ => Recorded)
      (fun _ b => b.Recorded ∧ True) := by
  have hlift : ∀ {α : Type} (code : Compile α), Maintains Recorded (fun _ => True) (lift code) :=
    maintains_lift fun _ _ h => h
  refine Ensures.bind (R := fun _ => Recorded) (.modify fun b hb entry hentry => ?_) fun _ => ?_
  · rcases List.mem_append.1 hentry with hold | hnew
    · exact hb.2 entry hold
    · rw [List.mem_singleton.1 hnew]
      exact hb.1
  refine Maintains.andThen (hlift _) fun _ => .reading fun b _ => .andThen (hlift _) fun _ => ?_
  refine Maintains.andThen (Ensures.modify fun _ h => h) fun _ => .reading fun b _ => ?_
  exact maintains_warnShadowed (fun _ _ h => h) _ _

theorem maintains_module_recorded (args : List Value) (info : Info) :
    Maintains Recorded (fun _ => True) (module o x args info) := by
  cases args with
  | nil => exact .throw trivial
  | cons first body =>
    rw [module_cons]
    refine Ensures.bind (ensures_openModule_recorded first info) fun name => ?_
    let J := fun b : Building => name ∈ b.modules ∧ b.Recorded
    have hbody : Maintains J (fun _ => True) (forms x (refuseModule name) name body) :=
      maintains_forms (fun _ _ h => h) (fun _ _ => .throw trivial) name body
    refine Ensures.bind (R := fun _ => J) ?_ fun kept => ensures_loadModule_recorded name kept
    exact hbody.weaken (fun _ h => h) (fun _ _ h => h) fun _ _ h => ⟨h.1.2, trivial⟩

theorem maintains_expandScope_recorded (vs : List Value) :
    Maintains Recorded (fun _ => True) (expandScope o x (module o x) scriptScope vs) :=
  .andThen (maintains_lift (fun _ _ h => h) _) fun _ =>
    maintains_forms (fun _ _ h => h) maintains_module_recorded scriptScope vs

end Build

/-- The script of a unit is what was recorded last. -/
theorem script_of_recorded {b : Building} (h : b.Recorded) (hmodules : scriptScope ∉ b.modules) {u : CompiledUnit}
    {script : List Value} (hu : u.expanded = b.expanded ++ [(scriptScope, script)]) : u.script = script := by
  have hnone : b.expanded.lookup scriptScope = none := by
    refine List.lookup_eq_none_iff.2 fun entry hentry => bne_iff_ne.2 fun heq => hmodules ?_
    rw [heq]
    exact h entry hentry
  rw [CompiledUnit.script, CompiledUnit.formsOf, hu, List.lookup_append, hnone, Option.none_or, List.lookup_cons_self]
  rfl

/-! ## The run and the publication in either order -/

theorem publish_relogs {r : Nat} {c : Compilation MacroBody} {s : Session MacroBody}
    (h : c.session.publish r = (s, .ok ())) :
    ∃ c', publish r c = .ok () c' ∧ Relogs { c with session := s } c' := by
  obtain ⟨text, hpublish⟩ := publish_of_ok h
  exact ⟨_, hpublish, _, rfl⟩

theorem relogs_runForms {o : Settings} {r : Nat} {script : List Value} {v : Value} {c c' : Compilation MacroBody}
    (h : runForms o r script c = .ok v c') : c.Relogs c' :=
  (maintains_runForms (mindsModules_relogs c) r script).of_ok ⟨_, rfl⟩ h

/-- A script comes to the same before its unit is published and after. -/
theorem concur_runForms_published {r : Nat} {c c' : Compilation MacroBody} {s : Session MacroBody}
    (hs : c.session.publish r = (s, .ok ())) (hc' : Relogs { c with session := s } c') (o : Settings)
    (script : List Value) : Concur SameToScripts (runForms o r script c) (runForms o r script c') := by
  have himports := c.session.imports_publish r
  rw [hs] at himports
  obtain ⟨log, rfl⟩ := hc'
  exact concurs_runForms o r script ⟨himports, log, rfl⟩

namespace Build

theorem lift_of_ok {α : Type} {code : Compile α} {b : Building} {a : α} {c : Compilation MacroBody}
    (h : code b.compilation = .ok a c) : lift code b = .ok a { b with compilation := c } := by
  rw [lift, h]

section

variable {o : Settings} {x : Expander MacroBody} {script : List Value} {b : Building} {s : Session MacroBody}
  (hs : b.compilation.session.publish x.registry = (s, .ok ()))

include hs

theorem finishScript_unrun :
    ∃ c, finishScript o x false script b =
        .ok .nil { b with compilation := c, expanded := b.expanded ++ [(scriptScope, script)] } ∧
      Relogs { b.compilation with session := s } c := by
  obtain ⟨c, hpublish, hc⟩ := publish_relogs hs
  refine ⟨c, ?_, hc⟩
  exact bind_eq_ok.2 ⟨⟨⟩, _, rfl, bind_eq_ok.2 ⟨.nil, _, rfl, bind_eq_ok.2 ⟨⟨⟩, _, lift_of_ok hpublish, rfl⟩⟩⟩

theorem finishScript_ok {v : Value} {c' : Compilation MacroBody}
    (hrun : runForms o x.registry script b.compilation = .ok v c') :
    ∃ c, finishScript o x true script b =
        .ok v { b with compilation := c, expanded := b.expanded ++ [(scriptScope, script)] } ∧
      Relogs { b.compilation with session := s } c := by
  obtain ⟨log, hc'⟩ := relogs_runForms hrun
  have hs' : c'.session.publish x.registry = (s, .ok ()) := by
    rw [hc']
    exact hs
  obtain ⟨c, hpublish, hc⟩ := publish_relogs hs'
  refine ⟨c, ?_, .trans ⟨log, by rw [hc']⟩ hc⟩
  exact bind_eq_ok.2 ⟨⟨⟩, _, rfl, bind_eq_ok.2 ⟨v, _, lift_of_ok hrun,
    bind_eq_ok.2 ⟨⟨⟩, _, lift_of_ok hpublish, rfl⟩⟩⟩

end

theorem finishScript_error {o : Settings} {x : Expander MacroBody} {script : List Value} {b : Building} {e : Error}
    {c' : Compilation MacroBody} (hrun : runForms o x.registry script b.compilation = .error e c') :
    finishScript o x true script b =
      .error e { b with compilation := c', expanded := b.expanded ++ [(scriptScope, script)] } := by
  have hlift : lift (runForms o x.registry script) { b with expanded := b.expanded ++ [(scriptScope, script)] } =
      .error e { b with compilation := c', expanded := b.expanded ++ [(scriptScope, script)] } := by
    rw [lift, hrun]
  show (lift (runForms o x.registry script) >>= fun v => lift (publish x.registry) >>= fun _ => pure v)
    { b with expanded := b.expanded ++ [(scriptScope, script)] } = _
  rw [bind_apply, hlift]

end Build

/-! ## Units and sources -/

/-- What compiling comes to with the script and what it comes to without: both fail in the same way, or the script can
be run later. Then its value is the result of the unit, or its error, once it names the file, is that of compiling. -/
inductive NowOrLater (o : Settings) (name : Error → Error) :
    EStateM.Result Error (Compilation MacroBody) CompiledUnit →
    EStateM.Result Error (Compilation MacroBody) CompiledUnit → Prop where
  | refused {e : Error} {c : Compilation MacroBody} : NowOrLater o name (.error e c) (.error e c)
  | ran {u : CompiledUnit} {c₁ c₂ c₃ : Compilation MacroBody} :
    runUnit o { u with result := .nil } c₂ = .ok u.result c₃ → c₁.Relogs c₃ →
    NowOrLater o name (.ok u c₁) (.ok { u with result := .nil } c₂)
  | failed {u : CompiledUnit} {e : Error} {c₁ c₂ c₃ : Compilation MacroBody} :
    runUnit o u c₂ = .error e c₃ → NowOrLater o name (.error (name e) c₁) (.ok u c₂)

variable {o : Settings}

theorem nowOrLater_finishUnit {c₀ c : Compilation MacroBody} (hc : Underway c₀ [] { compilation := c })
    (filename : String) (maxDepth : Nat) (vs : List Value) :
    let x := o.expander c₀.session.registries.length maxDepth
    NowOrLater o id (finishUnit filename x.registry (Build.unit o x true vs) c)
      (finishUnit filename x.registry (Build.unit o x false vs) c) := by
  intro x
  have hunit : ∀ runScript, Build.unit o x runScript vs =
      (Build.expandScope o x (Build.module o x) scriptScope vs >>= Build.finishScript o x runScript) := fun _ => rfl
  rw [finishUnit, finishUnit, hunit, hunit, bind_apply, bind_apply]
  -- up to the script the two do the same; then one runs it and publishes the unit, and the other only publishes
  cases hexpand : Build.expandScope o x (Build.module o x) scriptScope vs { compilation := c } with
  | error e b => exact .refused
  | ok script b =>
    have hb : Underway c₀ [] b :=
      (Build.steady_expandScope Build.steady_module List.mem_cons_self vs).of_ok hc hexpand
    have hrecorded : b.Recorded :=
      (Build.maintains_expandScope_recorded vs).of_ok (fun _ hentry => absurd hentry List.not_mem_nil) hexpand
    have hscript : ∀ u : CompiledUnit, u.expanded = b.expanded ++ [(scriptScope, script)] → u.registry = x.registry →
        runUnit o u = runForms o x.registry script := by
      intro u hu hregistry
      rw [runUnit, script_of_recorded hrecorded (List.nodup_cons.1 hb.nodup).1 hu, hregistry]
    obtain ⟨s, hs, -⟩ := hb.session.publish hb.unpublished hb.nodup
    obtain ⟨c₂, hunrun, hc₂⟩ : ∃ c₂, Build.finishScript o x false script b = _ ∧ Relogs _ c₂ :=
      Build.finishScript_unrun hs
    have hlater := concur_runForms_published hs hc₂ o script
    dsimp only
    rw [hunrun]
    cases hnow : runForms o x.registry script b.compilation with
    | ok v c' =>
      obtain ⟨c₁, hrun, hc₁⟩ := Build.finishScript_ok hs hnow
      obtain ⟨c₃, hrun₃, -⟩ := hlater.of_ok hnow
      rw [hrun]
      refine .ran ?_ ((hc₁.symm.trans hc₂).trans (relogs_runForms hrun₃))
      exact (congrFun (hscript _ rfl rfl) c₂).trans hrun₃
    | error e c' =>
      obtain ⟨c₃, hrun₃, -⟩ := hlater.of_error hnow
      rw [Build.finishScript_error hnow]
      exact .failed ((congrFun (hscript _ rfl rfl) c₂).trans hrun₃)

theorem underway_of_openForms {filename : String} {c c' : Compilation MacroBody} {x : Expander MacroBody}
    (h : openForms o filename c = .ok x c') :
    ∃ maxDepth, x = o.expander c.session.registries.length maxDepth ∧ Underway c [] { compilation := c' } := by
  obtain ⟨_, c₁, hreport, h⟩ := bind_eq_ok.1 h
  obtain ⟨r, c₂, hopen, h⟩ := bind_eq_ok.1 h
  obtain ⟨maxDepth, c₃, hdepth, h⟩ := bind_eq_ok.1 h
  obtain ⟨-, rfl⟩ := ofExcept_eq_ok.1 hdepth
  cases h
  let Same := fun c₁ : Compilation MacroBody => c₁.session = c.session ∧ c₁.world.modules = c.world.modules
  have hminds : MindsModules Same := fun _ _ h hw => ⟨h.1, hw.trans h.2⟩
  have hsame : Same c₁ := (ensures_report (E := fun _ _ => True) hminds _).of_ok ⟨rfl, rfl⟩ hreport
  obtain ⟨rfl, hunit, hmodules⟩ := (ensures_openUnit filename).of_ok hsame hopen
  exact ⟨maxDepth, rfl, underway_of_withUnit hunit hmodules⟩

theorem reportUnit_relogs (filename : String) (r : Nat) (u : CompiledUnit) (c : Compilation MacroBody) :
    ∃ c', reportUnit o filename r u c = .ok u c' ∧ c.Relogs c' := by
  have hreport : ∀ text, ∃ c', report o text c = .ok () c' ∧ c.Relogs c' := by
    intro text
    unfold report
    split
    · exact ⟨_, rfl, _, rfl⟩
    · exact ⟨_, rfl, _, rfl⟩
  obtain ⟨c', hc', hrelogs⟩ := hreport _
  exact ⟨c', bind_eq_ok.2 ⟨c, c, rfl, bind_eq_ok.2 ⟨(), c', hc', rfl⟩⟩, hrelogs⟩

/-- The script of a unit comes to the same whatever was logged, and leaves the same behind. -/
theorem concurs_runUnit (u : CompiledUnit) : Concurs Relogs (runUnit o u) := by
  intro c c' hc
  have hrun : Concur Alike (runUnit o u c) (runUnit o u c') := (Run.script u).alike_code hc.alike
  have hleft : c.Relogs (finalState (runUnit o u c)) := ((Run.script u).maintains_code c).finalState ⟨_, rfl⟩
  have hright : c'.Relogs (finalState (runUnit o u c')) := ((Run.script u).maintains_code c').finalState ⟨_, rfl⟩
  generalize runUnit o u c = result at hrun hleft
  generalize runUnit o u c' = result' at hrun hright
  cases hrun with
  | ok _ => exact .ok ((hleft.symm.trans hc).trans hright)
  | error _ => exact .error ((hleft.symm.trans hc).trans hright)

/-- What is reported at the end changes nothing. -/
theorem NowOrLater.report {r r' : EStateM.Result Error (Compilation MacroBody) CompiledUnit} (h : NowOrLater o id r r')
    {code code' : Compile CompiledUnit} {c : Compilation MacroBody} (hcode : code c = r) (hcode' : code' c = r')
    (filename : String) (registry : Nat) :
    NowOrLater o id ((code >>= reportUnit o filename registry) c) ((code' >>= reportUnit o filename registry) c) := by
  rw [bind_apply, bind_apply, hcode, hcode']
  cases h with
  | refused => exact .refused
  | @ran u c₁ c₂ c₃ hrun hc₃ =>
    obtain ⟨c₁', hreport₁, hc₁⟩ := reportUnit_relogs (o := o) filename registry u c₁
    obtain ⟨c₂', hreport₂, hc₂⟩ := reportUnit_relogs (o := o) filename registry { u with result := .nil } c₂
    -- the later run starts behind the report and ends with another log
    obtain ⟨c₃', hrun', hc₃'⟩ := (concurs_runUnit _ hc₂).of_ok hrun
    dsimp only
    rw [hreport₁, hreport₂]
    exact .ran hrun' (hc₁.symm.trans (hc₃.trans hc₃'))
  | @failed u e c₁ c₂ c₃ hrun =>
    obtain ⟨c₂', hreport₂, hc₂⟩ := reportUnit_relogs (o := o) filename registry u c₂
    obtain ⟨c₃', hrun', -⟩ := (concurs_runUnit _ hc₂).of_error hrun
    dsimp only
    rw [hreport₂]
    exact .failed hrun'

theorem nowOrLater_compileForms (filename source : String) (c : Compilation MacroBody) :
    NowOrLater o id (compileForms o filename true source c) (compileForms o filename false source c) := by
  cases hread : readSource filename source with
  | error e =>
    have hunread : ∀ runScript, compileForms o filename runScript source =
        (report o ("Parsing " ++ filename ++ "...") >>= fun _ => throw e) := by
      intro runScript
      rw [compileForms, hread]
      rfl
    rw [hunread, hunread, bind_apply]
    cases report o ("Parsing " ++ filename ++ "...") c with
    | ok _ c' => exact .refused
    | error _ c' => exact .refused
  | ok vs =>
    rw [compileForms_eq o true hread, compileForms_eq o false hread, bind_apply, bind_apply]
    cases hopen : openForms o filename c with
    | error e c' => exact .refused
    | ok x c' =>
      obtain ⟨maxDepth, rfl, hc'⟩ := underway_of_openForms hopen
      exact (nowOrLater_finishUnit hc' filename maxDepth vs).report rfl rfl filename _

theorem nowOrLater_compile (filename source : String) (c : Compilation MacroBody) :
    NowOrLater o (·.inFile filename) (compile o filename true source c) (compile o filename false source c) := by
  have hforms := nowOrLater_compileForms (o := o) filename source c
  unfold compile
  generalize compileForms o filename true source c = result at hforms
  generalize compileForms o filename false source c = result' at hforms
  cases hforms with
  | refused => exact .refused
  | ran hrun hc => exact .ran hrun hc
  | failed hrun => exact .failed hrun

/-- It is the same to run the script of a source at once or later.

* If a source is compiled with its script, it can be compiled without, from the same state. The script can be run then,
  its value is the result of the unit, and nothing else sets the units apart. Nor are the states of the compiler set
  apart by more than the log: modules and their functions, the macros and declarations of all registries, the published
  scopes and the warnings are the same.
* If the source can be compiled without the script and the script then fails, compiling it with the script fails with
  the same error, which only names the file.
* If the source cannot be compiled without the script, it cannot be compiled with it, for the same reason. -/
theorem script_now_or_later (o : Settings) (filename source : String) (c : Compilation MacroBody) :
    (∀ u c₁, compile o filename true source c = .ok u c₁ →
      ∃ u' c₂ c₃, compile o filename false source c = .ok u' c₂ ∧ runUnit o u' c₂ = .ok u.result c₃ ∧
        u' = { u with result := .nil } ∧ ∃ log, c₃ = { c₁ with world := { c₁.world with log } }) ∧
    (∀ u' c₂ e c₃, compile o filename false source c = .ok u' c₂ → runUnit o u' c₂ = .error e c₃ →
      ∃ c₁, compile o filename true source c = .error (e.inFile filename) c₁) ∧
    ∀ e c₁, compile o filename false source c = .error e c₁ → compile o filename true source c = .error e c₁ := by
  have h := nowOrLater_compile (o := o) filename source c
  generalize compile o filename true source c = now at h
  generalize compile o filename false source c = later at h
  refine ⟨?_, ?_, ?_⟩
  · rintro u c₁ rfl
    cases h with
    | ran hrun hc => exact ⟨_, _, _, rfl, hrun, rfl, hc⟩
  · rintro u' c₂ e c₃ rfl hrun'
    cases h with
    | ran hrun hc =>
      rw [hrun] at hrun'
      cases hrun'
    | failed hrun =>
      rw [hrun] at hrun'
      cases hrun'
      exact ⟨_, rfl⟩
  · rintro e c₁ rfl
    cases h with
    | refused => rfl

/-- A script calls a function of a module of its unit; and one calls a function that is not there. -/
theorem script_now_or_later_call :
    (∃ u c₁ u' c₂ c₃, compile {} "a.mex" true "<defmodule A <def one () 1>> <A.one>" {} = .ok u c₁ ∧
      u.modules = ["A"] ∧ u.result.describe = "1" ∧
      compile {} "a.mex" false "<defmodule A <def one () 1>> <A.one>" {} = .ok u' c₂ ∧
      runUnit {} u' c₂ = .ok u.result c₃ ∧ u' = { u with result := .nil } ∧
      ∃ log, c₃ = { c₁ with world := { c₁.world with log } }) ∧
    ∃ u' c₂ e c₃ c₁, compile {} "a.mex" false "<defmodule A <def one () 1>> <A.two>" {} = .ok u' c₂ ∧
      runUnit {} u' c₂ = .error e c₃ ∧ e.message = "1:30: undefined function A.two/0" ∧
      compile {} "a.mex" true "<defmodule A <def one () 1>> <A.two>" {} = .error (e.inFile "a.mex") c₁ := by
  have hone : ((compile {} "a.mex" true "<defmodule A <def one () 1>> <A.one>").run' {}).map
      (fun u => (u.modules, u.result.describe)) = some (["A"], "1") := by
    delta compile compileForms Build.unit Build.module Build.expandScope
    rw [Build.forms_eq_foldr]
    decide +kernel
  have htwo : (((compile {} "a.mex" false "<defmodule A <def one () 1>> <A.two>").run' {}).isSome = true) ∧
      (finalError? ((compile {} "a.mex" false "<defmodule A <def one () 1>> <A.two>" >>= runUnit {}) {})).map
        (·.message) = some "1:30: undefined function A.two/0" := by
    delta compile compileForms Build.unit Build.module Build.expandScope
    rw [Build.forms_eq_foldr]
    decide +kernel
  constructor
  · obtain ⟨u, hu, hvalues⟩ := Option.map_eq_some_iff.1 hone
    obtain ⟨c₁, hnow⟩ := run'_eq_some.1 hu
    obtain ⟨u', c₂, c₃, hlater, hrun, hsame, hlog⟩ := (script_now_or_later {} "a.mex" _ {}).1 u c₁ hnow
    obtain ⟨hmodules, hresult⟩ := Prod.mk.inj hvalues
    exact ⟨u, c₁, u', c₂, c₃, hnow, hmodules, hresult, hlater, hrun, hsame, hlog⟩
  · obtain ⟨u', hu'⟩ := Option.isSome_iff_exists.1 htwo.1
    obtain ⟨c₂, hlater⟩ := run'_eq_some.1 hu'
    obtain ⟨e, he, hmessage⟩ := Option.map_eq_some_iff.1 htwo.2
    obtain ⟨c₃, hrun⟩ := finalError?_eq_some.1 he
    rw [bind_apply, hlater] at hrun
    obtain ⟨c₁, hnow⟩ := (script_now_or_later {} "a.mex" _ {}).2.1 u' c₂ e c₃ hlater hrun
    exact ⟨u', c₂, e, c₃, c₁, hlater, hrun, hmessage, hnow⟩

end MacroLang
