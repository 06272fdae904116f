import MacroLang.Proofs.Build.Underway
import MacroLang.Proofs.Source.Closure

/-!
# What compiling a unit comes to

Expanding, registering macros, loading modules and running the script are steady, and a module that passes the check
of its name is new everywhere (`Build.ensures_checkNew`). So a unit whose forms are all dealt with can be published,
and one that fails is rolled back by unloading what it loaded (`Underway.rollBack`).

Main statement: `ensures_compile`.
-/

namespace MacroLang

variable {c₀ : Compilation MacroBody} {pending : List String} {b : Building} {scope : String} {o : Settings}
  {maxDepth : Nat}

/-! ## Work that knows nothing of the unit -/

/-- Of the world only the loaded modules matter to `I`. -/
def MindsModules (I : Compilation MacroBody → Prop) : Prop :=
  ∀ c w, I c → w.modules = c.world.modules → I { c with world := w }

section

variable {I : Compilation MacroBody → Prop}

/-- Progress is reported in the log only, and that does not fail. -/
theorem ensures_report {E : Error → Compilation MacroBody → Prop} (hI : MindsModules I) (text : String) :
    Ensures I (report o text) (fun _ => I) E := by
  unfold report
  split
  · exact Ensures.modify fun c h => hI c _ h rfl
  · exact Ensures.pure fun _ h => h

/-- Code in the world that leaves the loaded modules as they are. -/
theorem maintains_onWorld (hI : MindsModules I) {α : Type} {code : EStateM Error World α}
    (hcode : ∀ mods, Preserves (fun w => w.modules = mods) code) :
    Maintains I (·.isConflict = false) (Expand.onWorld code) := by
  intro c hc
  have hrun := hcode c.world.modules c.world rfl
  unfold Expand.onWorld
  cases h : code c.world with
  | ok a w => rw [h] at hrun; exact hI c w hc hrun
  | error e w => rw [h] at hrun; exact ⟨hI c w hc hrun.1, Error.isConflict_of_isCommon hrun.2⟩

theorem maintains_runForms (hI : MindsModules I) (registry : Nat) (forms : List Value) :
    Maintains I (·.isConflict = false) (runForms o registry forms) := by
  refine .andThen (ensures_report hI _) fun _ => .reading fun c _ => ?_
  exact maintains_onWorld hI fun _ => World.keeps_script (Eval.callsKeep_within _ _) _ _

end

theorem mindsModules_underway : MindsModules fun c => Underway c₀ pending { b with compilation := c } :=
  fun _ _ h hw => h.unconcerned rfl hw rfl

theorem steady_report (text : String) : Steady c₀ pending (Build.lift (report o text)) :=
  .lift fun _ _ => ensures_report mindsModules_underway text

theorem maintains_warn (notice : Notice) (w : Warning) :
    Maintains (fun c => Underway c₀ pending { b with compilation := c }) (·.isConflict = false)
      (Expand.warn notice w) :=
  Ensures.modify fun _ h => h.unconcerned rfl rfl rfl

/-- A change of the session that keeps the scopes of the unit. -/
theorem maintains_change {f : Session MacroBody → Except Error (Session MacroBody)} {entry : String}
    (hf : ∀ s, Common (f s)) (hs : ∀ s s', c₀.session.WithUnit scriptScope Macro.AtHome b.modules s → f s = .ok s' →
      c₀.session.WithUnit scriptScope Macro.AtHome b.modules s') :
    Maintains (fun c => Underway c₀ pending { b with compilation := c }) (·.isConflict = false)
      (Expand.change f entry) := by
  refine Ensures.reading fun c hc => ?_
  refine Ensures.bind
    (R := fun s c' => c' = c ∧ c₀.session.WithUnit scriptScope Macro.AtHome b.modules s) ?_ fun s => ?_
  · refine .ofExcept (fun s hok c' hc' => ⟨hc', hs _ _ hc.session hok⟩) fun e he c' hc' => ?_
    exact ⟨hc' ▸ hc, Error.isConflict_of_isCommon (hf _ e he)⟩
  · refine Ensures.bind (R := fun _ c' => Underway c₀ pending { b with compilation := c' }) ?_ fun _ => ?_
    · rintro _ ⟨rfl, hs⟩
      exact hc.setSession hs
    · exact Ensures.modify fun _ h => h.unconcerned rfl rfl rfl

theorem maintains_expand (hscope : scope ∈ scriptScope :: pending) (v : Value) :
    Maintains (fun c => Underway c₀ pending { b with compilation := c }) (·.isConflict = false)
      ((o.expander c₀.session.registries.length maxDepth).expand scope v) := by
  refine Expander.maintains_expandFrom (fun c c' hc hdeclares => hc.declare hscope hdeclares)
    (fun m args info c ⟨hm, hc⟩ => ?_) (fun _ => Error.isConflict_of_isCommon) (fun _ _ _ => rfl) 0 v
  have hrun : Maintains (fun w => Gained (some m.body.scope) (· ∈ m.body.definitions) c.world.modules w.modules)
      (·.isConflict = false) ((o.expander c₀.session.registries.length maxDepth).run c.session m.body args) :=
    (World.gains_runMacro (Eval.callsKeep_within _ _) m.body args).mono fun _ => Error.isConflict_of_isCommon
  have hinvoke := Expander.ensures_invoke info (fun _ => Error.isConflict_of_isCommon) hrun fun _ => .refl ..
  refine hinvoke.weaken (fun _ h => h) (fun _ _ h => ?_) (fun _ _ h => ⟨?_, h.2⟩) c rfl
  · exact hc.invoke hm h.1.1 h.1.2 h.2
  · exact hc.invoke hm h.1.1.1 h.1.1.2 h.1.2

/-! ## Forms -/

namespace Build

theorem steady_defineMacro (hscope : scope ∈ scriptScope :: pending) (form : String) (args : List Value)
    (info : Info) : Steady c₀ pending (defineMacro c₀.session.registries.length scope form args info) := by
  refine .andThen (.ofExcept (Standard.common.gives_ofForm trivial _ fun _ _ => trivial).raises) fun d => ?_
  refine Ensures.reading fun b hb => ?_
  have hmem := hb.mem_scopes hscope
  refine Ensures.bind
    (R := fun s b' => b' = b ∧ c₀.session.WithUnit scriptScope Macro.AtHome b.modules s) ?_ fun s => ?_
  · refine .ofExcept (fun s hok b' hb' => ⟨hb', ?_⟩) fun e he b' hb' => ?_
    · exact hb.session.redeclare (Session.redeclares_openScope hok) hmem
    · exact ⟨⟨_, hb' ▸ hb⟩, Error.isConflict_of_isCommon ((Standard.common.gives_openScope _ _ _).raises e he)⟩
  · refine Ensures.bind (R := fun _ => Underway c₀ pending) ?_ fun _ => ?_
    · rintro _ ⟨rfl, hs⟩
      exact hb.setSession hs
    · refine Steady.lift fun b hb => maintains_change (fun s => ?_) fun s s' hs hok => ?_
      · exact (Standard.common.gives_register s _ trivial).raises
      · refine hs.register ?_ (hb.mem_scopes hscope) hok
        rw [Macro.AtHome]

theorem laws_steady (c₀ : Compilation MacroBody) (pending : List String) :
    Laws fun _ code => Steady c₀ pending code :=
  ⟨fun a => .pure a, fun h hnext => .andThen h hnext⟩

section

variable {onModule : List Value → Info → Build Unit} (hmodule : ∀ args info, Steady c₀ pending (onModule args info))
  (hscope : scope ∈ scriptScope :: pending)

include hmodule hscope

/-- Forms are dealt with steadily, if modules are. -/
theorem steady_forms (vs : List Value) :
    Steady c₀ pending (forms (o.expander c₀.session.registries.length maxDepth) onModule scope vs) := by
  refine (laws_steady c₀ pending).forms hmodule (fun form args info => ?_) (fun v => ?_) vs
  · exact steady_defineMacro hscope form args info
  · exact .lift fun _ _ => maintains_expand hscope v

theorem steady_expandScope (vs : List Value) :
    Steady c₀ pending (expandScope o (o.expander c₀.session.registries.length maxDepth) onModule scope vs) :=
  .andThen (steady_report _) fun _ => steady_forms hmodule hscope vs

end

theorem steady_warnShadowed (x : Expander MacroBody) (module : String) (fs : List Function) :
    Steady c₀ pending (warnShadowed x module fs) := by
  induction fs with
  | nil => exact .pure _
  | cons f fs ih =>
    refine Ensures.peeking fun b => ?_
    dsimp only
    split
    · exact Steady.andThen (.lift fun _ _ => maintains_warn _ _) fun _ => ih
    · exact ih

/-! ## Modules -/

/-- The name of a module that passes is new to the unit, to the session and to the world. -/
theorem ensures_checkNew (name : String) (info : Info) :
    Ensures (Underway c₀ []) (checkNew c₀.session.registries.length name info)
      (fun _ b => Underway c₀ [] b ∧ name ∉ scriptScope :: b.modules ∧
        name ∉ c₀.session.published.map Prod.fst ∧ name ∉ c₀.world.modules.map (·.name))
      (fun e b => (∃ pending, Underway c₀ pending b) ∧ e.isConflict = false) := by
  refine Ensures.reading fun b hb => ?_
  dsimp only
  split
  · exact Ensures.throw fun _ h => ⟨⟨_, h ▸ hb⟩, rfl⟩
  · rename_i hnew
    refine Ensures.pure fun _ h => ?_
    subst h
    simp only [Bool.or_eq_true, not_or, Bool.not_eq_true] at hnew
    obtain ⟨⟨howns, hpublished⟩, hloaded⟩ := hnew
    refine ⟨hb, fun hmem => ?_, ?_, fun hmem => ?_⟩
    · rw [hb.session.owns_iff.2 hmem] at howns
      cases howns
    · rw [← hb.session.published]
      exact Session.isPublished_eq_false.1 hpublished
    · -- the names from before are still there
      have hnames : name ∈ _ := hb.world.names ▸ List.mem_append_left _ hmem
      obtain ⟨m, hm, hname⟩ := List.mem_map.1 hnames
      exact World.isLoaded_eq_false.1 hloaded m hm hname

theorem ensures_load (name : String) (link : Linkage) (hlink : Eval.CallsKeep link) (kept : List Value)
    (declarations : Option DeclarationSource) :
    Ensures (Underway c₀ [name]) (lift (Expand.onWorld (World.load link name kept declarations)))
      (fun _ b => Underway c₀ [] { b with loaded := name :: b.loaded })
      (fun e b => (∃ pending, Underway c₀ pending b) ∧ e.isConflict = false) := by
  intro b hb
  have hload := World.ensures_load hlink name kept declarations b.compilation.world rfl
  unfold lift Expand.onWorld
  cases h : World.load link name kept declarations b.compilation.world with
  | ok u w =>
    rw [h] at hload
    obtain ⟨m, rfl, hmodules⟩ := hload
    exact hb.loadModule rfl rfl hmodules
  | error e w =>
    rw [h] at hload
    exact ⟨⟨_, hb.unconcerned rfl hload.1 rfl⟩, Error.isConflict_of_isCommon hload.2⟩

theorem steady_module (args : List Value) (info : Info) :
    Steady c₀ [] (module o (o.expander c₀.session.registries.length maxDepth) args info) := by
  unfold module
  split
  · exact .throw rfl
  rename_i first body
  refine .andThen (.ofExcept (Standard.common.gives_moduleName trivial _).raises) fun name => ?_
  refine Ensures.bind (ensures_checkNew name info) fun _ => ?_
  refine Ensures.reading fun b hb => ?_
  obtain ⟨hb, hscope, hpublished, hloaded⟩ := hb
  refine Ensures.bind
    (R := fun s b' => b' = b ∧ c₀.session.WithUnit scriptScope Macro.AtHome (b.modules ++ [name]) s) ?_ fun s => ?_
  · refine .ofExcept (fun s hok b' hb' => ⟨hb', hb.session.openScope hscope hok⟩) fun e he b' hb' => ?_
    exact ⟨⟨_, hb' ▸ hb⟩, Error.isConflict_of_isCommon ((Standard.common.gives_openScope _ _ _).raises e he)⟩
  refine Ensures.bind (R := fun _ b' => Underway c₀ [name] { b' with modules := b'.modules ++ [name] }) ?_ fun _ => ?_
  · rintro _ ⟨rfl, hs⟩
    exact hb.openModule hscope hpublished hloaded hs
  refine Ensures.bind (R := fun _ => Underway c₀ [name]) (.modify fun _ h => h) fun _ => ?_
  have hname : name ∈ scriptScope :: [name] := List.mem_cons_of_mem _ List.mem_cons_self
  refine Ensures.bind (R := fun _ => Underway c₀ [name]) (steady_report _) fun _ => ?_
  refine Ensures.bind (R := fun _ => Underway c₀ [name])
    (steady_expandScope (fun _ _ => .throw rfl) hname body) fun kept => ?_
  refine Ensures.bind (R := fun _ => Underway c₀ [name]) (.modify fun _ h => ?_) fun _ => ?_
  · exact ⟨h.session, h.loaded, h.unpublished, h.unloaded, h.nodup, h.world⟩
  refine Ensures.bind (R := fun _ => Underway c₀ [name]) (steady_report _) fun _ => ?_
  refine Ensures.reading fun b' hb' => ?_
  refine Ensures.bind (R := fun _ b => Underway c₀ [] { b with loaded := name :: b.loaded }) ?_ fun _ => ?_
  · rintro _ rfl
    exact ensures_load name _ (Eval.callsKeep_within _ _) kept _ _ hb'
  refine Ensures.bind (R := fun _ => Underway c₀ []) (.modify fun _ h => h) fun _ => ?_
  exact Ensures.peeking fun _ => steady_warnShadowed _ _ _

end Build

/-! ## The whole unit -/

/-- A unit with the given modules was compiled: they are published and loaded, behind those from before. -/
structure Completed (c₀ : Compilation MacroBody) (modules : List String) (c : Compilation MacroBody) : Prop where
  published : c.session.published = c₀.session.published ++ modules.map (·, c₀.session.registries.length)
  count : c.session.registries.length = c₀.session.registries.length + 1
  others : ∀ q < c₀.session.registries.length, c.session.registry q = c₀.session.registry q
  homes : c₀.session.AllMacros Macro.AtHome → c.session.AllMacros Macro.AtHome
  unpublished : ∀ n ∈ modules, n ∉ c₀.session.published.map Prod.fst
  nodup : (scriptScope :: modules).Nodup
  world : LoadedSince c₀.MayDefine c₀.world.modules modules (c.expansions = 0) c.world.modules

/-- Compiling a unit failed: nothing was published, and the loaded modules are those from before. -/
structure RolledBack (c₀ c : Compilation MacroBody) : Prop where
  published : c.session.published = c₀.session.published
  count : c.session.registries.length = c₀.session.registries.length ∨
    c.session.registries.length = c₀.session.registries.length + 1
  others : ∀ q < c₀.session.registries.length, c.session.registry q = c₀.session.registry q
  homes : c₀.session.AllMacros Macro.AtHome → c.session.AllMacros Macro.AtHome
  gained : List.Forall₂ (Module.ExtendsBy c₀.MayDefine) c₀.world.modules c.world.modules
  untouched : c.expansions = 0 → c.world.modules = c₀.world.modules

theorem RolledBack.of_modules {c : Compilation MacroBody} (hpublished : c.session.published = c₀.session.published)
    (hcount : c.session.registries.length = c₀.session.registries.length ∨
      c.session.registries.length = c₀.session.registries.length + 1)
    (hothers : ∀ q < c₀.session.registries.length, c.session.registry q = c₀.session.registry q)
    (hhomes : c₀.session.AllMacros Macro.AtHome → c.session.AllMacros Macro.AtHome)
    (hmodules : c.world.modules = c₀.world.modules) : RolledBack c₀ c := by
  refine ⟨hpublished, hcount, hothers, hhomes, ?_, fun _ => hmodules⟩
  rw [hmodules]
  exact List.forall₂_same.2 fun m _ => .refl _ m

theorem publish_of_ok {r : Nat} {c : Compilation MacroBody} {s : Session MacroBody}
    (h : c.session.publish r = (s, .ok ())) :
    ∃ text, publish r c = .ok () (({ c with session := s } : Compilation MacroBody).debug text) := by
  rw [publish, get_bind, h]
  exact ⟨_, rfl⟩

theorem ensures_publish : Ensures (Underway c₀ []) (Build.lift (publish c₀.session.registries.length))
    (fun _ b => Completed c₀ b.modules b.compilation)
    (fun e b => (∃ pending, Underway c₀ pending b) ∧ e.isConflict = false) := by
  intro b hb
  obtain ⟨s, hs, hpublished, hcount, hothers, hhomes⟩ := hb.session.publish hb.unpublished hb.nodup
  obtain ⟨text, hpublish⟩ := publish_of_ok hs
  have hloaded : b.modules = b.loaded.reverse := hb.loaded.trans (List.append_nil _)
  rw [Build.lift, hpublish]
  exact ⟨hpublished, hcount, hothers, hhomes, hb.unpublished, hb.nodup, hloaded ▸ hb.world⟩

theorem ensures_unit (runScript : Bool) (vs : List Value) :
    Ensures (Underway c₀ []) (Build.unit o (o.expander c₀.session.registries.length maxDepth) runScript vs)
      (fun _ b => Completed c₀ b.modules b.compilation)
      (fun e b => (∃ pending, Underway c₀ pending b) ∧ e.isConflict = false) := by
  refine Ensures.bind (R := fun _ => Underway c₀ [])
    (Build.steady_expandScope Build.steady_module List.mem_cons_self vs) fun script => ?_
  refine Ensures.bind (R := fun _ => Underway c₀ []) (.modify fun _ h => ?_) fun _ => ?_
  · exact ⟨h.session, h.loaded, h.unpublished, h.unloaded, h.nodup, h.world⟩
  have hlast : ∀ result : Value, Ensures (Underway c₀ [])
      (Build.lift (publish c₀.session.registries.length) >>= fun _ => pure result)
      (fun _ b => Completed c₀ b.modules b.compilation)
      (fun e b => (∃ pending, Underway c₀ pending b) ∧ e.isConflict = false) :=
    fun _ => Ensures.bind ensures_publish fun _ => .pure fun _ h => h
  dsimp only
  split
  · exact Ensures.bind (Steady.lift fun _ _ => maintains_runForms mindsModules_underway _ _) hlast
  · exact hlast _

/-! ## Unloading -/

theorem World.modules_foldl_unload (names : List String) (w : World) :
    (names.foldl World.unload w).modules = w.modules.filter (fun m => !names.contains m.name) := by
  induction names generalizing w with
  | nil => simp
  | cons n names ih =>
    rw [List.foldl_cons, ih]
    show (w.modules.filter (·.name != n)).filter _ = _
    rw [List.filter_filter]
    refine List.filter_congr fun m _ => ?_
    by_cases hm : m.name = n
    · simp [hm]
    · simp [hm]

theorem Underway.rollBack {pending : List String} (h : Underway c₀ pending b) : RolledBack c₀
    { b.compilation with world := b.loaded.foldl World.unload b.compilation.world } := by
  obtain ⟨old, new, hmodules, hold, hexact, hnew⟩ := h.world
  have hrest : (b.loaded.foldl World.unload b.compilation.world).modules = old := by
    rw [World.modules_foldl_unload, hmodules, List.filter_append]
    have hkept : old.filter (fun m => !b.loaded.contains m.name) = old := by
      refine List.filter_eq_self.2 fun m hm => ?_
      have hname : m.name ∈ c₀.world.modules.map (·.name) :=
        map_name_of_extendsBy hold ▸ List.mem_map_of_mem hm
      have hnot : m.name ∉ b.loaded := fun hloaded => h.unloaded _ (h.mem_modules hloaded) hname
      simpa using hnot
    have hgone : new.filter (fun m => !b.loaded.contains m.name) = [] := by
      refine List.filter_eq_nil_iff.2 fun m hm => ?_
      have hname : m.name ∈ b.loaded := List.mem_reverse.1 (hnew ▸ List.mem_map_of_mem hm)
      simpa using hname
    rw [hkept, hgone, List.append_nil]
  refine ⟨h.session.published, .inr h.session.count, h.session.others, h.session.allMacros, ?_, fun hzero => ?_⟩
  · show List.Forall₂ _ _ (b.loaded.foldl World.unload b.compilation.world).modules
    rw [hrest]
    exact hold
  · exact hrest.trans (hexact hzero)

theorem ensures_finishUnit (filename : String) (runScript : Bool) (vs : List Value) :
    Ensures (fun c => Underway c₀ [] { compilation := c })
      (finishUnit filename c₀.session.registries.length
        (Build.unit o (o.expander c₀.session.registries.length maxDepth) runScript vs))
      (fun u c => u.registry = c₀.session.registries.length ∧ Completed c₀ u.modules c)
      (fun e c => RolledBack c₀ c ∧ e.isConflict = false) := by
  intro c hc
  unfold finishUnit
  cases h : Build.unit o (o.expander c₀.session.registries.length maxDepth) runScript vs { compilation := c } with
  | ok result b => exact ⟨rfl, (ensures_unit runScript vs).of_ok hc h⟩
  | error e b =>
    obtain ⟨⟨pending, hb⟩, he⟩ := (ensures_unit runScript vs).of_error hc h
    exact ⟨hb.rollBack, he⟩

/-! ## Compilation -/

theorem Standard.gives_readMaxDepth (S : Standard) (depth : Option Int) :
    S.Gives (fun _ => True) (readMaxDepth depth) := by
  unfold readMaxDepth
  split
  · split
    · exact S.unlocated rfl
    · trivial
  · exact S.unlocated rfl

theorem ensures_openUnit (filename : String) :
    Ensures (fun c => c.session = c₀.session ∧ c.world.modules = c₀.world.modules) (openUnit filename)
      (fun r c => r = c₀.session.registries.length ∧ c₀.session.WithUnit scriptScope Macro.AtHome [] c.session ∧
        c.world.modules = c₀.world.modules)
      (fun e c => RolledBack c₀ c ∧ e.isConflict = false) := by
  refine Ensures.reading fun c ⟨hsession, hmodules⟩ => ?_
  dsimp only
  rw [hsession]
  refine Ensures.bind (R := fun _ c' => c'.session = c₀.session.newUnit filename scriptScope ∧
    c'.world.modules = c₀.world.modules) (.modify fun _ h => ⟨rfl, h ▸ hmodules⟩) fun _ => ?_
  refine Ensures.bind (R := fun s c' => c₀.session.WithUnit scriptScope Macro.AtHome [] s ∧
    c'.world.modules = c₀.world.modules) (.ofExcept ?_ ?_) fun s => ?_
  · exact fun s hok c' hc' => ⟨Session.withUnit_of_openScope _ hok, hc'.2⟩
  · intro e he c' ⟨hsession', hmodules'⟩
    have hcommon := (Standard.common.gives_openScope _ _ _).raises e he
    refine ⟨.of_modules ?_ (.inr ?_) (fun q hq => ?_) (fun h => ?_) hmodules', Error.isConflict_of_isCommon hcommon⟩
    · rw [hsession']
      rfl
    · rw [hsession', Session.length_newUnit]
    · rw [hsession', Session.registry_newUnit_of_lt _ _ _ hq]
    · rw [hsession']
      exact Session.allMacros_newUnit h _ _
  · exact Ensures.bind (.modify fun _ h => h) fun _ => .pure fun _ h => ⟨rfl, h⟩

theorem underway_of_withUnit {c : Compilation MacroBody}
    (hs : c₀.session.WithUnit scriptScope Macro.AtHome [] c.session) (hmodules : c.world.modules = c₀.world.modules) :
    Underway c₀ [] { compilation := c } where
  session := hs
  loaded := rfl
  unpublished := nofun
  unloaded := nofun
  nodup := List.pairwise_singleton _ _
  world := by
    show LoadedSince _ _ [] (c.expansions = 0) c.world.modules
    rw [hmodules]
    exact .refl ..

theorem ensures_compileForms (filename : String) (runScript : Bool) (source : String) :
    Ensures (· = c₀) (compileForms o filename runScript source)
      (fun u c => u.registry = c₀.session.registries.length ∧ Completed c₀ u.modules c)
      (fun e c => RolledBack c₀ c ∧ e.isConflict = false) := by
  let Same := fun c : Compilation MacroBody => c.session = c₀.session ∧ c.world.modules = c₀.world.modules
  have hsame : ∀ c, Same c → RolledBack c₀ c := fun c ⟨hsession, hmodules⟩ =>
    .of_modules (by rw [hsession]) (.inl (by rw [hsession])) (fun q _ => by rw [hsession])
      (fun h => by rw [hsession]; exact h) hmodules
  have hstart : Ensures Same (compileForms o filename runScript source)
      (fun u c => u.registry = c₀.session.registries.length ∧ Completed c₀ u.modules c)
      (fun e c => RolledBack c₀ c ∧ e.isConflict = false) := ?_
  · exact hstart.weaken (fun _ h => h ▸ ⟨rfl, rfl⟩) (fun _ _ h => h) fun _ _ h => h
  refine Ensures.bind (ensures_report (fun _ _ h hw => ⟨h.1, hw.trans h.2⟩) _) fun _ => ?_
  refine Ensures.bind (R := fun _ => Same) (.ofExcept (fun _ _ _ h => h) fun e he c hc => ?_) fun vs => ?_
  · have hread := Standard.common.gives_readSource filename source (fun _ _ _ => rfl) fun _ _ => trivial
    exact ⟨hsame c hc, Error.isConflict_of_isCommon (hread.raises e he)⟩
  refine Ensures.bind (ensures_openUnit filename) fun r => .given fun hr => ?_
  subst hr
  refine Ensures.bind (R := fun _ c => c₀.session.WithUnit scriptScope Macro.AtHome [] c.session ∧
    c.world.modules = c₀.world.modules) (.ofExcept (fun _ _ _ h => h) fun e he c hc => ?_) fun maxDepth => ?_
  · refine ⟨.of_modules hc.1.published (.inr hc.1.count) hc.1.others hc.1.allMacros hc.2, ?_⟩
    exact Error.isConflict_of_isCommon ((Standard.common.gives_readMaxDepth _).raises e he)
  refine Ensures.bind (R := fun _ c => Underway c₀ [] { compilation := c }) (.modify fun c hc => ?_) fun _ => ?_
  · exact underway_of_withUnit hc.1 hc.2
  refine Ensures.bind (ensures_finishUnit filename runScript vs) fun u => ?_
  refine Ensures.peeking fun c => ?_
  refine Ensures.bind (ensures_report (fun c w h hw => ⟨h.1, ?_⟩) _) fun _ => .pure fun _ h => h
  exact ⟨h.2.published, h.2.count, h.2.others, h.2.homes, h.2.unpublished, h.2.nodup, hw ▸ h.2.world⟩

/-- Compiling a source is compiling its forms, except that errors name the file. -/
theorem ensures_compile_of_forms {filename source : String} {runScript : Bool} {P : Compilation MacroBody → Prop}
    {Q : CompiledUnit → Compilation MacroBody → Prop} {E : Error → Compilation MacroBody → Prop}
    (h : Ensures P (compileForms o filename runScript source) Q fun e => E (e.inFile filename)) :
    Ensures P (compile o filename runScript source) Q E := by
  intro c hc
  unfold compile
  cases hforms : compileForms o filename runScript source c with
  | ok u c' => exact h.of_ok hc hforms
  | error e c' => exact h.of_error hc hforms

/-- A unit is compiled and its modules are published and loaded, or all is rolled back. -/
theorem ensures_compile (filename : String) (runScript : Bool) (source : String) :
    Ensures (· = c₀) (compile o filename runScript source)
      (fun u c => u.registry = c₀.session.registries.length ∧ Completed c₀ u.modules c)
      (fun e c => RolledBack c₀ c ∧ e.isConflict = false) := by
  refine ensures_compile_of_forms ?_
  refine (ensures_compileForms filename runScript source).weaken (fun _ h => h) (fun _ _ h => h) ?_
  rintro e c ⟨hrolled, he⟩
  exact ⟨hrolled, (e.isConflict_inFile filename).trans he⟩

/-- A source that cannot be read has no effect on modules. -/
theorem ensures_compile_unread {filename source : String} {e : Error} (runScript : Bool)
    (hread : readSource filename source = .error e) :
    Ensures (fun c => c.world.modules = c₀.world.modules) (compile o filename runScript source)
      (fun _ _ => False) (fun _ c => c.world.modules = c₀.world.modules) := by
  refine ensures_compile_of_forms ?_
  refine Ensures.bind (ensures_report (fun _ _ h hw => hw.trans h) _) fun _ => ?_
  rw [hread]
  exact fun _ h => h

end MacroLang
