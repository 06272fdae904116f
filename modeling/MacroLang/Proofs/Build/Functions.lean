import MacroLang.Proofs.Build.History

/-!
# The functions of loaded modules

A module that is loaded stays loaded and keeps its functions, whatever is compiled later and whether or not that fails.
It may gain functions. Scripts, function calls and other modules add none; but the body of a macro runs in the module of
its scope whenever a later unit calls the macro, and there a `def` or `defp` that is evaluated, and not only quoted,
defines a function. So a module all of whose macros only quote definitions never changes. A unit that fails is rolled
back up to such functions: its own modules are gone, but what its macro calls have added to others stays.

Main statements: `compile_extends_functions`, `compile_error_rollsBack`.
-/

namespace MacroLang

namespace Module

/-- The first module of a name is the extended first module of that name. -/
theorem find?_of_extendsBy {allowed : String → Function → Prop} {mods old : List Module} {n : String} {m : Module}
    (h : List.Forall₂ (ExtendsBy allowed) mods old) (hm : mods.find? (·.name == n) = some m) :
    ∃ m', old.find? (·.name == n) = some m' ∧ m.ExtendsBy allowed m' := by
  induction h with
  | nil => cases hm
  | @cons k k' mods old hk _ ih =>
    rw [List.find?_cons] at hm ⊢
    rw [hk.name]
    cases hname : k.name == n with
    | true =>
      rw [hname] at hm
      cases hm
      exact ⟨k', rfl, hk⟩
    | false =>
      rw [hname] at hm
      exact ih hm

theorem ExtendsBy.eq_of_none {allowed : String → Function → Prop} {m m' : Module} (h : m.ExtendsBy allowed m')
    (hnone : ∀ f, ¬allowed m.name f) : m' = m := by
  obtain ⟨fs, hfs, hfunctions⟩ := h.functions
  have hempty : fs = [] := List.eq_nil_iff_forall_not_mem.2 fun f hf => hnone f (hfs f hf)
  rw [hempty, List.append_nil] at hfunctions
  cases m
  cases m'
  cases h.name
  cases h.declarations
  cases hfunctions
  rfl

/-- Where nothing is allowed, the first module of a name is what it was, and there is none if there was none. -/
theorem find?_eq_of_extendsBy {allowed : String → Function → Prop} {mods old : List Module} {n : String}
    (h : List.Forall₂ (ExtendsBy allowed) mods old) (hnone : ∀ f, ¬allowed n f) :
    old.find? (·.name == n) = mods.find? (·.name == n) := by
  induction h with
  | nil => rfl
  | @cons k k' mods old hk _ ih =>
    rw [List.find?_cons, List.find?_cons, hk.name, ih]
    cases hname : k.name == n with
    | true => exact congrArg some (hk.eq_of_none ((eq_of_beq hname).symm ▸ hnone))
    | false => rfl

theorem function?_append {m m' : Module} {fs : List Function} (h : m'.functions = m.functions ++ fs) (name : String)
    (arity : Nat) :
    m'.function? name arity =
      (m.function? name arity).or (fs.find? fun f => f.name == name && f.arity == arity) := by
  rw [function?, h, List.find?_append]
  rfl

end Module

/-- Modules that were loaded before are still found, with more functions perhaps. -/
theorem World.module?_of_loadedSince {allowed : String → Function → Prop} {mods : List Module} {names : List String}
    {exactly : Prop} {w : World} {n : String} {m : Module} (h : LoadedSince allowed mods names exactly w.modules)
    (hm : mods.find? (·.name == n) = some m) : ∃ m', w.module? n = some m' ∧ m.ExtendsBy allowed m' := by
  obtain ⟨old, new, hmods, hold, -, -⟩ := h
  obtain ⟨m', hm', hextends⟩ := Module.find?_of_extendsBy hold hm
  refine ⟨m', ?_, hextends⟩
  rw [module?, hmods, List.find?_append, hm', Option.some_or]

theorem RolledBack.loadedSince {c c' : Compilation MacroBody} (h : RolledBack c c') :
    LoadedSince c.MayDefine c.world.modules [] (c'.expansions = 0) c'.world.modules :=
  ⟨_, [], (List.append_nil _).symm, h.gained, h.untouched, rfl⟩

/-- Whether compiling a source succeeds or fails, a loaded module is still found, with more functions perhaps. -/
theorem compile_module? (o : Settings) (filename : String) (runScript : Bool) (source : String)
    {c : Compilation MacroBody} {n : String} {m : Module} (hm : c.world.module? n = some m) :
    ∃ m', (finalState (compile o filename runScript source c)).world.module? n = some m' ∧
      m.ExtendsBy c.MayDefine m' := by
  cases hrun : compile o filename runScript source c with
  | ok u c' =>
    have hcompleted := ((ensures_compile filename runScript source).of_ok rfl hrun).2
    exact World.module?_of_loadedSince hcompleted.world hm
  | error e c' =>
    have hrolled := ((ensures_compile filename runScript source).of_error rfl hrun).1
    exact World.module?_of_loadedSince hrolled.loadedSince hm

/-- A macro of the module's own scope has the definition of the function in its body. -/
def Session.MacrosDefine (s : Session MacroBody) (module : String) (f : Function) : Prop :=
  ∃ r k, s.publisher? module = some r ∧ k ∈ (s.registry r).macros ∧ k.scope = module ∧ f ∈ k.body.definitions

namespace InStep

variable {units : List CompiledUnit} {c : Compilation MacroBody} {n : String}

theorem exists_publisher (h : InStep units c) (hn : c.world.isLoaded n = true) :
    ∃ r, c.session.publisher? n = some r := by
  rw [h.isLoaded_eq] at hn
  exact Option.isSome_iff_exists.1 hn

theorem ne_scriptScope (h : InStep units c) (hn : c.world.isLoaded n = true) : n ≠ scriptScope := by
  rintro rfl
  rw [h.isLoaded_eq, Session.isPublished_eq_false.2 (List.nodup_cons.1 h.nodup).1] at hn
  cases hn

/-- What may be defined in a loaded module, the macros of its own scope define. -/
theorem mayDefine (h : InStep units c) (hn : c.world.isLoaded n = true) {r : Nat}
    (hr : c.session.publisher? n = some r) {f : Function} (hf : c.MayDefine n f) :
    ∃ k ∈ (c.session.registry r).macros, k.scope = n ∧ f ∈ k.body.definitions := by
  rcases hf with hscript | ⟨q, k, hq, hk, hscope, hdefines⟩
  · exact absurd hscript (h.ne_scriptScope hn)
  · have hhome : k.scope = n := (h.homes q k hk).symm.trans hscope
    rw [hhome, hr] at hq
    cases hq
    exact ⟨k, hk, hhome, hdefines⟩

/-- What the loaded modules may gain, the macros of their own scopes define. -/
theorem gained (h : InStep units c) {old : List Module}
    (hgained : List.Forall₂ (Module.ExtendsBy c.MayDefine) c.world.modules old) :
    List.Forall₂ (Module.ExtendsBy c.session.MacrosDefine) c.world.modules old := by
  have hloaded : ∀ m ∈ c.world.modules, c.world.isLoaded m.name = true := fun m hm =>
    Bool.of_not_eq_false fun hfalse => World.isLoaded_eq_false.1 hfalse m hm rfl
  refine ((List.forall₂_and_left _ _).2 ⟨hloaded, hgained⟩).imp fun m m' ⟨hm, hextends⟩ => ?_
  obtain ⟨r, hr⟩ := h.exists_publisher hm
  refine hextends.imp fun f hf => ?_
  obtain ⟨k, hk, hscope, hdefines⟩ := h.mayDefine hm hr hf
  exact ⟨r, k, hr, hk, hscope, hdefines⟩

end InStep

/-- Let `m` be a module that is loaded after any requests to a compiler, and let any source be compiled then, with
success or not. The module is still loaded, and every function that it had is found as before. What it has gained are
functions that the macros of the module itself define in their bodies. If these define none, then every name and arity
stands for the same function as before, or for none as before. -/
theorem compile_extends_functions (o : Settings) (requests : List Request) (filename : String) (runScript : Bool)
    (source : String) {n : String} {m : Module}
    (hm : (History.ofRequests o requests).compilation.world.module? n = some m) :
    let c := (History.ofRequests o requests).compilation
    let c' := finalState (compile o filename runScript source c)
    ∃ r m' added, c.session.publisher? n = some r ∧ c'.world.module? n = some m' ∧
      m'.functions = m.functions ++ added ∧
      (∀ f ∈ added, ∃ k ∈ (c.session.registry r).macros, k.scope = n ∧ f ∈ k.body.definitions) ∧
      (∀ name arity f, m.function? name arity = some f → m'.function? name arity = some f) ∧
      ((∀ k ∈ (c.session.registry r).macros, k.scope = n → k.body.definitions = []) →
        ∀ name arity, m'.function? name arity = m.function? name arity) := by
  intro c c'
  have hstep : InStep _ c := (History.sound_foldl ⟨.start, List.forall_mem_nil _⟩ o requests).inStep
  have hloaded : c.world.isLoaded n = true := Option.isSome_iff_exists.2 ⟨m, hm⟩
  obtain ⟨r, hr⟩ := hstep.exists_publisher hloaded
  obtain ⟨m', hm', hextends⟩ := compile_module? o filename runScript source hm
  obtain ⟨added, hadded, hfunctions⟩ := hextends.functions
  have hname : m.name = n := by
    have hfound := List.find?_some hm
    exact eq_of_beq hfound
  have hsource : ∀ f ∈ added, ∃ k ∈ (c.session.registry r).macros, k.scope = n ∧ f ∈ k.body.definitions :=
    fun f hf => hstep.mayDefine hloaded hr (hname ▸ hadded f hf)
  refine ⟨r, m', added, hr, hm', hfunctions, hsource, fun name arity f hf => ?_, fun hnone name arity => ?_⟩
  · rw [Module.function?_append hfunctions, hf, Option.some_or]
  · have hempty : added = [] := by
      refine List.eq_nil_iff_forall_not_mem.2 fun f hf => ?_
      obtain ⟨k, hk, hscope, hdefines⟩ := hsource f hf
      rw [hnone k hk hscope] at hdefines
      cases hdefines
    rw [Module.function?_append hfunctions, hempty, List.find?_nil, Option.or_none]

/-- Forms are expanded one by one. With the plain recursion in the place of the work stack this can be evaluated by the
kernel. -/
theorem Build.forms_eq_foldr : Build.forms = fun x onModule scope vs =>
    vs.foldr (fun v rest => do
      let v ← lift (Expanded.value <$> x.expandWithin scope x.maxDepth v)
      let kept ← items x.registry onModule scope (spliceBlocks v)
      let rest ← rest
      return kept ++ rest) (pure []) := by
  funext x onModule scope vs
  induction vs with
  | nil => rfl
  | cons v vs ih =>
    have hexpand : x.expand scope v = Expanded.value <$> x.expandWithin scope x.maxDepth v :=
      x.expandFrom_eq_expandWithin 0 scope v
    rw [Build.forms, ih, hexpand]
    rfl

/-- The macro of a module quotes a definition. Another module calls the macro and gets the function; the first one has
the functions that it had. -/
theorem compile_extends_functions_quoted :
    let c := (History.ofRequests {} [.compile "m.mex"
      "<defmodule M <def one () 1> <defmacro make () <quote <def extra () 1>>>>" true]).compilation
    let c' := finalState (compile {} "a.mex" true "<defmodule A <require M> <M.make>>" c)
    ∃ m m', c.world.module? "M" = some m ∧ c'.world.module? "M" = some m' ∧
      (c'.world.module? "A").map (·.functions.map (·.describe)) = some ["Function(def A.extra/0)"] ∧
      m.functions.map (·.describe) = ["Function(def M.one/0)"] ∧
      ∀ name arity, m'.function? name arity = m.function? name arity := by
  intro c c'
  have hfacts : (c.world.module? "M").map (·.functions.map (·.describe)) = some ["Function(def M.one/0)"] ∧
      (c'.world.module? "A").map (·.functions.map (·.describe)) = some ["Function(def A.extra/0)"] ∧
      c.session.publisher? "M" = some 0 ∧ ∀ k ∈ (c.session.registry 0).macros, k.body.definitions.isEmpty := by
    unfold c' c
    delta History.ofRequests History.next Request.code compile compileForms Build.unit Build.module Build.expandScope
    rw [Build.forms_eq_foldr]
    decide +kernel
  obtain ⟨hM, hA, hpublisher, hdefines⟩ := hfacts
  obtain ⟨m, hm, hone⟩ := Option.map_eq_some_iff.1 hM
  obtain ⟨r, m', -, hr, hm', -, -, -, hsame⟩ :=
    compile_extends_functions {} _ "a.mex" true "<defmodule A <require M> <M.make>>" hm
  cases hr.symm.trans hpublisher
  exact ⟨m, m', hm, hm', hA, hone, hsame fun k hk _ => List.isEmpty_iff.1 (hdefines k hk)⟩

/-- Here the body of the macro is the definition itself, and a call of the macro in another unit defines the function in
the module. -/
theorem macro_call_adds_function :
    let c := (History.ofRequests {} [.compile "m.mex"
      "<defmodule M <defmacro grow () <def extra () 1> 1>>" true]).compilation
    let c' := finalState (compile {} "a.mex" true "<require M> <M.grow>" c)
    (c.world.module? "M").map (·.functions.map (·.describe)) = some [] ∧
      (c'.world.module? "M").map (·.functions.map (·.describe)) = some ["Function(def M.extra/0)"] := by
  delta History.ofRequests History.next Request.code compile compileForms Build.unit Build.module Build.expandScope
  rw [Build.forms_eq_foldr]
  decide +kernel

/-- Let compiling a source fail, wherever that is, after any requests to a compiler. Then nothing was published, the
registries of earlier units are as they were, and the loaded modules are those from before in their order: none of the
failed unit is left and none is missing. Each keeps its declarations and its functions; what it has gained are functions
that the macros of the module itself define in their bodies. A module whose macros define none is just what it was, and
without an invocation of a macro, or if the source cannot even be read, so are all. -/
theorem compile_error_rollsBack (o : Settings) (requests : List Request) (filename : String) (runScript : Bool)
    (source : String) {e : Error} {c' : Compilation MacroBody}
    (h : compile o filename runScript source (History.ofRequests o requests).compilation = .error e c') :
    let c := (History.ofRequests o requests).compilation
    c'.session.published = c.session.published ∧
      (∀ q < c.session.registries.length, c'.session.registry q = c.session.registry q) ∧
      List.Forall₂ (Module.ExtendsBy c.session.MacrosDefine) c.world.modules c'.world.modules ∧
      (∀ n, (∀ f, ¬c.session.MacrosDefine n f) → c'.world.module? n = c.world.module? n) ∧
      ((∀ vs, readSource filename source = .ok vs → c'.expansions = 0) → c'.world.modules = c.world.modules) := by
  intro c
  have hstep : InStep _ c := (History.sound_foldl ⟨.start, List.forall_mem_nil _⟩ o requests).inStep
  obtain ⟨hrolled, -⟩ := (ensures_compile filename runScript source).of_error rfl h
  have hgained := hstep.gained hrolled.gained
  refine ⟨hrolled.published, hrolled.others, hgained, fun n => Module.find?_eq_of_extendsBy hgained, fun hnone => ?_⟩
  cases hread : readSource filename source with
  | ok vs => exact hrolled.untouched (hnone vs hread)
  | error e' => exact (ensures_compile_unread runScript hread).of_error rfl h

/-- The macro of `B` quotes a definition. A unit that calls it has loaded `A` with the function, and fails because it
defines `A` twice: `B` is what it was. -/
theorem compile_error_rollsBack_quoted :
    let c := (History.ofRequests {} [.compile "b.mex"
      "<defmodule B <def one () 1> <defmacro make () <quote <def extra () 1>>>>" true]).compilation
    let source := "<defmodule A <require B> <B.make>> <defmodule A>"
    ∃ e c', compile {} "a.mex" true source c = .error e c' ∧ c'.session.published = [("B", 0)] ∧
      c'.world.modules.map (·.name) = ["B"] ∧ c'.expansions = 1 ∧ c'.world.module? "B" = c.world.module? "B" := by
  intro c source
  have hfacts : (finalError? (compile {} "a.mex" true source c)).isSome = true ∧
      (finalState (compile {} "a.mex" true source c)).world.modules.map (·.name) = ["B"] ∧
      (finalState (compile {} "a.mex" true source c)).expansions = 1 ∧
      c.session.published = [("B", 0)] ∧ c.session.publisher? "B" = some 0 ∧
      ∀ k ∈ (c.session.registry 0).macros, k.body.definitions.isEmpty := by
    unfold c source
    delta History.ofRequests History.next Request.code compile compileForms Build.unit Build.module Build.expandScope
    rw [Build.forms_eq_foldr]
    decide +kernel
  obtain ⟨hfails, hnames, hexpansions, hpublished, hpublisher, hdefines⟩ := hfacts
  obtain ⟨e, he⟩ := Option.isSome_iff_exists.1 hfails
  obtain ⟨c', h⟩ := finalError?_eq_some.1 he
  rw [h] at hnames hexpansions
  obtain ⟨hsame, -, -, hmodule, -⟩ := compile_error_rollsBack {} _ "a.mex" true source h
  refine ⟨e, c', h, hsame.trans hpublished, hnames, hexpansions, hmodule "B" ?_⟩
  rintro f ⟨r, k, hr, hk, -, hf⟩
  cases hr.symm.trans hpublisher
  rw [List.isEmpty_iff.1 (hdefines k hk)] at hf
  cases hf

/-- Here the body of the macro is the definition itself. A unit calls the macro and fails behind the call, and yet the
function stays defined. -/
theorem failed_unit_leaves_function :
    let c := (History.ofRequests {} [.compile "m.mex"
      "<defmodule M <defmacro grow () <def extra () 1> 1>>" true]).compilation
    let result := compile {} "a.mex" true "<require M> <M.grow> <boom>" c
    (finalError? result).isSome = true ∧
      (c.world.module? "M").map (·.functions.map (·.describe)) = some [] ∧
      ((finalState result).world.module? "M").map (·.functions.map (·.describe)) =
        some ["Function(def M.extra/0)"] := by
  delta History.ofRequests History.next Request.code compile compileForms Build.unit Build.module Build.expandScope
  rw [Build.forms_eq_foldr]
  decide +kernel

end MacroLang
