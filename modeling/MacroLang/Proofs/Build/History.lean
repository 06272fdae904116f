import MacroLang.Build.Compiler
import MacroLang.Proofs.Build.Unit

/-!
# Loaded modules and published scopes stay in step

A compiler is asked to compile sources, one or several, with their scripts or without, to call functions and to run
scripts again. Some requests fail. Scopes are published in a session and modules are loaded in a world, at different
times, but after every request the two have the same names: those of the modules of all units that were compiled so
far, in their order (`InStep`). One compilation keeps this, whether it succeeds (`InStep.complete`) or fails
(`InStep.rollBack`); hence so does a sequence of requests.

Main statement: `history_inStep`.
-/

namespace MacroLang

/-! ## Requests -/

/-- What a compiler is asked to do. -/
inductive Request where
  /-- Compile a source and, if wanted, run its script; otherwise the script is expanded only. -/
  | compile (filename source : String) (runScript : Bool)
  /-- Compile several sources, with one job. -/
  | compileUnits (sources : List (String × String))
  /-- Call a function. -/
  | run (function : String) (args : List Value)
  /-- Run the script of a compiled unit again. -/
  | rerun (u : CompiledUnit)

/-- The units that are compiled if sources are compiled in order, up to the first failure. -/
def compiledInOrder (o : Settings) (runScript : Bool) :
    List (String × String) → Compilation MacroBody → List CompiledUnit
  | [], _ => []
  | (filename, source) :: rest, c =>
    match compile o filename runScript source c with
    | .ok u c' => u :: compiledInOrder o runScript rest c'
    | .error _ _ => []

namespace Request

/-- What is done, without its value. -/
def code (o : Settings) : Request → Compile PUnit
  | compile filename source runScript => discard (MacroLang.compile o filename runScript source)
  | compileUnits sources => discard (MacroLang.compileUnits { o with jobs := some 1 } sources)
  | run function args => discard (callFunction o function args)
  | rerun u => discard (runUnit o u)

/-- The units that are compiled on the way, also if the request fails in the end. -/
def compiled (o : Settings) : Request → Compilation MacroBody → List CompiledUnit
  | compile filename source runScript => compiledInOrder o runScript [(filename, source)]
  | compileUnits sources => compiledInOrder { o with jobs := some 1 } true sources
  | _ => fun _ => []

end Request

/-- What has come of some requests. -/
structure History where
  compilation : Compilation MacroBody := {}
  /-- The units that were compiled, in their order. -/
  units : List CompiledUnit := []
  /-- The errors that requests ended in, in their order. -/
  errors : List Error := []

namespace History

def next (o : Settings) (h : History) (request : Request) : History :=
  match request.code o h.compilation with
  | .ok _ c => { h with compilation := c, units := h.units ++ request.compiled o h.compilation }
  | .error e c =>
    { compilation := c, units := h.units ++ request.compiled o h.compilation, errors := h.errors ++ [e] }

/-- What comes of requests to a new compiler. -/
def ofRequests (o : Settings) (requests : List Request) : History :=
  requests.foldl (next o) {}

end History

/-! ## The invariant -/

/-- The published scopes and the loaded modules are the modules of the given units. -/
structure InStep (units : List CompiledUnit) (c : Compilation MacroBody) : Prop where
  published : c.session.published = units.flatMap fun u => u.modules.map (·, u.registry)
  loaded : c.world.modules.map (·.name) = c.session.published.map Prod.fst
  nodup : (scriptScope :: c.session.published.map Prod.fst).Nodup
  homes : c.session.AllMacros Macro.AtHome
  counted : ∀ u ∈ units, u.registry < c.session.registries.length

namespace InStep

variable {units : List CompiledUnit} {c c' : Compilation MacroBody}

theorem start : InStep [] {} := by
  refine ⟨rfl, rfl, List.pairwise_singleton _ _, fun r m hm => ?_, List.forall_mem_nil _⟩
  rw [Session.registry_of_le _ (Nat.zero_le r)] at hm
  cases hm

theorem mindsModules : MindsModules (InStep units) :=
  fun _ _ h hw => ⟨h.published, (congrArg (List.map _) hw).trans h.loaded, h.nodup, h.homes, h.counted⟩

theorem complete (h : InStep units c) {u : CompiledUnit} (hregistry : u.registry = c.session.registries.length)
    (hc : Completed c u.modules c') : InStep (units ++ [u]) c' := by
  have hnames : c'.session.published.map Prod.fst = c.session.published.map Prod.fst ++ u.modules := by
    rw [hc.published, List.map_append, List.map_map]
    simp [Function.comp_def]
  refine ⟨?_, ?_, ?_, hc.homes h.homes, ?_⟩
  · rw [hc.published, h.published, List.flatMap_append, List.flatMap_singleton, hregistry]
  · rw [hnames, hc.world.names, h.loaded]
  · rw [hnames, ← List.cons_append, List.nodup_append]
    obtain ⟨hscript, hmodules⟩ := List.nodup_cons.1 hc.nodup
    refine ⟨h.nodup, hmodules, fun n hn k hk heq => ?_⟩
    subst heq
    rcases List.mem_cons.1 hn with rfl | hold
    · exact hscript hk
    · exact hc.unpublished n hk hold
  · rw [hc.count]
    refine List.forall_mem_append.2 ⟨fun v hv => Nat.lt_succ_of_lt (h.counted v hv), List.forall_mem_singleton.2 ?_⟩
    exact hregistry ▸ Nat.lt_succ_self _

theorem rollBack (h : InStep units c) (hc : RolledBack c c') : InStep units c' := by
  refine ⟨hc.published.trans h.published, ?_, ?_, hc.homes h.homes, fun u hu => ?_⟩
  · rw [map_name_of_extendsBy hc.gained, hc.published, h.loaded]
  · rw [hc.published]
    exact h.nodup
  · have hlt := h.counted u hu
    rcases hc.count with hcount | hcount <;> omega

/-- The published scopes are the modules of the units in their order. -/
theorem names (h : InStep units c) : c.session.published.map Prod.fst = units.flatMap (·.modules) := by
  rw [h.published, List.map_flatMap]
  simp [Function.comp_def]

theorem isPublished_iff (h : InStep units c) {n : String} :
    c.session.isPublished n = true ↔ ∃ u ∈ units, n ∈ u.modules := by
  rw [← List.mem_flatMap, ← h.names, ← not_iff_not, Bool.not_eq_true, Session.isPublished_eq_false]

/-- The scopes were published by registries of the session. -/
theorem publisher?_lt (h : InStep units c) {scope : String} {q : Nat} (hq : c.session.publisher? scope = some q) :
    q < c.session.registries.length := by
  obtain ⟨before, after, hpublished, -⟩ := List.lookup_eq_some_iff.1 hq
  have hmem : (scope, q) ∈ units.flatMap fun u => u.modules.map (·, u.registry) := by
    rw [← h.published, hpublished]
    exact List.mem_append_right _ List.mem_cons_self
  obtain ⟨u, hu, hmem⟩ := List.mem_flatMap.1 hmem
  obtain ⟨n, -, heq⟩ := List.mem_map.1 hmem
  cases heq
  exact h.counted u hu

theorem isLoaded_eq (h : InStep units c) (n : String) : c.world.isLoaded n = c.session.isPublished n := by
  rw [Bool.eq_iff_iff, ← not_iff_not, Bool.not_eq_true, Bool.not_eq_true, Session.isPublished_eq_false, ← h.loaded,
    World.isLoaded_eq_false]
  simp

/-- The unit of a module is the only one that has it, and the one that published it. -/
theorem publisher?_eq {before after : List CompiledUnit} {u : CompiledUnit} (h : InStep (before ++ u :: after) c)
    {n : String} (hn : n ∈ u.modules) :
    c.session.publisher? n = some u.registry ∧ ∀ v ∈ before ++ after, n ∉ v.modules := by
  obtain ⟨-, hnodup⟩ := List.nodup_cons.1 h.nodup
  refine ⟨Session.lookup_of_mem hnodup ?_, fun v hv hnv => ?_⟩
  · rw [h.published]
    exact List.mem_flatMap.2 ⟨u, List.mem_append_right _ List.mem_cons_self, List.mem_map_of_mem hn⟩
  · rw [h.names, List.flatMap_append, List.flatMap_cons, List.nodup_append, List.nodup_append] at hnodup
    obtain ⟨-, ⟨-, -, hafter⟩, hbefore⟩ := hnodup
    rcases List.mem_append.1 hv with hv | hv
    · exact hbefore n (List.mem_flatMap.2 ⟨v, hv, hnv⟩) n (List.mem_append_left _ hn) rfl
    · exact hafter n hn n (List.mem_flatMap.2 ⟨v, hv, hnv⟩) rfl

end InStep

/-! ## Requests keep it -/

theorem Standard.gives_splitFunction (S : Standard) (name : String) :
    S.Gives (fun _ => True) (splitFunction name) := by
  unfold splitFunction
  dsimp only
  split
  · exact S.unlocated rfl
  · trivial

theorem maintains_callFunction {I : Compilation MacroBody → Prop} {o : Settings} (hI : MindsModules I)
    (function : String) (args : List Value) : Maintains I (·.isConflict = false) (callFunction o function args) := by
  have hsplit := Standard.common.gives_splitFunction function
  unfold callFunction
  -- what the name is split into does not matter, and Lean shall not try to find out
  generalize splitFunction function = r at hsplit ⊢
  refine .andThen (.ofExcept fun e he => Error.isConflict_of_isCommon (hsplit.raises e he)) fun (module, name) => ?_
  refine .reading fun c _ => ?_
  exact maintains_onWorld hI fun _ => World.keeps_call (Eval.callsKeep_within _ _) _ _ _ _

/-- The code keeps modules and scopes in step, with the units that it compiles, and its error is no conflict. -/
structure KeepsStep {α : Type} (code : Compile α) (compiled : Compilation MacroBody → List CompiledUnit) : Prop where
  ends : ∀ units c, InStep units c →
    Ends (fun _ => InStep (units ++ compiled c)) (fun e c' => InStep (units ++ compiled c) c' ∧ e.isConflict = false)
      (code c)

namespace KeepsStep

variable {α : Type} {code : Compile α} {compiled : Compilation MacroBody → List CompiledUnit} {o : Settings}

theorem discard (h : KeepsStep code compiled) : KeepsStep (Functor.discard code) compiled :=
  ⟨fun units c hc => (h.ends units c hc).map fun _ => PUnit.unit⟩

/-- Code that compiles nothing. -/
theorem of_maintains (h : ∀ units, Maintains (InStep units) (·.isConflict = false) code) :
    KeepsStep code fun _ => [] := by
  constructor
  intro units c hc
  rw [List.append_nil]
  exact h units c hc

theorem compile (filename : String) (runScript : Bool) (source : String) :
    KeepsStep (MacroLang.compile o filename runScript source) (compiledInOrder o runScript [(filename, source)]) := by
  constructor
  intro units c hc
  cases hrun : MacroLang.compile o filename runScript source c with
  | ok u c' =>
    obtain ⟨hregistry, hcompleted⟩ := (ensures_compile filename runScript source).of_ok rfl hrun
    rw [compiledInOrder, hrun]
    exact hc.complete hregistry hcompleted
  | error e c' =>
    obtain ⟨hrolled, he⟩ := (ensures_compile filename runScript source).of_error rfl hrun
    rw [compiledInOrder, hrun]
    exact ⟨(List.append_nil units).symm ▸ hc.rollBack hrolled, he⟩

theorem compileInOrder (sources : List (String × String)) :
    KeepsStep (MacroLang.compileInOrder o sources) (compiledInOrder o true sources) := by
  induction sources with
  | nil => exact of_maintains fun _ => .pure _
  | cons first rest ih =>
    obtain ⟨filename, source⟩ := first
    constructor
    intro units c hc
    have hfirst : Ends _ _ (MacroLang.compile o filename true source c) :=
      (KeepsStep.compile filename true source).ends units c hc
    rw [MacroLang.compileInOrder, bind_apply]
    rw [compiledInOrder] at hfirst ⊢
    cases hrun : MacroLang.compile o filename true source c with
    | error e c' =>
      rw [hrun] at hfirst
      exact hfirst
    | ok u c' =>
      rw [hrun] at hfirst
      have hrest := ih.ends (units ++ [u]) c' hfirst
      rw [List.append_assoc, List.singleton_append] at hrest
      exact hrest.map (u :: ·)

theorem compileUnits (sources : List (String × String)) :
    KeepsStep (MacroLang.compileUnits { o with jobs := some 1 } sources)
      (compiledInOrder { o with jobs := some 1 } true sources) :=
  KeepsStep.compileInOrder sources

theorem callFunction (function : String) (args : List Value) :
    KeepsStep (MacroLang.callFunction o function args) fun _ => [] :=
  of_maintains fun _ => maintains_callFunction InStep.mindsModules _ _

theorem runUnit (u : CompiledUnit) : KeepsStep (MacroLang.runUnit o u) fun _ => [] :=
  of_maintains fun _ => maintains_runForms InStep.mindsModules _ _

/-- Every request keeps modules and scopes in step. -/
theorem request (request : Request) : KeepsStep (request.code o) (request.compiled o) := by
  cases request with
  | compile filename source runScript => exact (KeepsStep.compile filename runScript source).discard
  | compileUnits sources => exact (KeepsStep.compileUnits sources).discard
  | run function args => exact (KeepsStep.callFunction function args).discard
  | rerun u => exact (KeepsStep.runUnit u).discard

end KeepsStep

/-- Modules and scopes are in step, and no request has ended in a conflict. -/
structure History.Sound (h : History) : Prop where
  inStep : InStep h.units h.compilation
  errors : ∀ e ∈ h.errors, e.isConflict = false

theorem History.Sound.next {h : History} (hsound : h.Sound) (o : Settings) (request : Request) :
    (h.next o request).Sound := by
  have hkeeps : KeepsStep (request.code o) (request.compiled o) := .request request
  have hrequest := hkeeps.ends h.units h.compilation hsound.inStep
  unfold History.next
  cases hcode : request.code o h.compilation with
  | ok u c =>
    rw [hcode] at hrequest
    exact ⟨hrequest, hsound.errors⟩
  | error e c =>
    rw [hcode] at hrequest
    refine ⟨hrequest.1, fun e' he' => ?_⟩
    rcases List.mem_append.1 he' with hold | hnew
    · exact hsound.errors e' hold
    · exact List.mem_singleton.1 hnew ▸ hrequest.2

theorem History.sound_foldl {h : History} (hsound : h.Sound) (o : Settings) (requests : List Request) :
    (requests.foldl (History.next o) h).Sound := by
  induction requests generalizing h with
  | nil => exact hsound
  | cons request requests ih => exact ih (hsound.next o request)

/-- After any requests to a compiler, each of which may have failed, the loaded modules and the published scopes have
the same names. They are the modules of the units that were compiled: each belongs to one of them and to no other, and
the session gives the registry of that unit for it. The scope of the scripts is neither published nor loaded, and no
request ended in a conflict of two units. -/
theorem history_inStep (o : Settings) (requests : List Request) :
    let h := History.ofRequests o requests
    (∀ n, h.compilation.world.isLoaded n = h.compilation.session.isPublished n) ∧
    (∀ n, h.compilation.session.isPublished n = true ↔
      ∃ before u after, h.units = before ++ u :: after ∧ n ∈ u.modules ∧
        h.compilation.session.publisher? n = some u.registry ∧ ∀ v ∈ before ++ after, n ∉ v.modules) ∧
    h.compilation.world.isLoaded scriptScope = false ∧
    h.compilation.session.isPublished scriptScope = false ∧
    ∀ e ∈ h.errors, e.isConflict = false := by
  intro h
  have hsound : h.Sound := History.sound_foldl ⟨.start, List.forall_mem_nil _⟩ o requests
  have hscript : h.compilation.session.isPublished scriptScope = false :=
    Session.isPublished_eq_false.2 (List.nodup_cons.1 hsound.inStep.nodup).1
  refine ⟨hsound.inStep.isLoaded_eq, fun n => ?_, ?_, hscript, hsound.errors⟩
  · rw [hsound.inStep.isPublished_iff]
    constructor
    · rintro ⟨u, hu, hn⟩
      obtain ⟨before, after, hunits⟩ := List.append_of_mem hu
      exact ⟨before, u, after, hunits, hn, InStep.publisher?_eq (hunits ▸ hsound.inStep) hn⟩
    · rintro ⟨before, u, after, hunits, hn, -⟩
      exact ⟨u, hunits ▸ List.mem_append_right _ List.mem_cons_self, hn⟩
  · rw [hsound.inStep.isLoaded_eq, hscript]

end MacroLang
