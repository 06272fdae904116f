import Mathlib.Data.List.Forall2
import MacroLang.Proofs.Build.Forms
import MacroLang.Proofs.Evaluation.Modules
import MacroLang.Proofs.Expansion.Trace
import MacroLang.Proofs.Registry.Units

/-!
# A unit that is being compiled

`Underway` says what is known at every moment while a unit is compiled: the session is the one before, with the scopes
of the unit; the loaded modules are those from before, followed by those of the unit; and the names of the unit's
modules are new. Modules from before may have gained functions, but only such as the published macros that run there
define (`Compilation.MayDefine`). A module of the unit is `pending` from the moment it has a scope until it is loaded.
Each part of the work keeps this (`Steady`), also if it fails, and then the error is no conflict of two units.
-/

namespace MacroLang

/-! ## Loaded modules -/

/-- Modules that may have gained functions, where these are `allowed`, and behind them modules of the given names. If
`exactly` holds, the first ones are as before. -/
def LoadedSince (allowed : String → Function → Prop) (mods₀ : List Module) (names : List String) (exactly : Prop)
    (mods : List Module) : Prop :=
  ∃ old new, mods = old ++ new ∧ List.Forall₂ (Module.ExtendsBy allowed) mods₀ old ∧ (exactly → old = mods₀) ∧
    new.map (·.name) = names

namespace LoadedSince

variable {allowed : String → Function → Prop} {mods₀ mods : List Module} {names : List String} {exactly : Prop}

theorem refl (allowed : String → Function → Prop) (mods₀ : List Module) (exactly : Prop) :
    LoadedSince allowed mods₀ [] exactly mods₀ :=
  ⟨mods₀, [], (List.append_nil _).symm, List.forall₂_same.2 fun m _ => .refl allowed m, fun _ => rfl, rfl⟩

theorem imp (h : LoadedSince allowed mods₀ names exactly mods) {exactly' : Prop} (himp : exactly' → exactly) :
    LoadedSince allowed mods₀ names exactly' mods := by
  obtain ⟨old, new, hmods, hold, hexact, hnew⟩ := h
  exact ⟨old, new, hmods, hold, fun h' => hexact (himp h'), hnew⟩

/-- The module of a name gains functions, which have to be allowed if it is one from before. -/
theorem gain (h : LoadedSince allowed mods₀ names exactly mods) {name : String} {defined : Function → Prop}
    {mods' : List Module} (hgained : Gained (some name) defined mods mods')
    (hallowed : name ∈ mods₀.map (·.name) → ∀ f, defined f → allowed name f) :
    LoadedSince allowed mods₀ names False mods' := by
  obtain ⟨old, new, rfl, hold, -, rfl⟩ := h
  obtain ⟨fs, hfs, rfl⟩ := hgained
  have hmem : ∀ m ∈ mods₀, m.name = name → ∀ f ∈ fs, allowed m.name f := by
    rintro m hm rfl f hf
    exact hallowed (List.mem_map_of_mem hm) f (hfs f hf)
  have hboth := (List.forall₂_and_left mods₀ old).2 ⟨hmem, hold⟩
  refine ⟨_, _, List.map_append, ?_, False.elim, ?_⟩
  · exact List.forall₂_map_right_iff.2 (hboth.imp fun m k hk => hk.2.gain hk.1)
  · rw [List.map_map]
    exact List.map_congr_left fun m _ => (Module.extends_gain (some name) fs m).name

theorem load (h : LoadedSince allowed mods₀ names exactly mods) (m : Module) :
    LoadedSince allowed mods₀ (names ++ [m.name]) exactly (mods ++ [m]) := by
  obtain ⟨old, new, rfl, hold, hexact, rfl⟩ := h
  exact ⟨old, new ++ [m], List.append_assoc .., hold, hexact, by simp⟩

end LoadedSince

theorem map_name_of_extendsBy {allowed : String → Function → Prop} {mods mods' : List Module}
    (h : List.Forall₂ (Module.ExtendsBy allowed) mods mods') : mods'.map (·.name) = mods.map (·.name) := by
  induction h with
  | nil => rfl
  | cons hm _ ih => rw [List.map_cons, List.map_cons, hm.name, ih]

theorem LoadedSince.names {allowed : String → Function → Prop} {mods₀ mods : List Module} {names : List String}
    {exactly : Prop} (h : LoadedSince allowed mods₀ names exactly mods) :
    mods.map (·.name) = mods₀.map (·.name) ++ names := by
  obtain ⟨old, new, rfl, hold, -, rfl⟩ := h
  rw [List.map_append, map_name_of_extendsBy hold]

/-! ## The invariant -/

/-- The body of the macro runs in the macro's own scope. -/
def Macro.AtHome (m : Macro MacroBody) : Prop :=
  m.body.scope = m.scope

/-- A published macro that runs in the module defines the function. Nothing is said of the scope of scripts, where the
macros of the unit itself may run. -/
def Compilation.MayDefine (c : Compilation MacroBody) (module : String) (f : Function) : Prop :=
  module = scriptScope ∨ ∃ q m, c.session.publisher? m.scope = some q ∧ m ∈ (c.session.registry q).macros ∧
    m.body.scope = module ∧ f ∈ m.body.definitions

/-- What is known while a unit is compiled, if compilation started at `c₀`. -/
structure Underway (c₀ : Compilation MacroBody) (pending : List String) (b : Building) : Prop where
  session : c₀.session.WithUnit scriptScope Macro.AtHome b.modules b.compilation.session
  loaded : b.modules = b.loaded.reverse ++ pending
  unpublished : ∀ n ∈ b.modules, n ∉ c₀.session.published.map Prod.fst
  unloaded : ∀ n ∈ b.modules, n ∉ c₀.world.modules.map (·.name)
  nodup : (scriptScope :: b.modules).Nodup
  world : LoadedSince c₀.MayDefine c₀.world.modules b.loaded.reverse (b.compilation.expansions = 0)
    b.compilation.world.modules

namespace Underway

variable {c₀ : Compilation MacroBody} {pending : List String} {b : Building} {scope : String}

theorem mem_scopes (h : Underway c₀ pending b) (hscope : scope ∈ scriptScope :: pending) :
    scope ∈ scriptScope :: b.modules := by
  rw [h.loaded]
  rcases List.mem_cons.1 hscope with rfl | hpending
  · exact List.mem_cons_self
  · exact List.mem_cons_of_mem _ (List.mem_append_right _ hpending)

theorem mem_modules (h : Underway c₀ pending b) {name : String} (hname : name ∈ b.loaded) : name ∈ b.modules := by
  rw [h.loaded]
  exact List.mem_append_left _ (List.mem_reverse.2 hname)

/-- The session may be exchanged for one with the same scopes. -/
theorem setSession (h : Underway c₀ pending b) {s : Session MacroBody}
    (hs : c₀.session.WithUnit scriptScope Macro.AtHome b.modules s) :
    Underway c₀ pending { b with compilation := { b.compilation with session := s } } :=
  ⟨hs, h.loaded, h.unpublished, h.unloaded, h.nodup, h.world⟩

/-- Declarations may be made in the scope of the script or of the pending module. -/
theorem declare (h : Underway c₀ pending b) (hscope : scope ∈ scriptScope :: pending) {c : Compilation MacroBody}
    (hc : b.compilation.Declares c₀.session.registries.length scope c) :
    Underway c₀ pending { b with compilation := c } where
  session := h.session.redeclare hc.session (h.mem_scopes hscope)
  loaded := h.loaded
  unpublished := h.unpublished
  unloaded := h.unloaded
  nodup := h.nodup
  world := by
    show LoadedSince _ _ _ (c.expansions = 0) c.world.modules
    rw [hc.modules, hc.expansions]
    exact h.world

/-- So may changes that do not concern modules. -/
theorem unconcerned (h : Underway c₀ pending b) {c : Compilation MacroBody}
    (hsession : c.session = b.compilation.session) (hmodules : c.world.modules = b.compilation.world.modules)
    (hexpansions : c.expansions = b.compilation.expansions) :
    Underway c₀ pending { b with compilation := c } := by
  refine h.declare List.mem_cons_self ⟨?_, hmodules, hexpansions⟩
  rw [hsession]
  exact .refl ..

/-- If a macro that the unit sees runs in a module from before, it was published before. -/
theorem mayDefine_of_sees (h : Underway c₀ pending b) {m : Macro MacroBody}
    (hm : b.compilation.session.Sees c₀.session.registries.length m)
    (hloaded : m.body.scope ∈ c₀.world.modules.map (·.name)) :
    ∀ f ∈ m.body.definitions, c₀.MayDefine m.body.scope f := by
  intro f hf
  rcases h.session.sees hm with ⟨hhome, hscope⟩ | ⟨q, hq, hmem⟩
  · rw [hhome] at hloaded ⊢
    rcases List.mem_cons.1 hscope with hscript | hmodule
    · exact .inl hscript
    · exact absurd hloaded (h.unloaded _ hmodule)
  · exact .inr ⟨q, m, hq, hmem, rfl, hf⟩

/-- A macro may be invoked. -/
theorem invoke (h : Underway c₀ pending b) {c : Compilation MacroBody} {m : Macro MacroBody}
    (hm : b.compilation.session.Sees c₀.session.registries.length m)
    (hsession : c.session = b.compilation.session) (hexpansions : c.expansions = b.compilation.expansions + 1)
    (hmodules : Gained (some m.body.scope) (· ∈ m.body.definitions) b.compilation.world.modules c.world.modules) :
    Underway c₀ pending { b with compilation := c } where
  session := by
    show c₀.session.WithUnit scriptScope Macro.AtHome b.modules c.session
    rw [hsession]
    exact h.session
  loaded := h.loaded
  unpublished := h.unpublished
  unloaded := h.unloaded
  nodup := h.nodup
  world := by
    refine (h.world.gain hmodules (h.mayDefine_of_sees hm)).imp fun hzero => ?_
    change c.expansions = 0 at hzero
    omega

/-- A new module gets a scope and is pending. -/
theorem openModule (h : Underway c₀ [] b) {name : String} (hscope : name ∉ scriptScope :: b.modules)
    (hpublished : name ∉ c₀.session.published.map Prod.fst) (hloaded : name ∉ c₀.world.modules.map (·.name))
    {s : Session MacroBody} (hs : c₀.session.WithUnit scriptScope Macro.AtHome (b.modules ++ [name]) s) :
    Underway c₀ [name]
      { b with compilation := { b.compilation with session := s }, modules := b.modules ++ [name] } where
  session := hs
  loaded := by
    show b.modules ++ [name] = _
    rw [h.loaded, List.append_nil]
  unpublished n hn := by
    rcases List.mem_append.1 hn with hold | hnew
    · exact h.unpublished n hold
    · exact List.mem_singleton.1 hnew ▸ hpublished
  unloaded n hn := by
    rcases List.mem_append.1 hn with hold | hnew
    · exact h.unloaded n hold
    · exact List.mem_singleton.1 hnew ▸ hloaded
  nodup := by
    show (scriptScope :: (b.modules ++ [name])).Nodup
    rw [← List.cons_append, List.nodup_append]
    refine ⟨h.nodup, List.pairwise_singleton _ _, fun n hn k hk => ?_⟩
    rw [List.mem_singleton.1 hk]
    exact ne_of_mem_of_not_mem hn hscope
  world := h.world

/-- The pending module is loaded. -/
theorem loadModule {m : Module} (h : Underway c₀ [m.name] b) {c : Compilation MacroBody}
    (hsession : c.session = b.compilation.session) (hexpansions : c.expansions = b.compilation.expansions)
    (hmodules : c.world.modules = b.compilation.world.modules ++ [m]) :
    Underway c₀ [] { b with compilation := c, loaded := m.name :: b.loaded } where
  session := by
    show c₀.session.WithUnit scriptScope Macro.AtHome b.modules c.session
    rw [hsession]
    exact h.session
  loaded := by
    show b.modules = (m.name :: b.loaded).reverse ++ []
    rw [List.append_nil, List.reverse_cons]
    exact h.loaded
  unpublished := h.unpublished
  unloaded := h.unloaded
  nodup := h.nodup
  world := by
    show LoadedSince _ _ (m.name :: b.loaded).reverse (c.expansions = 0) c.world.modules
    rw [List.reverse_cons, hexpansions, hmodules]
    exact h.world.load m

end Underway

/-! ## Steady work -/

/-- The work keeps what is known, with one pending module or none, also if it fails; and the error is no conflict. -/
def Steady (c₀ : Compilation MacroBody) (pending : List String) {α : Type} (code : Build α) : Prop :=
  Ensures (Underway c₀ pending) code (fun _ => Underway c₀ pending)
    (fun e b => (∃ pending, Underway c₀ pending b) ∧ e.isConflict = false)

namespace Steady

variable {c₀ : Compilation MacroBody} {pending : List String} {α γ : Type}

theorem pure (a : α) : Steady c₀ pending (Pure.pure a) :=
  fun _ h => h

theorem throw {e : Error} (he : e.isCommon = true) : Steady c₀ pending (MonadExcept.throw e : Build α) :=
  fun _ h => ⟨⟨_, h⟩, Error.isConflict_of_isCommon he⟩

theorem ofExcept {r : Except Error α} (hr : Common r) : Steady c₀ pending (MonadExcept.ofExcept r : Build α) :=
  Ensures.ofExcept (fun _ _ _ h => h) fun e he _ h => ⟨⟨_, h⟩, Error.isConflict_of_isCommon (hr e he)⟩

theorem andThen {code : Build α} {next : α → Build γ} (h : Steady c₀ pending code)
    (hnext : ∀ a, Steady c₀ pending (next a)) : Steady c₀ pending (code >>= next) :=
  Ensures.bind h hnext

/-- Work that knows nothing of the unit. -/
theorem lift {code : Compile α}
    (h : ∀ b, Underway c₀ pending b → Maintains (fun c => Underway c₀ pending { b with compilation := c })
      (·.isConflict = false) code) : Steady c₀ pending (Build.lift code) := by
  intro b hb
  have hcode := h b hb b.compilation hb
  unfold Build.lift
  cases hrun : code b.compilation with
  | ok a c => rw [hrun] at hcode; exact hcode
  | error e c => rw [hrun] at hcode; exact ⟨⟨_, hcode.1⟩, hcode.2⟩

end Steady

end MacroLang
