import MacroLang.Proofs.Build.Functions
import MacroLang.Proofs.Build.Interchange

/-!
# Blocks of forms

The members of a block are all expanded before any definition among them takes effect (`Build.forms_block`). Forms that
are written one after the other take turns: each is expanded when the definitions before it have taken effect. The two
come to the same if no member has a bearing on the expansion of a later one (`Build.Apart`).

Main statement: `block_transparent`.
-/

namespace MacroLang

open Compilation

/-! ## The expansion of a block -/

theorem spliceBlocksAll_eq_flatMap (vs : List Value) : spliceBlocksAll vs = vs.flatMap spliceBlocks := by
  induction vs with
  | nil => rfl
  | cons v vs ih => rw [spliceBlocksAll, ih, List.flatMap_cons]

namespace Expander

variable {β : Type}

/-- The members of a node are expanded like values of their own. -/
theorem walkAll_eq_expandAll (x : Expander β) (scope : String)
    {onMacro : Macro β → List Value → Info → Expand β Expanded}
    (h : x.expandWithin scope x.maxDepth = x.walk scope onMacro) (vs : List Value) :
    (List.map Expanded.value) <$> x.walkAll scope onMacro vs = x.expandAll scope vs := by
  induction vs with
  | nil => rfl
  | cons v vs ih =>
    have hexpand : x.expand scope v = Expanded.value <$> x.walk scope onMacro v := by
      rw [← h]
      exact x.expandFrom_eq_expandWithin 0 scope v
    rw [expandAll, ← ih, hexpand, walkAll]
    simp only [map_eq_pure_bind, bind_assoc, pure_bind, List.map_cons]

/-- A block is expanded by expanding its members in order. -/
theorem expand_block (x : Expander β) (scope : String) (fs : List Value) (info : Info) :
    x.expand scope (.call "__block__" fs info) =
      (fun vs => .call "__block__" vs info) <$> x.expandAll scope fs := by
  obtain ⟨onMacro, hwalk⟩ : ∃ onMacro, x.expandWithin scope x.maxDepth = x.walk scope onMacro := by
    cases x.maxDepth with
    | zero => exact ⟨_, rfl⟩
    | succ budget => exact ⟨_, rfl⟩
  have hexpand : x.expand scope (.call "__block__" fs info) =
      Expanded.value <$> x.walk scope onMacro (.call "__block__" fs info) := by
    rw [← hwalk]
    exact x.expandFrom_eq_expandWithin 0 scope _
  rw [hexpand, ← walkAll_eq_expandAll x scope hwalk]
  funext c
  have hplain : x.walk scope onMacro (.call "__block__" fs info) c =
      (x.walkAll scope onMacro fs >>= x.finishCall scope "__block__" info) c :=
    walk_plain rfl (x.resolve_specialForm (by decide) c.session scope fs info)
  simp only [map_eq_pure_bind, bind_assoc, pure_bind]
  rw [bind_apply, hplain, bind_apply, bind_apply]
  cases x.walkAll scope onMacro fs c with
  | ok es c' => rfl
  | error e c' => rfl

end Expander

namespace Build

variable {o : Settings} {x : Expander MacroBody} {onModule : List Value → Info → Build Unit} {scope : String}

theorem lift_bind {α γ : Type} (code : Compile α) (next : α → Compile γ) :
    lift (code >>= next) = lift code >>= fun a => lift (next a) := by
  funext b
  simp only [lift, bind_apply]
  cases code b.compilation with
  | ok a c => rfl
  | error e c => rfl

theorem lift_expandAll_cons (x : Expander MacroBody) (scope : String) (f : Value) (fs : List Value) :
    lift (x.expandAll scope (f :: fs)) = (do
      let v ← lift (x.expand scope f)
      let vs ← lift (x.expandAll scope fs)
      return v :: vs) := by
  rw [Expander.expandAll, lift_bind]
  congr 1
  funext v
  rw [lift_bind]
  rfl

theorem items_append (r : Nat) (vs ws : List Value) :
    items r onModule scope (vs ++ ws) = (do
      let kept ← items r onModule scope vs
      let rest ← items r onModule scope ws
      return kept ++ rest) := by
  induction vs with
  | nil => simp [items]
  | cons v vs ih => simp only [List.cons_append, items, ih, bind_assoc, pure_bind, List.append_assoc]

/-- The members of a block are expanded in order, and then the forms that came out of it are dealt with in order. -/
theorem forms_block (x : Expander MacroBody) (onModule : List Value → Info → Build Unit) (scope : String)
    (fs : List Value) (info : Info) :
    forms x onModule scope [.call "__block__" fs info] = (do
      let vs ← lift (x.expandAll scope fs)
      items x.registry onModule scope (vs.flatMap spliceBlocks)) := by
  have hsplice : ∀ vs, spliceBlocks (.call "__block__" vs info) = vs.flatMap spliceBlocks := by
    intro vs
    rw [spliceBlocks, if_pos (beq_self_eq_true _), spliceBlocksAll_eq_flatMap]
  simp only [forms, x.expand_block, map_eq_pure_bind, lift_bind, bind_assoc, pure_bind, List.append_nil, bind_pure]
  congr 1
  funext vs
  rw [← hsplice]
  rfl

/-! ## Forms that have no bearing on each other -/

/-- Dealing with the forms `ds` has no bearing on the expansion of the forms `fs`, for one of two reasons:

* no module is compiled, and none of the macros that `ds` define is called, by name and number of arguments;
* nothing that is visited declares anything or is a macro call, be it before or after `ds` are dealt with. -/
inductive Unrelated (x : Expander MacroBody) (onModule : List Value → Info → Build Unit) (scope : String)
    (ds fs : List Value) (b : Building) : Prop where
  | uncalled :
    (∀ args info, .call "defmodule" args info ∈ ds → ∃ e, onModule args info = throw e) →
    (∀ w ∈ x.visitedAll scope fs b.compilation, ∀ d ∈ ds, ∀ key ∈ d.definedMacro?, w.called? ≠ some key) →
    Unrelated x onModule scope ds fs b
  | inert :
    (∀ w ∈ x.visitedAll scope fs b.compilation, w.declares? = none ∧
      x.resolve b.compilation.session scope w = none ∧
      ∀ kept b₁, items x.registry onModule scope ds b = .ok kept b₁ →
        x.resolve b₁.compilation.session scope w = none) →
    Unrelated x onModule scope ds fs b

/-- When the forms are compiled one after the other, what comes out of each has no bearing on the expansion of those
behind it. -/
def Apart (x : Expander MacroBody) (onModule : List Value → Info → Build Unit) (scope : String) :
    List Value → Building → Prop
  | [], _ => True
  | f :: fs, b => ∀ v b₁, lift (x.expand scope f) b = .ok v b₁ →
    Unrelated x onModule scope (spliceBlocks v) fs b₁ ∧
      ∀ kept b₂, items x.registry onModule scope (spliceBlocks v) b₁ = .ok kept b₂ → Apart x onModule scope fs b₂

/-- When the forms are compiled one after the other, a definition is refused. -/
def Refuses (x : Expander MacroBody) (onModule : List Value → Info → Build Unit) (scope : String) :
    List Value → Building → Prop
  | [], _ => False
  | f :: fs, b => ∃ v b₁, lift (x.expand scope f) b = .ok v b₁ ∧
    ((∃ e b₂, items x.registry onModule scope (spliceBlocks v) b₁ = .error e b₂) ∨
      ∃ kept b₂, items x.registry onModule scope (spliceBlocks v) b₁ = .ok kept b₂ ∧ Refuses x onModule scope fs b₂)

/-- What deals with modules keeps other scopes as they are and does not read the log. -/
structure Discreet (x : Expander MacroBody) (onModule : List Value → Info → Build Unit) : Prop where
  keeps : ∀ s₀ scope args info, Keeps (Session.KeepsScope s₀ x.registry scope) (onModule args info)
  alike : ∀ args info, Concurs Building.Alike (onModule args info)

theorem discreet_module (o : Settings) (hx : x.Oblivious) : Discreet x (module o x) :=
  ⟨keeps_module, alike_module hx⟩

theorem discreet_refuseModule (x : Expander MacroBody) (name : String) : Discreet x (refuseModule name) :=
  ⟨fun _ _ _ _ => .throw trivial, fun _ _ => .throw _⟩

variable {ds fs : List Value} {b : Building}

theorem Unrelated.interchange (hx : x.Oblivious) (hmodule : Discreet x onModule)
    (howns : (b.compilation.session.registry x.registry).owns scope = true)
    (h : Unrelated x onModule scope ds fs b) : Interchange x onModule scope ds fs b := by
  cases h with
  | uncalled hmodules hcalled => exact interchange_of_uncalled hx howns hmodules hcalled
  | inert hinert =>
    refine interchange_of_inert howns (hmodule.keeps _ _) fun w hw => ?_
    obtain ⟨hdeclares, hbefore, hafter⟩ := hinert w hw
    exact ⟨⟨hdeclares, hbefore, hbefore⟩, hafter⟩

/-- The scope is still one of the registry when the first form is dealt with. -/
theorem owns_of_items (hmodule : Discreet x onModule)
    (howns : (b.compilation.session.registry x.registry).owns scope = true) {kept : List Value} {b' : Building}
    (h : items x.registry onModule scope ds b = .ok kept b') :
    (b'.compilation.session.registry x.registry).owns scope = true :=
  ((keeps_items (fun _ h => h.owns) (fun _ m h => h.withMacros [m]) (hmodule.keeps _ _) ds).of_ok
    (Session.KeepsScope.refl howns) h).owns

/-- If the forms can all be expanded first, then dealing with them comes to the same as taking turns. -/
theorem Apart.forms_of_expandAll (hx : x.Oblivious) (hmodule : Discreet x onModule)
    (howns : (b.compilation.session.registry x.registry).owns scope = true) (h : Apart x onModule scope fs b)
    {vs : List Value} {b₁ : Building} (hexpand : lift (x.expandAll scope fs) b = .ok vs b₁) :
    SameEnd Building.Alike False (items x.registry onModule scope (vs.flatMap spliceBlocks) b₁)
      (forms x onModule scope fs b) := by
  induction fs generalizing b vs b₁ with
  | nil =>
    cases hexpand
    exact .ok (.refl _)
  | cons f fs ih =>
    rw [lift_expandAll_cons] at hexpand
    obtain ⟨v, b', hv, hrest⟩ := bind_eq_ok.1 hexpand
    obtain ⟨ws, b'', hws, hlast⟩ := bind_eq_ok.1 hrest
    cases hlast
    obtain ⟨hunrelated, hapart⟩ := h v b' hv
    have howns' := (redeclares_of_lift (x.redeclares_expand scope f b.compilation) hv).registry.owns howns
    have hswap := hunrelated.interchange hx hmodule howns'
    rw [List.flatMap_cons, items_append, forms, bind_apply, bind_apply, hv]
    dsimp only
    rw [bind_apply]
    cases hkept : items x.registry onModule scope (spliceBlocks v) b' with
    | error e b₂ =>
      obtain ⟨b₂', hrefused⟩ := hswap.refused hws hkept
      rw [hrefused]
      exact .error (.inl rfl)
    | ok kept b₂ =>
      obtain ⟨b₁', b₂', hkept', hws', halike⟩ := hswap.commute hws hkept
      rw [hkept']
      have hlater : SameEnd Building.Alike False (items x.registry onModule scope (ws.flatMap spliceBlocks) b₁')
          (forms x onModule scope fs b₂) := by
        have hsame := ih (owns_of_items hmodule howns' hkept) (hapart kept b₂ hkept) hws'
        exact hsame.of_concur (alike_items _ hmodule.alike _ halike) (.refl .refl _) fun _ _ _ => .trans
      exact hlater.bind fun _ _ _ hb => .ok hb

/-- If the expansion of the forms fails, then taking turns fails with the same error, or with that of a definition that
is refused first. -/
theorem Apart.forms_of_stuck (hx : x.Oblivious) (hmodule : Discreet x onModule)
    (howns : (b.compilation.session.registry x.registry).owns scope = true) (h : Apart x onModule scope fs b)
    {e : Error} {b₁ : Building} (hexpand : lift (x.expandAll scope fs) b = .error e b₁) :
    ∃ e' b', forms x onModule scope fs b = .error e' b' ∧ (e' = e ∨ Refuses x onModule scope fs b) := by
  induction fs generalizing b e b₁ with
  | nil => cases hexpand
  | cons f fs ih =>
    rw [lift_expandAll_cons, bind_apply] at hexpand
    rw [forms, bind_apply]
    cases hv : lift (x.expand scope f) b with
    | error e' b' =>
      rw [hv] at hexpand
      cases hexpand
      exact ⟨e, b₁, rfl, .inl rfl⟩
    | ok v b' =>
      rw [hv] at hexpand
      dsimp only at hexpand ⊢
      obtain ⟨hunrelated, hapart⟩ := h v b' hv
      have howns' := (redeclares_of_lift (x.redeclares_expand scope f b.compilation) hv).registry.owns howns
      rw [bind_apply]
      cases hkept : items x.registry onModule scope (spliceBlocks v) b' with
      | error e' b₂ => exact ⟨e', b₂, rfl, .inr ⟨v, b', hv, .inl ⟨e', b₂, hkept⟩⟩⟩
      | ok kept b₂ =>
        have hstuck : ∃ b'', lift (x.expandAll scope fs) b' = .error e b'' := by
          rw [bind_apply] at hexpand
          cases hws : lift (x.expandAll scope fs) b' with
          | ok ws b'' => rw [hws] at hexpand; cases hexpand
          | error e'' b'' => rw [hws] at hexpand; cases hexpand; exact ⟨_, rfl⟩
        obtain ⟨b'', hws⟩ := hstuck
        obtain ⟨b₂', hws'⟩ := (hunrelated.interchange hx hmodule howns').stuck hws hkept
        obtain ⟨e', b₃, hforms, hcause⟩ :=
          ih (owns_of_items hmodule howns' hkept) (hapart kept b₂ hkept) hws'
        refine ⟨e', b₃, ?_, hcause.imp_right fun hrefuses => ⟨v, b', hv, .inr ⟨kept, b₂, hkept, hrefuses⟩⟩⟩
        dsimp only
        rw [bind_apply, hforms]

/-- One form alone has nothing to have a bearing on. -/
theorem apart_pair {f g v : Value} {b₁ : Building} (hv : lift (x.expand scope f) b = .ok v b₁)
    (h : Unrelated x onModule scope (spliceBlocks v) [g] b₁) : Apart x onModule scope [f, g] b := by
  intro v' b₁' hv'
  cases hv.symm.trans hv'
  exact ⟨h, fun _ _ _ _ _ _ => ⟨.inert nofun, fun _ _ _ => trivial⟩⟩

/-- The expansion of a form fails, and before it comes to that a definition is refused. -/
def Overtaken (x : Expander MacroBody) (onModule : List Value → Info → Build Unit) (scope : String) (fs : List Value)
    (b : Building) : Prop :=
  (∃ e b₁, lift (x.expandAll scope fs) b = .error e b₁) ∧ Refuses x onModule scope fs b

/-- A block of forms that have no bearing on each other, and the same forms one after the other. -/
theorem Apart.sameEnd (hx : x.Oblivious) (hmodule : Discreet x onModule)
    (howns : (b.compilation.session.registry x.registry).owns scope = true) (h : Apart x onModule scope fs b)
    (info : Info) :
    SameEnd Building.Alike (Overtaken x onModule scope fs b)
      (forms x onModule scope [.call "__block__" fs info] b) (forms x onModule scope fs b) := by
  rw [forms_block, bind_apply]
  cases hexpand : lift (x.expandAll scope fs) b with
  | ok vs b₁ => exact (h.forms_of_expandAll hx hmodule howns hexpand).loosen False.elim
  | error e b₁ =>
    obtain ⟨e', b', hforms, hcause⟩ := h.forms_of_stuck hx hmodule howns hexpand
    rw [hforms]
    exact .error (hcause.imp_right fun hrefuses => ⟨⟨e, b₁, hexpand⟩, hrefuses⟩)

/-! ## Units and modules -/

theorem alike_of_report {text : String} {u : Unit} {b' : Building} (h : lift (report o text) b = .ok u b') :
    b.Alike b' := by
  unfold lift report at h
  cases hverbose : o.verbose with
  | false =>
    rw [hverbose] at h
    cases h
    exact .refl b
  | true =>
    rw [hverbose] at h
    cases h
    exact ⟨_, ⟨_, _, rfl⟩, rfl⟩

/-- The script of a unit. -/
theorem Apart.sameEnd_unit (hx : x.Oblivious)
    (howns : (b.compilation.session.registry x.registry).owns scriptScope = true)
    (h : Apart x (module o x) scriptScope fs b) (info : Info) (runScript : Bool) :
    SameEnd Building.Alike (Overtaken x (module o x) scriptScope fs b)
      (unit o x runScript [.call "__block__" fs info] b) (unit o x runScript fs b) := by
  have hmodule := discreet_module o hx
  rw [unit_eq, unit_eq, bind_apply, bind_apply]
  cases hreport : lift (report o ("Expanding " ++ scriptScope)) b with
  | error e b' => exact .error (.inl rfl)
  | ok u b' =>
    have halike := alike_of_report hreport
    have hforms : SameEnd Building.Alike (Overtaken x (module o x) scriptScope fs b)
        (forms x (module o x) scriptScope [.call "__block__" fs info] b') (forms x (module o x) scriptScope fs b') :=
      (h.sameEnd hx hmodule howns info).of_concur (alike_forms hx hmodule.alike _ halike.symm)
        (alike_forms hx hmodule.alike _ halike) fun _ _ _ => .trans
    exact hforms.bind fun script _ _ hb => (alike_finishScript runScript script hb).sameEnd

/-- The body of a module. -/
theorem sameEnd_module (hx : x.Oblivious) (howns : (b.compilation.session.registry x.registry).owns scriptScope = true)
    {first : Value} {i : Info} (info : Info)
    (h : ∀ name b₁, openModule o x first i b = .ok name b₁ → Apart x (refuseModule name) name fs b₁) :
    SameEnd Building.Alike
      (∃ name b₁, openModule o x first i b = .ok name b₁ ∧ Overtaken x (refuseModule name) name fs b₁)
      (module o x [first, .call "__block__" fs info] i b) (module o x (first :: fs) i b) := by
  rw [module_cons, module_cons, bind_apply, bind_apply]
  cases hopen : openModule o x first i b with
  | error e b₁ => exact .error (.inl rfl)
  | ok name b₁ =>
    obtain ⟨-, hname, -⟩ :=
      (ensures_openModule b.compilation.session scriptScope first i).of_ok (Session.KeepsScope.refl howns) hopen
    have hforms := (h name b₁ hopen).sameEnd hx (discreet_refuseModule x name) hname info
    refine SameEnd.loosen ?_ fun hovertaken => ⟨name, b₁, rfl, hovertaken⟩
    exact hforms.bind fun kept _ _ hb => (alike_loadModule name kept hb).sameEnd

end Build

theorem sameEnd_finishUnit (filename : String) (r : Nat) {code code' : Build Value} {c : Compilation MacroBody}
    {loose : Prop} (h : SameEnd Building.Alike loose (code { compilation := c }) (code' { compilation := c })) :
    SameEnd Alike loose (finishUnit filename r code c) (finishUnit filename r code' c) := by
  unfold finishUnit
  generalize code _ = result at h
  generalize code' _ = result' at h
  cases h with
  | ok hb =>
    obtain ⟨c', hc', rfl⟩ := hb
    exact .ok hc'
  | error he => exact .error he

/-- What is done before the forms of a source are compiled. The expander of the unit is returned. -/
def openForms (o : Settings) (filename : String) : Compile (Expander MacroBody) := do
  report o ("Parsing " ++ filename ++ "...")
  let r ← openUnit filename
  let maxDepth ← ofExcept (readMaxDepth o.maxDepth)
  modify fun c => { c with expansions := 0 }
  return o.expander r maxDepth

/-- What is reported of a compiled unit. -/
def reportUnit (o : Settings) (filename : String) (r : Nat) (u : CompiledUnit) : Compile CompiledUnit := do
  let c ← get
  report o ("Compiled " ++ filename ++ ": " ++ toString u.modules.length ++ " modules, "
    ++ toString (c.session.registry r).macros.length ++ " macros, " ++ toString c.expansions
    ++ " expansions")
  return u

theorem compileForms_eq (o : Settings) {filename source : String} {vs : List Value} (runScript : Bool)
    (hread : readSource filename source = .ok vs) :
    compileForms o filename runScript source = (do
      let x ← openForms o filename
      let u ← finishUnit filename x.registry (Build.unit o x runScript vs)
      reportUnit o filename x.registry u) := by
  simp only [compileForms, openForms, reportUnit, hread, ofExcept_ok, pure_bind, bind_assoc]
  rfl

/-- The unit has a scope for its script. -/
theorem openForms_eq_ok {o : Settings} {filename : String} {c c' : Compilation MacroBody} {x : Expander MacroBody}
    (h : openForms o filename c = .ok x c') :
    x.Oblivious ∧ (c'.session.registry x.registry).owns scriptScope = true := by
  obtain ⟨-, c₁, hreport, h⟩ := bind_eq_ok.1 h
  obtain ⟨r, c₂, hopen, h⟩ := bind_eq_ok.1 h
  obtain ⟨maxDepth, c₃, hdepth, h⟩ := bind_eq_ok.1 h
  obtain ⟨-, rfl⟩ := ofExcept_eq_ok.1 hdepth
  cases h
  obtain ⟨rfl, hunit, -⟩ := (ensures_openUnit filename).of_ok ⟨rfl, rfl⟩ hopen
  exact ⟨o.oblivious_expander _ _, hunit.owns_iff.2 List.mem_cons_self⟩

theorem alike_reportUnit (o : Settings) (filename : String) (r : Nat) (u : CompiledUnit) :
    Concurs Alike (reportUnit o filename r u) := by
  refine .reading (fun c => .andThen (alike_report o _) fun _ => .pure u) ?_
  rintro c _ ⟨log, warnings, rfl⟩
  rfl

/-- Sources of a block and of its members. -/
theorem sameEnd_compile {o : Settings} {filename source source' : String} {fs : List Value} {info : Info}
    {c : Compilation MacroBody} (runScript : Bool)
    (hread : readSource filename source = .ok [.call "__block__" fs info])
    (hread' : readSource filename source' = .ok fs)
    (h : ∀ x c₁, openForms o filename c = .ok x c₁ →
      Build.Apart x (Build.module o x) scriptScope fs { compilation := c₁ }) :
    SameEnd Alike
      (∃ x c₁, openForms o filename c = .ok x c₁ ∧
        Build.Overtaken x (Build.module o x) scriptScope fs { compilation := c₁ })
      (compile o filename runScript source c) (compile o filename runScript source' c) := by
  have hforms : SameEnd Alike
      (∃ x c₁, openForms o filename c = .ok x c₁ ∧
        Build.Overtaken x (Build.module o x) scriptScope fs { compilation := c₁ })
      (compileForms o filename runScript source c) (compileForms o filename runScript source' c) := by
    rw [compileForms_eq o runScript hread, compileForms_eq o runScript hread', bind_apply, bind_apply]
    cases hopen : openForms o filename c with
    | error e c₁ => exact .error (.inl rfl)
    | ok x c₁ =>
      obtain ⟨hx, howns⟩ := openForms_eq_ok hopen
      have hunit := sameEnd_finishUnit filename x.registry ((h x c₁ hopen).sameEnd_unit hx howns info runScript)
      refine SameEnd.loosen ?_ fun hovertaken => ⟨x, c₁, rfl, hovertaken⟩
      exact hunit.bind fun u _ _ hc => (alike_reportUnit o filename x.registry u hc).sameEnd
  unfold compile
  generalize compileForms o filename runScript source c = result at hforms
  generalize compileForms o filename runScript source' c = result' at hforms
  cases hforms with
  | ok hc => exact .ok hc
  | error he => exact .error (he.imp_left (congrArg _))

open Build in
/-- What a block of forms comes to.

* All its members are expanded in order, and only then the definitions and modules among what came out are dealt with,
  in order.
* At script level this comes to the same as compiling the forms one after the other, provided that no form has a bearing
  on the expansion of those behind it: either both succeed with the same unit, registries, modules and functions, or
  both fail. The errors are the same, unless the expansion of a form fails in the block and one after the other a
  definition before that form is refused.
* So it is with sources that consist of the block and of its forms.
* The same holds of the body of a module, wherever in a unit it stands. -/
theorem block_transparent (o : Settings) (r maxDepth : Nat) (fs : List Value) (info : Info) :
    let x := o.expander r maxDepth
    let block := Value.call "__block__" fs info
    (∀ onModule scope, forms x onModule scope [block] = (do
      let vs ← lift (x.expandAll scope fs)
      items r onModule scope (vs.flatMap spliceBlocks))) ∧
    (∀ (filename : String) (runScript : Bool) (c : Compilation MacroBody),
      (c.session.registry r).owns scriptScope = true →
      Apart x (module o x) scriptScope fs { compilation := c } →
      SameEnd Alike (Overtaken x (module o x) scriptScope fs { compilation := c })
        (finishUnit filename r (unit o x runScript [block]) c) (finishUnit filename r (unit o x runScript fs) c)) ∧
    (∀ (filename source source' : String) (runScript : Bool) (c : Compilation MacroBody),
      readSource filename source = .ok [block] → readSource filename source' = .ok fs →
      (∀ x c₁, openForms o filename c = .ok x c₁ → Apart x (module o x) scriptScope fs { compilation := c₁ }) →
      SameEnd Alike
        (∃ x c₁, openForms o filename c = .ok x c₁ ∧ Overtaken x (module o x) scriptScope fs { compilation := c₁ })
        (compile o filename runScript source c) (compile o filename runScript source' c)) ∧
    ∀ (first : Value) (i : Info) (b : Building),
      (b.compilation.session.registry r).owns scriptScope = true →
      (∀ name b₁, openModule o x first i b = .ok name b₁ → Apart x (refuseModule name) name fs b₁) →
      SameEnd Building.Alike
        (∃ name b₁, openModule o x first i b = .ok name b₁ ∧ Overtaken x (refuseModule name) name fs b₁)
        (module o x [first, block] i b) (module o x (first :: fs) i b) := by
  intro x block
  have hx : x.Oblivious := o.oblivious_expander r maxDepth
  refine ⟨fun onModule scope => forms_block x onModule scope fs info, ?_, ?_, ?_⟩
  · intro filename runScript c howns hapart
    exact sameEnd_finishUnit filename r (hapart.sameEnd_unit hx howns info runScript)
  · intro filename source source' runScript c hread hread' hapart
    exact sameEnd_compile runScript hread hread' hapart
  · intro first i b howns hapart
    exact sameEnd_module hx howns info hapart

section

open Build

/-- A unit is underway whose script has a macro `one`. -/
def oneUnit : Building :=
  { compilation := { session := { registries := [{
      unit := "a.mex"
      macros := [⟨scriptScope, "one", [], ⟨scriptScope, [], [.atom "first"], none⟩, true, {}⟩]
      tables := [{ scope := scriptScope }]
      unshared := [scriptScope] }] } } }

/-- The definition of a macro `two`. -/
def twoMacro (info : Info) : Value :=
  .call "defmacro" [.atom "two", .list [], .atom "second"] info

/-- The definition of a function `three`. -/
def threeFunction (info : Info) : Value :=
  .call "def" [.atom "three", .list [], .atom "third"] info

/-- Only a call of `two` without arguments could tell whether the macro is there. -/
theorem apart_twoMacro {x : Expander MacroBody} {onModule : List Value → Info → Build Unit} {scope : String}
    {info : Info} {g : Value} {b : Building}
    (h : ∀ w ∈ x.visited 0 scope g b.compilation, w.called? ≠ some ("two", 0)) :
    Apart x onModule scope [twoMacro info, g] b := by
  have hexpand : lift (x.expand scope (twoMacro info)) b = .ok (twoMacro info) b := by
    rw [lift, Expander.expand, Expander.expandFrom_eq_expandWithin]
    cases x.maxDepth with
    | zero => rfl
    | succ budget => rfl
  have htwo : ∀ d ∈ spliceBlocks (twoMacro info), d = twoMacro info := fun d hd => List.mem_singleton.1 hd
  refine apart_pair hexpand (.uncalled (fun args i hmem => ?_) fun w hw d hd key hkey => ?_)
  · exact absurd (htwo _ hmem) (by simp [twoMacro])
  · cases htwo d hd
    cases hkey
    exact Expander.forall_visitedAll_singleton.2 h w hw

theorem apart_threeFunction (x : Expander MacroBody) (onModule : List Value → Info → Build Unit) (scope : String)
    (i j : Info) (b : Building) : Apart x onModule scope [twoMacro i, threeFunction j] b := by
  refine apart_twoMacro ?_
  refine (Expander.forall_visitedBy_cons rfl).2 ⟨by rintro _ ⟨⟩; simp [threeFunction, Value.called?], ?_⟩
  refine (Expander.forall_visitedBy_cons rfl).2 ⟨by rintro _ ⟨⟩; decide, ?_⟩
  refine (Expander.forall_visitedBy_cons rfl).2 ⟨by rintro _ ⟨⟩; decide, ?_⟩
  refine (Expander.forall_visitedBy_cons rfl).2 ⟨by simp [Task.visited?], ?_⟩
  refine (Expander.forall_visitedBy_cons rfl).2 ⟨by rintro _ ⟨⟩; decide, ?_⟩
  refine (Expander.forall_visitedBy_cons rfl).2 ⟨by simp [Task.visited?], ?_⟩
  exact Expander.forall_visitedBy_nil

/-- A block defines `two` and calls `one`, or it defines `two` and a function. -/
theorem block_transparent_two :
    let o : Settings := {}
    let x := o.expander 0 4
    let block := fun fs => Value.call "__block__" fs {}
    let script := [twoMacro {}, .call "one" [] {}]
    let body := [twoMacro {}, threeFunction {}]
    let c := oneUnit.compilation
    ((c.session.registry 0).owns scriptScope = true ∧ Apart x (module o x) scriptScope script { compilation := c } ∧
      SameEnd Alike (Overtaken x (module o x) scriptScope script { compilation := c })
        (finishUnit "a.mex" 0 (unit o x true [block script]) c) (finishUnit "a.mex" 0 (unit o x true script) c)) ∧
    SameEnd Alike
      (∃ x c₁, openForms o "b.mex" c = .ok x c₁ ∧
        Overtaken x (module o x) scriptScope [twoMacro (.read 1 12), threeFunction (.read 1 37)] { compilation := c₁ })
      (compile o "b.mex" true "<__block__ <defmacro two () second> <def three () third>>" c)
      (compile o "b.mex" true "           <defmacro two () second> <def three () third>" c) ∧
    ∃ b₁, openModule o x (.atom "M") {} oneUnit = .ok "M" b₁ ∧
      SameEnd Building.Alike (∃ name b₁, openModule o x (.atom "M") {} oneUnit = .ok name b₁ ∧
          Overtaken x (refuseModule name) name body b₁)
        (module o x [.atom "M", block body] {} oneUnit) (module o x (.atom "M" :: body) {} oneUnit) := by
  intro o x block script body c
  have hscript : Apart x (module o x) scriptScope script { compilation := c } := by
    refine apart_twoMacro ?_
    refine (Expander.forall_visitedBy_cons rfl).2 ⟨by rintro _ ⟨⟩; decide, ?_⟩
    refine (Expander.forall_visitedBy_cons rfl).2 ⟨by rintro _ ⟨⟩; decide, ?_⟩
    refine (Expander.forall_visitedBy_cons rfl).2 ⟨by simp [Task.visited?], ?_⟩
    exact Expander.forall_visitedBy_nil
  have howns : (c.session.registry 0).owns scriptScope = true := by decide
  refine ⟨⟨howns, hscript, ?_⟩, ?_, finalState (openModule o x (.atom "M") {} oneUnit), rfl, ?_⟩
  · exact (block_transparent o 0 4 script {}).2.1 "a.mex" true c howns hscript
  · exact (block_transparent o 0 4 _ (.read 1 1)).2.2.1 "b.mex" _ _ true c rfl rfl
      fun _ _ _ => apart_threeFunction _ _ _ _ _ _
  · exact (block_transparent o 0 4 body {}).2.2.2 (.atom "M") {} oneUnit howns
      fun _ _ _ => apart_threeFunction _ _ _ _ _ _

end

/-- A macro that a block defines is not there yet when the block calls it. -/
theorem block_calls_own_macro :
    (compile {} "a.mex" true "<__block__ <defmacro m () 1> <m>>").run' {} = none ∧
      ((compile {} "a.mex" true "<defmacro m () 1> <m>").run' {}).map (·.result.render false) = some "1" := by
  delta compile compileForms Build.unit Build.module Build.expandScope
  rw [Build.forms_eq_foldr]
  decide +kernel

end MacroLang
