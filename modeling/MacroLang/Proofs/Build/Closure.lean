import MacroLang.Proofs.Build.Unit
import MacroLang.Proofs.Expansion.Closure
import MacroLang.Proofs.Registry.Invariant

/-!
# Compilation is up to the standard of its sources

A unit finds the functions of loaded modules and the macros of published scopes. If these are up to a standard
(`Compilation.Offers`), and the source is read as values up to it, then so is everything that the unit makes: the forms
of its scopes when they are expanded, the bodies of its macros and functions, and the value of its script. If it fails,
the error is up to the standard, and in both cases so is what it leaves for the next unit.

Main statement: `ensures_compileForms_meets`.
-/

namespace MacroLang

variable {S : Standard} {r : Nat} {o : Settings}

open Standard

/-! ## Work that knows nothing of the unit -/

theorem MindsWorld.mindsModules {I : Compilation MacroBody → Prop} (hI : MindsWorld S I) : MindsModules I :=
  fun c w hc hw => hI.change c w hc fun m hm => hI.world c hc m (hw ▸ hm)

theorem makes_report {I : Compilation MacroBody → Prop} (hI : MindsWorld S I) (text : String) :
    S.Makes I (fun _ => True) (report o text) :=
  Maintains.delivers (ensures_report hI.mindsModules text)

theorem Settings.meets_expander (o : Settings) (registry maxDepth : Nat) : (o.expander registry maxDepth).Meets S :=
  fun _ _ _ hbody hargs => World.makes_runMacro (Linkage.meets_within _ _) hbody hargs

theorem makes_runForms {I : Compilation MacroBody → Prop} (hI : MindsWorld S I) (registry : Nat) {forms : List Value}
    (hforms : ∀ e ∈ forms, S.value e) : S.Makes I S.value (runForms o registry forms) := by
  refine .bind (makes_report hI _) fun _ _ => .reading fun c _ => ?_
  have hhome : ∀ declarations, (Home.unlisted { name := scriptScope, declarations }).Meets S :=
    fun _ => List.forall_mem_nil _
  exact Expand.makes_onWorld hI (World.makes_script (Linkage.meets_within _ _) (hhome _) hforms)

/-! ## Forms -/

/-- What the unit with registry `r` finds and has made so far is up to the standard. -/
structure Building.Meets (S : Standard) (r : Nat) (b : Building) : Prop where
  compilation : b.compilation.Meets S r
  expanded : ∀ p ∈ b.expanded, ∀ e ∈ p.2, S.value e

namespace Build

variable {x : Expander MacroBody} {scope : String} {info : Info}

theorem makes_lift {α : Type} {Q : α → Prop} {code : Compile α} (h : S.Makes (Compilation.Meets S r) Q code) :
    S.Makes (Building.Meets S r) Q (lift code) := by
  intro b hb
  have hcode := h b.compilation hb.compilation
  unfold lift
  cases hrun : code b.compilation with
  | ok a c => rw [hrun] at hcode; exact ⟨hcode.1, hcode.2, hb.expanded⟩
  | error e c => rw [hrun] at hcode; exact ⟨⟨hcode.1, hb.expanded⟩, hcode.2⟩

theorem makes_liftReport (text : String) :
    S.Makes (Building.Meets S r) (fun _ => True) (lift (report o text)) :=
  makes_lift (makes_report mindsWorld_meets text)

/-- A scope of the unit is opened. -/
theorem makes_openScope {α : Type} {Q : α → Prop} (scope : String) {next : Build α}
    (hnext : S.Makes (Building.Meets S r) Q next) :
    S.Makes (Building.Meets S r) Q (do
      let session ← ofExcept ((← get).compilation.session.openScope r scope)
      lift (Expand.setSession session)
      next) := by
  refine .reading fun b hb => .bind (.ofExcept (S.gives_openScope b.compilation.session r scope)) fun s hs => ?_
  refine .bind (makes_lift (.modify fun c hc => ⟨hc.world, ?_⟩)) fun _ _ => hnext
  exact hb.compilation.session.redeclare hs

theorem makes_defineMacro (form : String) {args : List Value} (hargs : ∀ v ∈ args, S.value v) (hinfo : S.info info) :
    S.Makes (Building.Meets S r) (fun _ => True) (defineMacro r scope form args info) := by
  refine .bind (.ofExcept (S.gives_ofForm hinfo form hargs)) fun d hd => makes_openScope scope (makes_lift ?_)
  refine .reading fun c hc => .bind (.ofExcept (S.gives_register c.session r hinfo)) fun s hs => ?_
  refine .bind (.modify fun c' hc' => ⟨hc'.world, ?_⟩) fun _ _ => .modify fun _ hc' => ⟨hc'.world, hc'.session⟩
  exact hs ▸ hc.session.addMacro hd

section

variable {onModule : List Value → Info → Build Unit}
  (hmodule : ∀ args info, (∀ v ∈ args, S.value v) → S.info info →
    S.Makes (Building.Meets S r) (fun _ => True) (onModule args info))

include hmodule

theorem makes_item {v : Value} (hv : S.value v) :
    S.Makes (Building.Meets S r) (fun vs => ∀ w ∈ vs, S.value w) (item r onModule scope v) := by
  unfold item
  split
  · obtain ⟨hinfo, hargs⟩ := value_call.1 hv
    exact .bind (hmodule _ _ hargs hinfo) fun _ _ => .pure (List.forall_mem_nil _)
  · obtain ⟨hinfo, hargs⟩ := value_call.1 hv
    exact .bind (makes_defineMacro _ hargs hinfo) fun _ _ => .pure (List.forall_mem_nil _)
  · obtain ⟨hinfo, hargs⟩ := value_call.1 hv
    exact .bind (makes_defineMacro _ hargs hinfo) fun _ _ => .pure (List.forall_mem_nil _)
  · exact .pure (List.forall_mem_singleton.2 hv)

theorem makes_items {vs : List Value} (hvs : ∀ v ∈ vs, S.value v) :
    S.Makes (Building.Meets S r) (fun vs => ∀ w ∈ vs, S.value w) (items r onModule scope vs) := by
  induction vs with
  | nil => exact .pure (List.forall_mem_nil _)
  | cons v vs ih =>
    rw [List.forall_mem_cons] at hvs
    refine .bind (makes_item hmodule hvs.1) fun kept hkept => .bind (ih hvs.2) fun rest hrest => ?_
    exact .pure (List.forall_mem_append.2 ⟨hkept, hrest⟩)

end

theorem makes_warnShadowed (module : String) (fs : List Function) :
    S.Makes (Building.Meets S r) (fun _ => True) (warnShadowed x module fs) := by
  induction fs with
  | nil => exact .pure trivial
  | cons f fs ih =>
    refine .reading fun b _ => ?_
    dsimp only
    split
    · exact .bind (makes_lift (.modify fun _ hc => ⟨hc.world, hc.session⟩)) fun _ _ => ih
    · exact ih

theorem makes_checkNew (name : String) (hinfo : S.info info) :
    S.Makes (Building.Meets S r) (fun _ => True) (checkNew r name info) := by
  refine .reading fun b _ => ?_
  dsimp only
  split
  · exact .throw (routine_on hinfo rfl)
  · exact .pure trivial

/-- The expanded forms of a scope are noted. -/
theorem makes_noteExpanded (scope : String) {vs : List Value} (hvs : ∀ v ∈ vs, S.value v) :
    S.Makes (Building.Meets S r) (fun _ => True)
      (modify fun b => { b with expanded := b.expanded ++ [(scope, vs)] } : Build PUnit) :=
  .modify fun _ hb => ⟨hb.compilation, List.forall_mem_append.2 ⟨hb.expanded, List.forall_mem_singleton.2 hvs⟩⟩

section

variable (hx : x.Meets S) (hS : S.Lenient)

include hx hS

section

variable {onModule : List Value → Info → Build Unit}
  (hmodule : ∀ args info, (∀ v ∈ args, S.value v) → S.info info →
    S.Makes (Building.Meets S x.registry) (fun _ => True) (onModule args info))

include hmodule

theorem makes_forms {vs : List Value} (hvs : ∀ v ∈ vs, S.value v) :
    S.Makes (Building.Meets S x.registry) (fun vs => ∀ w ∈ vs, S.value w) (forms x onModule scope vs) := by
  induction vs with
  | nil => exact .pure (List.forall_mem_nil _)
  | cons v vs ih =>
    rw [List.forall_mem_cons] at hvs
    refine .bind (makes_lift (Expander.makes_expand hx hS hvs.1)) fun w hw => ?_
    have hforms := forall_spliceBlocks (fun _ _ h => (value_call.1 h).2) w hw
    refine .bind (makes_items hmodule hforms) fun kept hkept => .bind (ih hvs.2) fun rest hrest => ?_
    exact .pure (List.forall_mem_append.2 ⟨hkept, hrest⟩)

theorem makes_expandScope {vs : List Value} (hvs : ∀ v ∈ vs, S.value v) :
    S.Makes (Building.Meets S x.registry) (fun vs => ∀ w ∈ vs, S.value w) (expandScope o x onModule scope vs) :=
  .bind (makes_liftReport _) fun _ _ => makes_forms hx hS hmodule hvs

end

/-! ## Modules -/

theorem makes_module {args : List Value} (hargs : ∀ v ∈ args, S.value v) (hinfo : S.info info) :
    S.Makes (Building.Meets S x.registry) (fun _ => True) (module o x args info) := by
  unfold module
  split
  · exact .throw (routine_on hinfo rfl)
  rename_i first body
  rw [List.forall_mem_cons] at hargs
  refine .bind (.ofExcept (S.gives_moduleName hinfo _)) fun name _ => ?_
  refine .bind (makes_checkNew name hinfo) fun _ _ => ?_
  refine makes_openScope name ?_
  refine .bind (.modify fun _ hb => ⟨hb.compilation, hb.expanded⟩) fun _ _ => ?_
  refine .bind (makes_liftReport _) fun _ _ => ?_
  refine .bind (makes_expandScope hx hS (fun _ info _ hinfo => ?_) hargs.2) fun kept hkept => ?_
  · exact .throw (routine_on hinfo rfl)
  refine .bind (makes_noteExpanded name hkept) fun _ _ => ?_
  refine .bind (makes_liftReport _) fun _ _ => .reading fun b _ => ?_
  have hlink : (o.linkage b.compilation.session).Meets S := Linkage.meets_within _ _
  refine .bind (makes_lift (Expand.makes_onWorld mindsWorld_meets (World.makes_load hlink name hkept _))) fun _ _ => ?_
  refine .bind (.modify fun _ hb => ⟨hb.compilation, hb.expanded⟩) fun _ _ => ?_
  exact .reading fun b _ => makes_warnShadowed name _

end

end Build

/-! ## Units -/

namespace Session

variable {s : Session MacroBody}

/-- Publication makes no macro visible that was not visible to the unit itself. -/
theorem Meets.publish (h : s.Meets S r) : (s.publish r).1.Meets S r := by
  have hfrozen : (s.freeze r).Meets S r := h.update h.own
  unfold Session.publish
  dsimp only
  split
  · exact hfrozen
  intro m hm
  rcases hm with hown | ⟨q, hq, hm⟩
  · exact hfrozen.own m hown
  rw [publisher?, lookup_foldl_addPublished, Option.or_eq_some_iff] at hq
  rcases hq with hq | ⟨-, hq⟩
  · exact hfrozen m (.inr ⟨q, hq, hm⟩)
  · split at hq
    · cases hq
      exact hfrozen.own m hm
    · cases hq

/-- A new registry has no macros. -/
theorem Meets.newUnit (h : s.Meets S s.registries.length) (unit script : String) :
    (s.newUnit unit script).Meets S s.registries.length := by
  intro m hm
  rcases hm with hown | ⟨q, hq, hm⟩
  · exact h m (.inl (mem_macros_of_newUnit hown))
  · exact h m (.inr ⟨q, hq, mem_macros_of_newUnit hm⟩)

theorem gives_publish (hS : S.Lenient) (s : Session MacroBody) (r : Nat) :
    S.Gives (fun _ => True) (s.publish r).2 := by
  unfold Session.publish
  dsimp only
  split
  · exact error_on (hS S.info_none rfl)
  · trivial

end Session

theorem makes_publish (hS : S.Lenient) (registry : Nat) :
    S.Makes (Compilation.Meets S registry) (fun _ => True) (publish registry) := by
  refine .reading fun c hc => .bind (.modify fun _ hc' => ⟨hc'.world, hc.session.publish⟩) fun _ _ => ?_
  refine .bind (.ofExcept (c.session.gives_publish hS registry)) fun _ _ => ?_
  exact .modify fun _ hc' => ⟨hc'.world, hc'.session⟩

theorem Build.makes_unit {x : Expander MacroBody} (hx : x.Meets S) (hS : S.Lenient) (runScript : Bool)
    {vs : List Value} (hvs : ∀ v ∈ vs, S.value v) :
    S.Makes (Building.Meets S x.registry) S.value (Build.unit o x runScript vs) := by
  refine .bind (makes_expandScope hx hS (fun _ _ hargs hinfo => makes_module hx hS hargs hinfo) hvs)
    fun script hscript => ?_
  refine .bind (makes_noteExpanded scriptScope hscript) fun _ _ => ?_
  have hlast : ∀ result : Value, S.value result → S.Makes (Building.Meets S x.registry) S.value
      (Build.lift (publish x.registry) >>= fun _ => pure result) :=
    fun _ hresult => .bind (makes_lift (makes_publish hS _)) fun _ _ => .pure hresult
  dsimp only
  split
  · exact .bind (makes_lift (makes_runForms mindsWorld_meets _ hscript)) hlast
  · exact hlast _ value_nil

/-- The forms of a unit, and its value, are up to the standard. -/
structure CompiledUnit.Meets (S : Standard) (u : CompiledUnit) : Prop where
  expanded : ∀ p ∈ u.expanded, ∀ e ∈ p.2, S.value e
  result : S.value u.result

theorem makes_finishUnit (filename : String) (registry : Nat) {code : Build Value}
    (h : S.Makes (Building.Meets S r) S.value code) :
    S.Makes (Compilation.Meets S r) (CompiledUnit.Meets S) (finishUnit filename registry code) := by
  intro c hc
  have hcode := h { compilation := c } ⟨hc, List.forall_mem_nil _⟩
  unfold finishUnit
  cases hrun : code { compilation := c } with
  | ok v b => rw [hrun] at hcode; exact ⟨⟨hcode.2.expanded, hcode.1⟩, hcode.2.compilation⟩
  | error e b =>
    rw [hrun] at hcode
    exact ⟨⟨hcode.1.compilation.world.foldl_unload b.loaded, hcode.1.compilation.session⟩, hcode.2⟩

/-! ## From one unit to the next -/

/-- The functions of loaded modules and the macros of published scopes are up to the standard. This is what the next
unit finds, as its registry has no macros yet. -/
def Compilation.Offers (S : Standard) (c : Compilation MacroBody) : Prop :=
  c.Meets S c.session.registries.length

/-- Of a standard it only matters what it asks of values. -/
theorem Compilation.Offers.mono {S' : Standard} {c : Compilation MacroBody} (h : c.Offers S)
    (himp : ∀ v, S.value v → S'.value v) : c.Offers S' :=
  ⟨fun m hm f hf e he => himp e (h.world m hm f hf e he), fun m hm e he => himp e (h.session m hm e he)⟩

/-- What a unit leaves is what the next one finds. -/
theorem Compilation.Meets.offers {c : Compilation MacroBody} (h : c.Meets S r) : c.Offers S := by
  refine ⟨h.world, fun m hm => ?_⟩
  rcases hm with hown | hpublished
  · rw [Session.registry_of_le _ (Nat.le_refl _)] at hown
    cases hown
  · exact h.session m (.inr hpublished)

theorem ensures_openUnit_meets (filename : String) :
    Ensures (fun c => c.session.registries.length = r ∧ c.Meets S r) (openUnit filename)
      (fun r' c => r' = r ∧ c.Meets S r) (fun e c => c.Meets S r ∧ S.error e) := by
  refine Ensures.reading fun c hc => ?_
  obtain ⟨rfl, hc⟩ := hc
  have hnew := hc.session.newUnit filename scriptScope
  refine Ensures.bind (R := fun _ c' => c'.Meets S c.session.registries.length) (.modify fun c' hc' => ?_) fun _ => ?_
  · subst hc'
    exact ⟨hc.world, hnew⟩
  refine Delivers.bind (.ofExcept (S.gives_openScope (c.session.newUnit filename scriptScope) _ _)) fun s hs => ?_
  exact .bind (.modify fun _ hc' => ⟨hc'.world, hnew.redeclare hs⟩) fun _ _ => .pure rfl

/-- Let what a unit finds be up to a standard, and what its source is read as. Then so are the unit and all that it
leaves, the macros of its own included, whether or not it succeeds. -/
theorem ensures_compileForms_meets (hS : S.Lenient) (filename : String) (runScript : Bool) {source : String}
    (hread : S.Gives (fun vs => ∀ v ∈ vs, S.value v) (readSource filename source)) :
    Ensures (fun c => c.session.registries.length = r ∧ c.Meets S r) (compileForms o filename runScript source)
      (fun u c => u.Meets S ∧ c.Meets S r) (fun e c => c.Meets S r ∧ S.error e) := by
  have hminds : MindsModules fun c => c.session.registries.length = r ∧ c.Meets S r :=
    fun c w hc hw => ⟨hc.1, mindsWorld_meets.mindsModules c w hc.2 hw⟩
  refine Ensures.bind (ensures_report hminds _) fun _ => ?_
  refine Ensures.bind (R := fun vs c => (∀ v ∈ vs, S.value v) ∧ c.session.registries.length = r ∧ c.Meets S r)
    (.ofExcept (fun vs hvs _ hc => ⟨hread.of_ok hvs, hc⟩) fun e he _ hc => ⟨hc.2, hread.raises e he⟩) fun vs => ?_
  refine .given fun hvs => Ensures.bind (ensures_openUnit_meets filename) fun r' => .given fun hr => ?_
  subst hr
  refine Delivers.bind (.ofExcept (S.gives_readMaxDepth _)) fun maxDepth _ => ?_
  refine .bind (.modify fun _ hc => ⟨hc.world, hc.session⟩) fun _ _ => ?_
  refine .bind (makes_finishUnit filename r' (Build.makes_unit (o.meets_expander r' maxDepth) hS runScript hvs))
    fun u hu => .reading fun c _ => ?_
  exact .bind (makes_report mindsWorld_meets _) fun _ _ => .pure hu

end MacroLang
