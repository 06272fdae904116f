import MacroLang.Proofs.Build.Alike
import MacroLang.Proofs.Expansion.Contexts
import MacroLang.Proofs.Expansion.Trace

/-!
# A scope while others are compiled

What a scope declares is recorded while its own forms are expanded, and at no other time. Its macros can be registered,
and modules can be compiled from beginning to end: the scope has the declarations that it had (`Build.keeps_module`).
-/

namespace MacroLang

namespace Session

variable {β : Type} {s₀ s s' : Session β} {r : Nat} {scope other : String}

/-- In session `s` registry `r` has a scope, and with the declarations that it has in `s₀`. -/
structure KeepsScope (s₀ : Session β) (r : Nat) (scope : String) (s : Session β) : Prop where
  owns : (s.registry r).owns scope = true
  declared : ∀ c, s.declaredTo r scope c = s₀.declaredTo r scope c

theorem KeepsScope.refl (h : (s₀.registry r).owns scope = true) : s₀.KeepsScope r scope s₀ :=
  ⟨h, fun _ => rfl⟩

theorem KeepsScope.withMacros (h : s₀.KeepsScope r scope s) (more : List (Macro β)) :
    s₀.KeepsScope r scope (s.withMacros r more) where
  owns := by
    rw [owns_withMacros]
    exact h.owns
  declared c := by
    rw [declaredTo, declarationsFor_withMacros]
    exact h.declared c

/-- Another scope may change its declarations. -/
theorem KeepsScope.agreesBut (h : s₀.KeepsScope r scope s) {made : Context → Prop} (hs : s.AgreesBut other made s')
    (hother : scope ≠ other) (howns : (s'.registry r).owns scope = true) : s₀.KeepsScope r scope s' :=
  ⟨howns, fun c => (hs.declared r scope c fun hc => hother hc.1).trans (h.declared c)⟩

theorem owns_openScope (h : s.openScope r other = .ok s') (howns : (s.registry r).owns scope = true) :
    (s'.registry r).owns scope = true := by
  unfold openScope at h
  split at h
  · cases h
    exact howns
  · obtain ⟨-, -, h⟩ := except_bind_eq_ok.1 h
    cases h
    rcases Nat.lt_or_ge r s.registries.length with hr | hr
    · rw [registry_update_self s r _ hr, Registry.owns_withTable, howns, Bool.true_or]
    · rw [update_of_le s _ hr]
      exact howns

theorem owns_of_openScope (hr : r < s.registries.length) (h : s.openScope r scope = .ok s') :
    (s'.registry r).owns scope = true := by
  unfold openScope at h
  split at h
  · cases h
    assumption
  · obtain ⟨-, -, h⟩ := except_bind_eq_ok.1 h
    cases h
    rw [registry_update_self s r _ hr, Registry.owns_withTable, beq_self_eq_true, Bool.or_true]

theorem lt_of_owns (h : (s.registry r).owns scope = true) : r < s.registries.length := by
  rcases Nat.lt_or_ge r s.registries.length with hr | hr
  · exact hr
  · rw [registry_of_le s hr] at h
    cases h

theorem KeepsScope.openScope (h : s₀.KeepsScope r scope s) (hother : scope ≠ other)
    (hs : s.openScope r other = .ok s') : s₀.KeepsScope r scope s' :=
  h.agreesBut (agreesBut_openScope (fun _ => True) hs) hother (owns_openScope hs h.owns)

/-- The declarations of a scope of the registry may change without a change in its scopes. -/
theorem Redeclares.owns_of_owns (h : s.Redeclares r other s') (hother : (s.registry r).owns other = true)
    (howns : (s.registry r).owns scope = true) : (s'.registry r).owns scope = true := by
  rw [Registry.owns_iff, h.registry.scopes hother]
  exact Registry.owns_iff.1 howns

end Session

/-! ## Expansion -/

namespace Expander

variable {β : Type} {x : Expander β} {scope other : String}

/-- Whether or not the expansion of a form fails, it changes declarations of its scope only. -/
theorem redeclares_expand (x : Expander β) (scope : String) (v : Value) (c : Compilation β) :
    c.session.Redeclares x.registry scope (finalState (x.expand scope v c)).session := by
  let I := fun c' : Compilation β => c.session.Redeclares x.registry scope c'.session
  have hinvoke : ∀ m args info, Maintains I (fun _ => True) (x.invoke m args info) := by
    refine fun m args info => .of_finalState fun c' hc' => ?_
    show c.session.Redeclares x.registry scope (finalState (x.invoke m args info c')).session
    rw [session_invoke]
    exact hc'
  have hexpand : Maintains I (fun _ => True) (x.expandFrom 0 scope v) :=
    maintains_expandFrom (fun _ _ hc hdeclares => hc.trans hdeclares.session)
      (fun m args info c' hc' => hinvoke m args info c' hc'.2) (fun _ _ => trivial) (fun _ _ _ => trivial) 0 v
  exact hexpand.finalState (.refl ..)

theorem maintains_expandAll {I : Compilation β → Prop} (h : ∀ v c, I c → I (finalState (x.expand scope v c)))
    (vs : List Value) : Maintains I (fun _ => True) (x.expandAll scope vs) := by
  induction vs with
  | nil => exact .pure _
  | cons v vs ih => exact .andThen (.of_finalState (h v)) fun _ => .andThen ih fun _ => .pure _

theorem redeclares_expandAll (x : Expander β) (scope : String) (vs : List Value) (c : Compilation β) :
    c.session.Redeclares x.registry scope (finalState (x.expandAll scope vs c)).session :=
  (maintains_expandAll (fun v c' (hc' : c.session.Redeclares x.registry scope c'.session) =>
    hc'.trans (x.redeclares_expand scope v c')) vs).finalState (.refl ..)

/-- The expansion of a form of another scope. -/
theorem keepsScope_expand {s₀ : Session β} {c : Compilation β} (hother : scope ≠ other) (v : Value)
    (howns : (c.session.registry x.registry).owns other = true) (h : s₀.KeepsScope x.registry scope c.session) :
    s₀.KeepsScope x.registry scope (finalState (x.expand other v c)).session := by
  have hagrees : c.session.AgreesBut other (fun _ => True) (finalState (x.expand other v c)).session :=
    agreesBut_expandFrom fun _ _ _ _ => trivial
  exact h.agreesBut hagrees hother ((x.redeclares_expand other v c).owns_of_owns howns h.owns)

end Expander

theorem Expand.register_apply {β : Type} (r : Nat) (m : Macro β) (c : Compilation β) :
    Expand.register r m c = match c.session.register r m with
      | .ok s => .ok ⟨⟩ ({ c with session := s }.debug ("Registered " ++ m.describe))
      | .error e => .error e c := by
  rw [register, change, get_bind]
  cases c.session.register r m with
  | ok s => rfl
  | error e => rfl

/-! ## Forms and modules -/

namespace Build

variable {o : Settings} {x : Expander MacroBody} {onModule : List Value → Info → Build Unit} {scope : String}

/-- Whether or not the code fails, the session keeps a property. -/
abbrev Keeps (I : Session MacroBody → Prop) {α : Type} (code : Build α) : Prop :=
  Maintains (fun b => I b.compilation.session) (fun _ => True) code

variable {I : Session MacroBody → Prop}

theorem keeps_lift {α : Type} {code : Compile α} (h : ∀ c, I c.session → I (finalState (code c)).session) :
    Keeps I (lift code) := by
  refine .of_finalState fun b hb => ?_
  have hcode := h b.compilation hb
  unfold lift
  cases hrun : code b.compilation with
  | ok a c => rw [hrun] at hcode; exact hcode
  | error e c => rw [hrun] at hcode; exact hcode

theorem keeps_report (o : Settings) (text : String) : Keeps I (lift (report o text)) := by
  refine keeps_lift fun c hc => ?_
  unfold report
  cases o.verbose with
  | false => exact hc
  | true => exact hc

theorem keeps_onWorld {α : Type} (code : EStateM Error World α) : Keeps I (lift (Expand.onWorld code)) := by
  refine keeps_lift fun c hc => ?_
  unfold Expand.onWorld
  cases code c.world with
  | ok a w => exact hc
  | error e w => exact hc

/-- The macro that a definition in a scope makes. -/
def scopeMacro (r : Nat) (scope form : String) (info : Info) (d : Definition) : Macro MacroBody :=
  { scope, name := d.name, params := d.params.map (·.name), isPublic := form == "defmacro", info
    body := ⟨scope, d.params, d.body, some (.registered r scope)⟩ }

/-- A macro is defined in a scope that the registry has. -/
theorem defineMacro_of_owns {r : Nat} {b : Building} (howns : (b.compilation.session.registry r).owns scope = true)
    (form : String) (args : List Value) (info : Info) :
    defineMacro r scope form args info b = (do
      let d ← ofExcept (Definition.ofForm form args info)
      lift (Expand.register r (scopeMacro r scope form info d)) : Build Unit) b := by
  unfold defineMacro
  cases Definition.ofForm form args info with
  | error e => rfl
  | ok d =>
    rw [ofExcept_ok, pure_bind, pure_bind, get_bind, Session.openScope_of_owns howns]
    rfl

theorem keeps_defineMacro {r : Nat} (howns : ∀ s, I s → (s.registry r).owns scope = true)
    (hmacros : ∀ s m, I s → I (s.withMacros r [m])) (form : String) (args : List Value) (info : Info) :
    Keeps I (defineMacro r scope form args info) := by
  intro b hb
  rw [defineMacro_of_owns (howns _ hb)]
  refine Maintains.andThen (.ofExcept fun _ _ => trivial) (fun d => keeps_lift fun c hc => ?_) b hb
  rw [Expand.register_apply]
  cases hregister : c.session.register r (scopeMacro r scope form info d) with
  | error e => exact hc
  | ok s => exact Session.eq_withMacros_of_register (howns _ hc) hregister ▸ hmacros _ _ hc

theorem keeps_items {r : Nat} (howns : ∀ s, I s → (s.registry r).owns scope = true)
    (hmacros : ∀ s m, I s → I (s.withMacros r [m])) (hmodule : ∀ args info, Keeps I (onModule args info))
    (vs : List Value) : Keeps I (items r onModule scope vs) :=
  (laws_maintains _ _).items hmodule (keeps_defineMacro howns hmacros) vs

theorem keeps_forms (howns : ∀ s, I s → (s.registry x.registry).owns scope = true)
    (hmacros : ∀ s m, I s → I (s.withMacros x.registry [m])) (hmodule : ∀ args info, Keeps I (onModule args info))
    (hexpand : ∀ v (c : Compilation MacroBody), I c.session → I (finalState (x.expand scope v c)).session)
    (vs : List Value) : Keeps I (forms x onModule scope vs) :=
  (laws_maintains _ _).forms hmodule (keeps_defineMacro howns hmacros) (fun v => keeps_lift (hexpand v)) vs

theorem keeps_warnShadowed (module : String) (fs : List Function) : Keeps I (warnShadowed x module fs) := by
  induction fs with
  | nil => exact .pure _
  | cons f fs ih =>
    refine Maintains.reading fun b _ => ?_
    split
    · exact .andThen (keeps_lift fun _ hc => hc) fun _ => ih
    · exact ih

theorem keeps_loadModule (name : String) (kept : List Value) : Keeps I (loadModule o x name kept) := by
  refine Maintains.andThen (Ensures.modify fun _ h => h) fun _ => .andThen (keeps_report o _) fun _ => ?_
  refine Maintains.reading fun b _ => .andThen (keeps_onWorld _) fun _ => ?_
  refine Maintains.andThen (Ensures.modify fun _ h => h) fun _ => .reading fun b _ => ?_
  exact keeps_warnShadowed _ _

/-- The scope of a module is opened. It is not a scope that the registry has, as the name has to be new. -/
theorem ensures_openModule (s₀ : Session MacroBody) (scope : String) (first : Value) (info : Info) :
    Ensures (fun b => s₀.KeepsScope x.registry scope b.compilation.session) (openModule o x first info)
      (fun name b => scope ≠ name ∧ (b.compilation.session.registry x.registry).owns name = true ∧
        s₀.KeepsScope x.registry scope b.compilation.session)
      (fun _ b => s₀.KeepsScope x.registry scope b.compilation.session ∧ True) := by
  refine Ensures.bind (R := fun _ b => s₀.KeepsScope x.registry scope b.compilation.session) ?_ fun name => ?_
  · exact .ofExcept (fun _ _ _ h => h) fun _ _ _ h => ⟨h, trivial⟩
  refine Ensures.bind
    (R := fun _ b => scope ≠ name ∧ s₀.KeepsScope x.registry scope b.compilation.session) ?_ fun _ => ?_
  · refine Ensures.reading fun b hb => ?_
    dsimp only
    split
    · exact .throw fun _ h => h ▸ ⟨hb, trivial⟩
    · rename_i hnew
      refine .pure fun _ h => h ▸ ⟨?_, hb⟩
      rintro rfl
      rw [hb.owns, Bool.true_or, Bool.true_or] at hnew
      exact hnew rfl
  refine Ensures.given fun hname => Ensures.reading fun b hb => ?_
  let J := fun s : Session MacroBody =>
    (s.registry x.registry).owns name = true ∧ s₀.KeepsScope x.registry scope s
  refine Ensures.bind (R := fun s b' => b' = b ∧ J s) ?_ fun s => ?_
  · refine .ofExcept (fun s hs b' hb' => ⟨hb', ?_, hb.openScope hname hs⟩) fun _ _ _ h => h ▸ ⟨hb, trivial⟩
    exact Session.owns_of_openScope (Session.lt_of_owns hb.owns) hs
  refine Ensures.bind (R := fun _ b' => J b'.compilation.session) ?_ fun _ => ?_
  · rintro _ ⟨rfl, hs⟩
    exact hs
  have hkept : ∀ {α : Type} {code : Build α}, Keeps J code → Ensures (fun b => J b.compilation.session) code
      (fun _ b => J b.compilation.session) (fun _ b => s₀.KeepsScope x.registry scope b.compilation.session ∧ True) :=
    fun h => Ensures.weaken h (fun _ hb => hb) (fun _ _ hb => hb) fun _ _ hb => ⟨hb.1.2, trivial⟩
  refine Ensures.bind (hkept (Ensures.modify fun _ h => h)) fun _ => ?_
  refine Ensures.bind (hkept (keeps_report o _)) fun _ => Ensures.bind (hkept (keeps_report o _)) fun _ => ?_
  exact .pure fun _ h => ⟨hname, h⟩

/-- A module is compiled. -/
theorem keeps_module (s₀ : Session MacroBody) (scope : String) (args : List Value) (info : Info) :
    Keeps (s₀.KeepsScope x.registry scope) (module o x args info) := by
  cases args with
  | nil => exact .throw trivial
  | cons first body =>
    rw [module_cons]
    refine Ensures.bind (ensures_openModule s₀ scope first info) fun name => Ensures.given fun hname => ?_
    let J := fun s : Session MacroBody =>
      (s.registry x.registry).owns name = true ∧ s₀.KeepsScope x.registry scope s
    have hforms : Keeps J (forms x (refuseModule name) name body) := by
      refine keeps_forms (fun _ h => h.1) (fun s m h => ⟨?_, h.2.withMacros [m]⟩) (fun _ _ => .throw trivial)
        (fun v c hc => ⟨?_, ?_⟩) body
      · rw [Session.owns_withMacros]
        exact h.1
      · exact (x.redeclares_expand name v c).owns_of_owns hc.1 hc.1
      · exact Expander.keepsScope_expand hname v hc.1 hc.2
    have hrest : Keeps J (forms x (refuseModule name) name body >>= loadModule o x name) :=
      .andThen hforms fun kept => keeps_loadModule name kept
    exact Ensures.weaken hrest (fun _ h => h) (fun _ _ h => h.2) fun _ _ h => ⟨h.1.2, trivial⟩

end Build

end MacroLang
