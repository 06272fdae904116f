import MacroLang.Proofs.Build.Scopes
import MacroLang.Proofs.Expansion.Inert

/-!
# Definitions and expansions in either order

Forms that come out of an expansion are dealt with: macros are registered and modules compiled. Others may be expanded
before or after that, and in general it makes a difference. It makes none (`Build.Interchange`)

* if the definitions are macros and the code that is expanded calls none of them (`Build.interchange_of_uncalled`);
* if the code that is expanded neither declares anything nor calls a macro (`Build.interchange_of_inert`).
-/

namespace MacroLang

/-- The name and the number of parameters of the macro that a form defines. -/
def Value.definedMacro? : Value → Option (String × Nat)
  | call form args info =>
    if form == "defmacro" || form == "defmacrop" then
      (Definition.ofForm form args info).toOption.map fun d => (d.name, d.params.length)
    else none
  | _ => none

/-! ## Registration after other declarations -/

namespace Session

variable {β : Type} {s s' : Session β} {r : Nat} {scope : String}

theorem Redeclares.withMacros (h : s.Redeclares r scope s') (more : List (Macro β)) :
    (s.withMacros r more).Redeclares r scope (s'.withMacros r more) := by
  rcases Nat.lt_or_ge r s.registries.length with hr | hr
  · have hr' : r < s'.registries.length := h.count ▸ hr
    refine ⟨h.published, ?_, fun q hq => ?_, ?_⟩
    · simp [Session.withMacros, update, h.count]
    · rw [Session.withMacros, Session.withMacros, registry_update_of_ne _ _ (Ne.symm hq),
        registry_update_of_ne _ _ (Ne.symm hq)]
      exact h.others q hq
    · rw [Session.withMacros, Session.withMacros, registry_update_self _ _ _ hr, registry_update_self _ _ _ hr']
      obtain ⟨hunit, hin, hfrozen, hmacros, hunshared, hscopes⟩ := h.registry
      exact ⟨hunit, hin, hfrozen, congrArg (· ++ more) hmacros, hunshared, hscopes⟩
  · have hr' : s'.registries.length ≤ r := h.count ▸ hr
    rw [Session.withMacros, Session.withMacros, update_of_le _ _ hr, update_of_le _ _ hr']
    exact h

theorem Redeclares.checkWritable_eq (h : s.Redeclares r scope s') (other : String) (info : Info) :
    s'.checkWritable r other info = s.checkWritable r other info := by
  have hpublished : s'.isPublished other = s.isPublished other := by
    rw [isPublished, publisher?, h.published, isPublished, publisher?]
  simp only [checkWritable, h.registry.frozen, h.registry.unit, h.registry.inSession, hpublished]

/-- A macro is registered as if nothing had been declared in the meantime. -/
theorem Redeclares.register_eq (h : s.Redeclares r scope s') (howns : (s.registry r).owns scope = true) {m : Macro β}
    (hm : m.scope = scope) : s'.register r m = (s.register r m).map fun _ => s'.withMacros r [m] := by
  have hadd : s'.update r (·.addMacro m) = s'.withMacros r [m] :=
    update_congr (Registry.withTable_of_owns (hm ▸ h.registry.owns howns))
  have hsame : (s'.registry r).macro? m.scope m.name m.arity = (s.registry r).macro? m.scope m.name m.arity := by
    rw [Registry.macro?, h.registry.macros, Registry.macro?]
  simp only [register, h.checkWritable_eq, hsame, hadd]
  split
  · rfl
  · cases s.checkWritable r m.scope m.info with
    | error e => rfl
    | ok u =>
      show (if _ then _ else _) = Except.map _ (if _ then _ else _)
      split
      · rfl
      · rfl

end Session

/-- The state `b'` is `b` with more macros in registry `r`, another log and other warnings. -/
def Building.Ahead (r : Nat) (more : List (Macro MacroBody)) (b b' : Building) : Prop :=
  ∃ c, b.compilation.Ahead r more c ∧ b' = { b with compilation := c }

namespace Building.Ahead

variable {r : Nat} {more : List (Macro MacroBody)} {b b' b'' : Building}

theorem refl (r : Nat) (b : Building) : b.Ahead r [] b :=
  ⟨b.compilation, (Compilation.ahead_nil r).2 (.refl _), rfl⟩

theorem unique (h : b.Ahead r more b') (h' : b.Ahead r more b'') : b'.Alike b'' := by
  obtain ⟨c, hc, rfl⟩ := h
  obtain ⟨c', hc', rfl⟩ := h'
  exact ⟨c', hc.unique hc', rfl⟩

theorem session (h : b.Ahead r more b') :
    b'.compilation.session = b.compilation.session.withMacros r more := by
  obtain ⟨c, ⟨log, warnings, rfl⟩, rfl⟩ := h
  rfl

/-- One more macro is registered. -/
theorem concat (h : b.Ahead r more b') (m : Macro MacroBody) (text : String) :
    b.Ahead r (more ++ [m]) { b' with compilation :=
      { b'.compilation with session := b'.compilation.session.withMacros r [m] }.debug text } := by
  obtain ⟨c, ⟨log, warnings, rfl⟩, rfl⟩ := h
  refine ⟨_, ⟨log.debug text, warnings, ?_⟩, rfl⟩
  rw [← Session.withMacros_withMacros]
  rfl

end Building.Ahead

namespace Build

variable {x : Expander MacroBody} {onModule : List Value → Info → Build Unit} {scope : String} {ds fs : List Value}
  {b₀ b₁ : Building} {r : Nat}

/-- The states `b` and `b'` have gone on from `b₀` and `b₁` by the same macros, all of them with keys among `keys`. -/
def GoOn (keys : String × Nat → Prop) (r : Nat) (b₀ b₁ b b' : Building) : Prop :=
  ∃ more, (∀ m ∈ more, keys (m.name, m.arity)) ∧ b₀.Ahead r more b ∧ b₁.Ahead r more b'

variable {keys : String × Nat → Prop}

/-- The definition of a macro has the same outcome after other declarations have been made in its scope. -/
theorem goOn_defineMacro (h : b₀.compilation.session.Redeclares r scope b₁.compilation.session)
    (howns : (b₀.compilation.session.registry r).owns scope = true) {form : String} {args : List Value} {info : Info}
    (hkey : ∀ d, Definition.ofForm form args info = .ok d → keys (d.name, d.params.length)) :
    Concurs (GoOn keys r b₀ b₁) (defineMacro r scope form args info) := by
  rintro b b' ⟨more, hmore, hb, hb'⟩
  have hs := h.withMacros more
  have hscope : ((b₀.compilation.session.withMacros r more).registry r).owns scope = true := by
    rw [Session.owns_withMacros]
    exact howns
  rw [← hb.session, ← hb'.session] at hs
  rw [← hb.session] at hscope
  rw [defineMacro_of_owns hscope, defineMacro_of_owns (hs.registry.owns hscope)]
  cases hd : Definition.ofForm form args info with
  | error e => exact .error ⟨more, hmore, hb, hb'⟩
  | ok d =>
    have hregister := Session.Redeclares.register_eq (.refl r scope b.compilation.session) hscope
      (m := scopeMacro r scope form info d) rfl
    have hregister' := hs.register_eq hscope (m := scopeMacro r scope form info d) rfl
    rw [ofExcept_ok, pure_bind, lift, lift, Expand.register_apply, Expand.register_apply, hregister']
    generalize b.compilation.session.register r (scopeMacro r scope form info d) = outcome at hregister
    cases outcome with
    | error e => exact .error ⟨more, hmore, hb, hb'⟩
    | ok s =>
      have hadded : s = b.compilation.session.withMacros r [scopeMacro r scope form info d] := Except.ok.inj hregister
      subst hadded
      refine .ok ⟨more ++ [scopeMacro r scope form info d], ?_, hb.concat _ _, hb'.concat _ _⟩
      refine List.forall_mem_append.2 ⟨hmore, List.forall_mem_singleton.2 ?_⟩
      have harity : (scopeMacro r scope form info d).arity = d.params.length := List.length_map _
      rw [harity]
      exact hkey d hd

/-- All forms that came out of an expansion are dealt with in the same way, if modules are refused. -/
theorem goOn_items (h : b₀.compilation.session.Redeclares r scope b₁.compilation.session)
    (howns : (b₀.compilation.session.registry r).owns scope = true)
    (hmodules : ∀ args info, .call "defmodule" args info ∈ ds → ∃ e, onModule args info = throw e)
    (hkeys : ∀ d ∈ ds, ∀ key ∈ d.definedMacro?, keys key) :
    Concurs (GoOn keys r b₀ b₁) (items r onModule scope ds) := by
  induction ds with
  | nil => exact .pure _
  | cons d ds ih =>
    rw [List.forall_mem_cons] at hkeys
    have hitem : Concurs (GoOn keys r b₀ b₁) (item r onModule scope d) := by
      have hdefine : ∀ form args info, d = .call form args info → (form = "defmacro" ∨ form = "defmacrop") →
          Concurs (GoOn keys r b₀ b₁) (defineMacro r scope form args info) := by
        rintro form args info rfl hform
        refine goOn_defineMacro h howns fun d hd => hkeys.1 _ ?_
        have hdefines : (form == "defmacro" || form == "defmacrop") = true := by simpa using hform
        rw [Value.definedMacro?, if_pos hdefines, hd]
        rfl
      unfold item
      split
      · rename_i args info
        obtain ⟨e, he⟩ := hmodules args info List.mem_cons_self
        rw [he]
        exact .andThen (.throw e) fun _ => .pure _
      · exact .andThen (hdefine _ _ _ rfl (.inl rfl)) fun _ => .pure _
      · exact .andThen (hdefine _ _ _ rfl (.inr rfl)) fun _ => .pure _
      · exact .pure _
    refine .andThen hitem fun _ => .andThen (ih ?_ hkeys.2) fun _ => .pure _
    exact fun args info hmem => hmodules args info (List.mem_cons_of_mem _ hmem)

/-! ## Either order -/

/-- The forms `ds` may be dealt with before or after the forms `fs` are expanded. If both go well, the outcome is the
same in either order. If the forms `fs` can be expanded, then `ds` are refused with the same error in either order; if
they cannot, then they fail with the same error afterwards. -/
structure Interchange (x : Expander MacroBody) (onModule : List Value → Info → Build Unit) (scope : String)
    (ds fs : List Value) (b : Building) : Prop where
  commute : ∀ {vs b₁ kept b₂}, lift (x.expandAll scope fs) b = .ok vs b₁ →
    items x.registry onModule scope ds b = .ok kept b₂ →
    ∃ b₁' b₂', items x.registry onModule scope ds b₁ = .ok kept b₁' ∧ lift (x.expandAll scope fs) b₂ = .ok vs b₂' ∧
      b₁'.Alike b₂'
  refused : ∀ {vs b₁ e b₂}, lift (x.expandAll scope fs) b = .ok vs b₁ →
    items x.registry onModule scope ds b = .error e b₂ → ∃ b₁', items x.registry onModule scope ds b₁ = .error e b₁'
  stuck : ∀ {e b₁ kept b₂}, lift (x.expandAll scope fs) b = .error e b₁ →
    items x.registry onModule scope ds b = .ok kept b₂ → ∃ b₂', lift (x.expandAll scope fs) b₂ = .error e b₂'

theorem redeclares_of_lift {α : Type} {code : Compile α} {r : Nat} {b b' : Building} {a : α}
    (hcode : b.compilation.session.Redeclares r scope (finalState (code b.compilation)).session)
    (h : lift code b = .ok a b') : b.compilation.session.Redeclares r scope b'.compilation.session := by
  unfold lift at h
  cases hrun : code b.compilation with
  | ok a' c =>
    rw [hrun] at h hcode
    cases h
    exact hcode
  | error e c =>
    rw [hrun] at h
    cases h

/-- Macros are defined, and none of them is called where the other forms are expanded. -/
theorem interchange_of_uncalled (hx : x.Oblivious)
    (howns : (b₀.compilation.session.registry x.registry).owns scope = true)
    (hmodules : ∀ args info, .call "defmodule" args info ∈ ds → ∃ e, onModule args info = throw e)
    (huncalled : ∀ w ∈ x.visitedAll scope fs b₀.compilation, ∀ d ∈ ds, ∀ key ∈ d.definedMacro?, w.called? ≠ some key) :
    Interchange x onModule scope ds fs b₀ := by
  let keys := fun key => ∃ d ∈ ds, d.definedMacro? = some key
  -- the second run deals with the forms after other declarations have been made
  have hitems : ∀ {b₁}, b₀.compilation.session.Redeclares x.registry scope b₁.compilation.session →
      Concur (GoOn keys x.registry b₀ b₁) (items x.registry onModule scope ds b₀)
        (items x.registry onModule scope ds b₁) := by
    intro b₁ hredeclares
    exact goOn_items hredeclares howns hmodules (fun d hd key hkey => ⟨d, hd, hkey⟩) ⟨[], nofun, .refl .., .refl ..⟩
  have hredeclares : ∀ {vs b₁}, lift (x.expandAll scope fs) b₀ = .ok vs b₁ →
      b₀.compilation.session.Redeclares x.registry scope b₁.compilation.session :=
    redeclares_of_lift (x.redeclares_expandAll scope fs b₀.compilation)
  -- the second run expands the forms when the macros are there
  have hexpandAll : ∀ {more b₂}, (∀ m ∈ more, keys (m.name, m.arity)) → b₀.Ahead x.registry more b₂ →
      Concur (Building.Ahead x.registry more) (lift (x.expandAll scope fs) b₀) (lift (x.expandAll scope fs) b₂) := by
    rintro more _ hmore ⟨c, hc, rfl⟩
    refine concur_lift (Expander.concur_expandAll hx (fun w hw m hm => ?_) hc) fun c₁ c₁' hc₁ => ⟨c₁', hc₁, rfl⟩
    obtain ⟨d, hd, hkey⟩ := hmore m hm
    exact huncalled w hw d hd _ hkey
  constructor
  case commute =>
    intro vs b₁ kept b₂ hexpand hkept
    obtain ⟨b₁', hkept', more, hmore, hb₂, hb₁'⟩ := (hitems (hredeclares hexpand)).of_ok hkept
    obtain ⟨b₂', hexpand', hb₂'⟩ := (hexpandAll hmore hb₂).of_ok hexpand
    exact ⟨b₁', b₂', hkept', hexpand', hb₁'.unique hb₂'⟩
  case refused =>
    intro vs b₁ e b₂ hexpand hrefused
    obtain ⟨b₁', hrefused', -⟩ := (hitems (hredeclares hexpand)).of_error hrefused
    exact ⟨b₁', hrefused'⟩
  case stuck =>
    intro e b₁ kept b₂ hexpand hkept
    obtain ⟨-, -, more, hmore, hb₂, -⟩ := (hitems (.refl ..)).of_ok hkept
    obtain ⟨b₂', hexpand', -⟩ := (hexpandAll hmore hb₂).of_error hexpand
    exact ⟨b₂', hexpand'⟩

/-- The other forms neither declare anything nor call a macro, be it before or after the forms are dealt with. -/
theorem interchange_of_inert (howns : (b₀.compilation.session.registry x.registry).owns scope = true)
    (hmodule : ∀ args info, Keeps (b₀.compilation.session.KeepsScope x.registry scope) (onModule args info))
    (hinert : ∀ w ∈ x.visitedAll scope fs b₀.compilation,
      x.Inert scope b₀.compilation.session b₀.compilation.session w ∧
        ∀ kept b₂, items x.registry onModule scope ds b₀ = .ok kept b₂ →
          x.resolve b₂.compilation.session scope w = none) :
    Interchange x onModule scope ds fs b₀ := by
  have hhere : Concur (fun b b' => b₀ = b ∧ b₀ = b') (lift (x.expandAll scope fs) b₀)
      (lift (x.expandAll scope fs) b₀) := by
    refine concur_lift (Expander.concur_expandAll_of_inert (fun _ _ => rfl) fun w hw => (hinert w hw).1) ?_
    rintro _ _ ⟨rfl, rfl⟩
    exact ⟨rfl, rfl⟩
  -- dealing with the forms leaves the declarations of the scope alone
  have hthere : ∀ {kept b₂}, items x.registry onModule scope ds b₀ = .ok kept b₂ →
      Concur (fun b b' => b₀ = b ∧ b₂ = b') (lift (x.expandAll scope fs) b₀) (lift (x.expandAll scope fs) b₂) := by
    intro kept b₂ hkept
    have hkeeps : b₀.compilation.session.KeepsScope x.registry scope b₂.compilation.session :=
      (keeps_items (fun _ h => h.owns) (fun _ m h => h.withMacros [m]) hmodule ds).of_ok (.refl howns) hkept
    refine concur_lift (Expander.concur_expandAll_of_inert (fun module ctx => ?_) fun w hw => ?_) ?_
    · rw [Session.resolveAlias_eq_declaredTo, hkeeps.declared, Session.resolveAlias_eq_declaredTo]
    · obtain ⟨hbefore, hafter⟩ := hinert w hw
      exact ⟨hbefore.declares, hbefore.before, hafter kept b₂ hkept⟩
    · rintro _ _ ⟨rfl, rfl⟩
      exact ⟨rfl, rfl⟩
  constructor
  case commute =>
    intro vs b₁ kept b₂ hexpand hkept
    obtain ⟨b₂', hexpand', rfl, rfl⟩ := (hthere hkept).of_ok hexpand
    exact ⟨b₂, b₂, hkept, hexpand', .refl b₂⟩
  case refused =>
    intro vs b₁ e b₂ hexpand hrefused
    obtain ⟨-, -, rfl, -⟩ := hhere.of_ok hexpand
    exact ⟨b₂, hrefused⟩
  case stuck =>
    intro e b₁ kept b₂ hexpand hkept
    obtain ⟨b₂', hexpand', -⟩ := (hthere hkept).of_error hexpand
    exact ⟨b₂', hexpand'⟩

end Build

end MacroLang
