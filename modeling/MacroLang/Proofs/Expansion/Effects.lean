import MacroLang.Expansion.WorkStack
import MacroLang.Proofs.Registry.Redeclaration
import MacroLang.Proofs.Tree.Closure

/-!
# What expansion changes

Putting a declaration together changes the declarations of the scope and nothing else (`Compilation.Declares`). It comes
back up to the standard of its arguments, and so is the error if it is refused (`Expander.makes_declare`). An invocation
of a macro is counted and does to the world what the body of the macro does (`Expander.ensures_invoke`).
-/

namespace MacroLang

variable {β : Type}

/-! ## Objections -/

namespace Standard

variable (S : Standard) {info : Info}

section

variable (hinfo : S.info info)

include hinfo

theorem gives_moduleName (v : Value) : S.Gives (fun _ => True) (moduleName info v) := by
  unfold moduleName
  split
  · trivial
  · split
    · exact routine_on hinfo rfl
    · trivial
  · exact routine_on hinfo rfl

theorem gives_shortName (args : List Value) : S.Gives (fun _ => True) (shortName info args) := by
  unfold shortName
  split
  · exact .map (S.gives_moduleName hinfo _) fun _ _ => trivial
  · trivial

theorem gives_checkDeclaration (form : String) (count : Nat) :
    S.Gives (fun _ => True) (Expander.checkDeclaration form count info) := by
  unfold Expander.checkDeclaration
  split
  · split
    · trivial
    · exact routine_on hinfo rfl
  · split
    · trivial
    · exact routine_on hinfo rfl

theorem gives_checkWritable (s : Session β) (r : Nat) (scope : String) :
    S.Gives (fun _ => True) (s.checkWritable r scope info) := by
  unfold Session.checkWritable
  dsimp only
  split
  · exact routine_on hinfo rfl
  split
  · exact routine_on hinfo rfl
  · trivial

end

theorem gives_addAlias (d : Declarations) (module : String) (short? : Option String) (c : Context) :
    S.Gives (fun p => p.2.scope = d.scope) (d.addAlias module short? c) := by
  unfold Declarations.addAlias
  dsimp only
  split
  · exact routine_on S.info_none rfl
  · rfl

theorem gives_openScope (s : Session β) (r : Nat) (scope : String) :
    S.Gives (s.Redeclares r scope) (s.openScope r scope) := by
  refine .of_raises ?_ fun _ => Session.redeclares_openScope
  unfold Session.openScope
  split
  · exact .ok s
  · exact .bind (S.gives_checkWritable S.info_none s r scope).raises fun _ => .ok _

theorem gives_addDependency (s : Session β) (r : Nat) (scope module : String) (c : Context) (imported : Bool) :
    S.Gives (s.Redeclares r scope) (s.addDependency r scope module c imported) :=
  .of_raises (.bind (S.gives_openScope s r scope).raises fun _ => .ok _) fun _ => Session.redeclares_addDependency

theorem gives_register (s : Session β) (r : Nat) {m : Macro β} (hinfo : S.info m.info) :
    S.Gives (fun s' => s' = s.update r (·.addMacro m)) (s.register r m) := by
  refine .refuseIf (routine_on hinfo rfl) ?_
  refine .bind (S.gives_checkWritable hinfo s r m.scope) fun _ _ => ?_
  exact .refuseIf (routine_on hinfo rfl) rfl

end Standard

/-! ## Declarations -/

/-- The compilation `c'` has the declarations of a scope of registry `r` in another state. Warnings and the log may
have grown. -/
structure Compilation.Declares (r : Nat) (scope : String) (c c' : Compilation β) : Prop where
  session : c.session.Redeclares r scope c'.session
  modules : c'.world.modules = c.world.modules
  expansions : c'.expansions = c.expansions

theorem Compilation.Declares.refl (r : Nat) (scope : String) (c : Compilation β) : c.Declares r scope c :=
  ⟨.refl .., rfl, rfl⟩

open Standard

variable {S : Standard}

namespace Expand

variable {r : Nat} {scope : String} {c₀ : Compilation β} {α : Type} {Q : α → Prop}

/-- What declarations keep, code that makes declarations only keeps. -/
theorem makes_of_declares {I : Compilation β → Prop} (hI : ∀ c c', I c → c.Declares r scope c' → I c')
    {code : Expand β α} (h : ∀ c : Compilation β, S.Makes (c.Declares r scope) Q code) : S.Makes I Q code :=
  fun c hc => (h c).weaken (fun _ hs => hs) (fun _ _ hs => ⟨hs.1, hI _ _ hc hs.2⟩)
    (fun _ _ hs => ⟨hI _ _ hc hs.1, hs.2⟩) c (.refl ..)

theorem makes_warn (notice : Notice) (w : Warning) :
    S.Makes (c₀.Declares r scope) (fun _ => True) (warn notice w) :=
  .modify fun _ h => ⟨h.session, h.modules, h.expansions⟩

theorem makes_debug (text : String) :
    S.Makes (c₀.Declares r scope) (fun _ => True) (modify (·.debug text) : Expand β PUnit) :=
  .modify fun _ h => ⟨h.session, h.modules, h.expansions⟩

/-- A change of the session that may be refused. -/
theorem makes_redeclare {f : Session β → Except Error (Session β)} {next : Expand β α}
    (hf : ∀ s, S.Gives (s.Redeclares r scope) (f s)) (hnext : S.Makes (c₀.Declares r scope) Q next) :
    S.Makes (c₀.Declares r scope) Q (do
      setSession (← ofExcept (f (← get).session))
      next) := by
  intro c hc
  have hs := hf c.session
  rw [get_bind]
  cases hcode : f c.session with
  | error e => rw [hcode] at hs; exact ⟨hc, hs⟩
  | ok s => rw [hcode] at hs; exact hnext _ ⟨hc.session.trans hs, hc.modules, hc.expansions⟩

theorem makes_addDependency (module : String) (ctx : Context) (imported : Bool) :
    S.Makes (c₀.Declares r scope) (fun _ => True) (addDependency r scope module ctx imported) :=
  makes_redeclare (fun s => S.gives_addDependency s r scope module ctx imported) (makes_debug _)

end Expand

namespace Expander

variable {x : Expander β} {scope : String} {c₀ : Compilation β} {info : Info}

theorem makes_declareAlias (module : String) (short? : Option String) (ctx : Context) :
    S.Makes (c₀.Declares x.registry scope) (fun _ => True) (x.declareAlias scope module short? ctx) := by
  refine Ensures.reading fun c hc => ?_
  refine Ensures.bind (R := fun p c' => c' = c ∧ p.2.scope = scope) ?_ fun ⟨previous, table⟩ => ?_
  · have hadd := S.gives_addAlias (c.session.table x.registry scope) module short? ctx
    refine .ofExcept (fun p hok c' hc' => ⟨hc', ?_⟩) fun e herror c' hc' => hc' ▸ ⟨hc, hadd.raises e herror⟩
    exact (hadd.of_ok hok).trans (Session.scope_table ..)
  · refine Ensures.bind (R := fun _ => c₀.Declares x.registry scope) (.modify ?_) fun _ => ?_
    · rintro _ ⟨rfl, htable⟩
      exact ⟨hc.session.trans (Session.redeclares_putTable _ htable), hc.modules, hc.expansions⟩
    · cases previous with
      | none => exact Expand.makes_debug _
      | some old =>
        dsimp only
        split
        · exact Delivers.bind (Expand.makes_warn _ _) fun _ _ => Expand.makes_debug _
        · exact Expand.makes_debug _

theorem makes_declare (form : String) {args : List Value} (hargs : ∀ v ∈ args, S.value v) (hinfo : S.info info) :
    S.Makes (c₀.Declares x.registry scope) S.value (x.declare scope form args info) := by
  refine Expand.makes_redeclare (fun s => S.gives_openScope s x.registry scope) ?_
  refine .bind (.ofExcept (S.gives_checkDeclaration hinfo form _)) fun _ _ => ?_
  refine .bind (.ofExcept (S.gives_moduleName hinfo _)) fun written _ => .reading fun c _ => ?_
  have hlast : ∀ module, S.Makes (c₀.Declares x.registry scope) S.value (if info.isResolved then
        pure (Value.call form args info)
      else do
        let full ← ofExcept (Value.buildAtom module info)
        pure (Value.call form (full :: args.tail) info.markResolved)) := by
    intro module
    split
    · exact .pure (value_call.2 ⟨hinfo, hargs⟩)
    · refine .bind (.ofExcept (S.gives_buildAtom hinfo module)) fun full hfull => .pure ?_
      refine value_call.2 ⟨info_markResolved hinfo, List.forall_mem_cons.2 ⟨hfull, fun v hv => ?_⟩⟩
      exact hargs v (List.mem_of_mem_tail hv)
  dsimp only
  split
  · refine .bind (.ofExcept (S.gives_shortName hinfo args)) fun short? _ => ?_
    exact .bind (makes_declareAlias _ _ _) fun _ _ => hlast _
  · exact .bind (Expand.makes_addDependency _ _ _) fun _ _ => hlast _

/-! ## Putting values together -/

theorem value_values {es : List Expanded} (h : ∀ e ∈ es, S.value e.value) : ∀ v ∈ es.map (·.value), S.value v :=
  List.forall_mem_map.2 h

theorem makes_finishCall (name : String) (hinfo : S.info info) {args : List Expanded}
    (h : ∀ e ∈ args, S.value e.value) :
    S.Makes (c₀.Declares x.registry scope) (S.value ·.value) (x.finishCall scope name info args) := by
  unfold finishCall
  dsimp only
  split
  · exact .bind (makes_declare name (value_values h) hinfo) fun v hv => .pure hv
  · exact .pure (value_call.2 ⟨hinfo, value_values h⟩)

theorem gives_finishApply (hinfo : S.info info) {head : Expanded} (hhead : S.value head.value) {args : List Expanded}
    (h : ∀ e ∈ args, S.value e.value) : S.Gives (S.value ·.value) (finishApply info head args) :=
  .bind (S.gives_checkHead hinfo head.value) fun _ _ => value_withHead hhead (value_values h) hinfo

theorem gives_finishTuple {items : List Expanded} (hlength : S.strict → items.length = 2)
    (h : ∀ e ∈ items, S.value e.value) : S.Gives (S.value ·.value) (finishTuple items) := by
  unfold finishTuple
  split
  · split
    · exact value_pair.2 ⟨h _ (by simp), h _ (by simp)⟩
    · exact S.unlocated rfl
  · exact value_tuple.2 ⟨fun hs => (List.length_map _).trans (hlength hs), value_values h⟩

theorem gives_expandHead (s : Session β) (ctx : Context) {head : Value} (hhead : S.value head)
    (module function : String) : S.Gives S.value (x.expandHead s scope ctx head module function) := by
  unfold expandHead
  split
  · exact hhead
  · exact S.gives_buildRemote (info_markResolved (info_infoD hhead)) _ _

/-! ## Invocations -/

/-- An invocation is counted, and otherwise it does to the world what the macro does. -/
theorem ensures_invoke {J : World → Prop} {raises : Error → Prop} {m : Macro β} {args : List Value} (info : Info)
    {c : Compilation β} (hcommon : ∀ e, e.isCommon = true → raises e)
    (hrun : Maintains J raises (x.run c.session m.body args)) (hJ : ∀ text, J (c.world.debug text)) :
    Ensures (· = c) (x.invoke m args info)
      (fun _ c' => (c'.session = c.session ∧ c'.expansions = c.expansions + 1) ∧ J c'.world)
      (fun e c' => ((c'.session = c.session ∧ c'.expansions = c.expansions + 1) ∧ J c'.world) ∧ raises e) := by
  let I := fun c' : Compilation β => (c'.session = c.session ∧ c'.expansions = c.expansions + 1) ∧ J c'.world
  refine Ensures.bind (R := fun _ => I) (Ensures.modify fun _ hc => ?_) fun _ => ?_
  · cases hc
    exact ⟨⟨rfl, rfl⟩, hJ _⟩
  refine Maintains.reading fun c₁ hc₁ => ?_
  refine Maintains.andThen (I := I) ?_ fun result => ?_
  · intro c' hc'
    have hworld := hrun c'.world hc'.2
    rw [hc₁.1.1]
    unfold Expand.onWorld
    cases hcode : x.run c.session m.body args c'.world with
    | ok v w => rw [hcode] at hworld; exact ⟨hc'.1, hworld⟩
    | error e w => rw [hcode] at hworld; exact ⟨⟨hc'.1, hworld.1⟩, hworld.2⟩
  · have hvalid := Standard.common.gives_validate result trivial
    split
    · exact .pure _
    · exact .throw (hcommon _ rfl)
    · exact .throw (hcommon _ (hvalid.raises _ (by assumption)))

/-- Whether or not it fails, an invocation leaves the session alone. -/
theorem session_invoke (x : Expander β) (m : Macro β) (args : List Value) (info : Info) (c : Compilation β) :
    (finalState (x.invoke m args info c)).session = c.session := by
  have hinvoke := ensures_invoke (x := x) info (fun _ _ => trivial)
    (Maintains.trivial (x.run c.session m.body args)) (fun _ => trivial) c rfl
  cases hcode : x.invoke m args info c with
  | ok v c' => rw [hcode] at hinvoke; exact hinvoke.1.1
  | error e c' => rw [hcode] at hinvoke; exact hinvoke.1.1.1

end Expander

end MacroLang
