import MacroLang.Proofs.Code
import MacroLang.Proofs.Expansion.Recursion
import MacroLang.Proofs.Registry.Visibility
import MacroLang.Proofs.Tree.Shape

/-!
# Settled code

Code is settled in a scope (`Expander.Settled`) if no call in it means a macro there, it holds no form that expansion
replaces, and the module names of its remote calls and aliases went through the aliases already. Main statement:
`walk_settled`, expansion of settled code changes nothing and replaces no call, in every state whose registry sees the
macros that count for the code and has declarations for the scope (`Fits`). The aliases of that state are free: a
module name that is marked is never looked up among them again. An alias that was recorded comes back
settled (`settled_declare`).
-/

namespace MacroLang.Expander

variable {β : Type} {s : Session β} {r : Nat} {x : Expander β} {scope : String}

/-! ## Aliases -/

/-- An alias with these arguments gives the module a short name. -/
structure AliasArgs (info : Info) (args : List Value) (module : String) (short? : Option String) : Prop where
  count : args.length = 1 ∨ args.length = 2
  module : moduleName info (args.headD .nothing) = .ok module
  short : shortName info args = .ok short?

theorem moduleName_of_ok {info : Info} (info' : Info) {v : Value} {module : String}
    (h : moduleName info v = .ok module) : moduleName info' v = .ok module := by
  cases v with
  | atom name => exact h
  | text name =>
    rw [moduleName] at h ⊢
    split at h
    · cases h
    · rename_i hname
      rw [if_neg hname]
      exact h
  | _ => cases h

theorem shortName_of_ok {info : Info} (info' : Info) {v w : Value} {tail : List Value}
    {short? : Option String} (h : shortName info (v :: tail) = .ok short?) :
    shortName info' (w :: tail) = .ok short? := by
  match tail with
  | [] | _ :: _ :: _ => exact h
  | [short] =>
    rw [shortName] at h ⊢
    cases hshort : moduleName info short with
    | error e => rw [hshort] at h; cases h
    | ok name =>
      rw [hshort] at h
      rw [moduleName_of_ok info' hshort]
      exact h

/-- An alias that is marked gives the same short name to the full name of the module. -/
theorem AliasArgs.mark {info : Info} {args : List Value} {written : String} {short? : Option String}
    (h : AliasArgs info args written short?) (module : String) (info' : Info) :
    AliasArgs info' (.atom module :: args.tail) module short? := by
  obtain ⟨hcount, hmodule, hshort⟩ := h
  cases args with
  | nil => cases hmodule
  | cons v tail => exact ⟨hcount, rfl, shortName_of_ok info' hshort⟩

/-- Has the short name that stands for a module no dot in it? -/
def isDotless (module : String) (short? : Option String) : Bool :=
  !(short?.getD (lastSegment module)).toList.contains '.'

theorem addAlias_eq_ok {d d' : Declarations} {module : String} {short? previous : Option String}
    {ctx : Context} : d.addAlias module short? ctx = .ok (previous, d') ↔
      isDotless module short? = true ∧ previous = d.alias? (short?.getD (lastSegment module)) ctx ∧
        d' = { d with
          aliases := Declarations.putAlias ⟨short?.getD (lastSegment module), ctx, module⟩ d.aliases } := by
  simp only [Declarations.addAlias, isDotless]
  cases (short?.getD (lastSegment module)).toList.contains '.' with
  | true => simp
  | false => simp [eq_comm]

theorem isDotless_of_declareAlias {module : String} {short? : Option String} {ctx : Context}
    {c c' : Compilation β} {u : Unit} (h : x.declareAlias scope module short? ctx c = .ok u c') :
    isDotless module short? = true := by
  unfold declareAlias at h
  rw [get_bind, bind_eq_ok] at h
  obtain ⟨⟨_, _⟩, _, hadd, -⟩ := h
  exact (addAlias_eq_ok.1 (ofExcept_eq_ok.1 hadd).1).1

/-- An alias with a short name that has no dot is recorded; nothing but the aliases of the scope changes in the
session. -/
theorem declareAlias_of_isDotless (x : Expander β) (scope : String) {module : String} {short? : Option String}
    (h : isDotless module short? = true) (ctx : Context) (c : Compilation β) :
    ∃ aliases c', x.declareAlias scope module short? ctx c = .ok () c' ∧
      c'.session = c.session.withAliases x.registry scope aliases ∧ c'.expansions = c.expansions := by
  have hadd : (c.session.table x.registry scope).addAlias module short? ctx = .ok (_, _) :=
    addAlias_eq_ok.2 ⟨h, rfl, rfl⟩
  unfold declareAlias
  rw [get_bind]
  simp only [bind_apply, hadd]
  cases (c.session.table x.registry scope).alias? (short?.getD (lastSegment module)) ctx with
  | none => exact ⟨_, _, rfl, rfl, rfl⟩
  | some old =>
    change ∃ aliases c', (ite (old != module) _ _ : Expand β Unit) _ = _ ∧ _
    split
    · exact ⟨_, _, rfl, rfl, rfl⟩
    · exact ⟨_, _, rfl, rfl, rfl⟩

/-- The alias as it comes back: with the full name of its module, marked. -/
def markedAlias (module : String) (args : List Value) (info : Info) : Except Error Value :=
  if info.isResolved then .ok (.call "alias" args info)
  else do return .call "alias" ((← Value.buildAtom module info) :: args.tail) info.markResolved

theorem eq_of_buildAtom {name : String} {info : Info} {v : Value}
    (h : Value.buildAtom name info = .ok v) : v = .atom name := by
  unfold Value.buildAtom at h
  split at h
  · cases h
  · cases h; rfl

theorem checkDeclaration_alias {count : Nat} {info : Info} {u : Unit} :
    checkDeclaration "alias" count info = .ok u ↔ count = 1 ∨ count = 2 := by
  unfold checkDeclaration
  rw [if_pos (beq_self_eq_true "alias")]
  split
  · rename_i hcount
    simp [hcount]
  · rename_i hcount
    simp [hcount]

theorem ite_markedAlias (module : String) (args : List Value) (info : Info) :
    (if info.isResolved then pure (.call "alias" args info)
      else do
        let full ← ofExcept (Value.buildAtom module info)
        pure (.call "alias" (full :: args.tail) info.markResolved)) =
      (ofExcept (markedAlias module args info) : Expand β Value) := by
  unfold markedAlias
  split
  · rfl
  · cases Value.buildAtom module info with
    | ok full => rfl
    | error e => rfl

/-- The module that an alias is for: the one that it names, or what that name stands for. -/
def aliasModule (d : Declarations) (info : Info) (written : String) : String :=
  if info.isResolved then written else d.resolve written (info.context.getD .direct)

theorem declare_alias_eq_ok {args : List Value} {info : Info} {c c' : Compilation β} {v : Value} :
    x.declare scope "alias" args info c = .ok v c' ↔
      ∃ s written short?, c.session.openScope x.registry scope = .ok s ∧
        AliasArgs info args written short? ∧
        x.declareAlias scope (aliasModule (s.table x.registry scope) info written) short?
          (info.context.getD .direct) { c with session := s } = .ok () c' ∧
        markedAlias (aliasModule (s.table x.registry scope) info written) args info = .ok v := by
  constructor
  · intro h
    unfold declare at h
    rw [get_bind, bind_eq_ok] at h
    obtain ⟨s, c₂, hopen, h⟩ := h
    rw [bind_eq_ok] at h
    obtain ⟨_, c₃, hset, h⟩ := h
    rw [bind_eq_ok] at h
    obtain ⟨_, c₄, hcount, h⟩ := h
    rw [bind_eq_ok] at h
    obtain ⟨written, c₅, hwritten, h⟩ := h
    rw [get_bind] at h
    dsimp only at h
    rw [if_pos (beq_self_eq_true "alias"), bind_eq_ok] at h
    obtain ⟨short?, c₇, hshort, h⟩ := h
    rw [bind_eq_ok] at h
    obtain ⟨_, c₈, hdeclare, h⟩ := h
    rw [ofExcept_eq_ok] at hopen hcount hwritten hshort
    obtain ⟨hopen, rfl⟩ := hopen
    obtain ⟨hcount, rfl⟩ := hcount
    obtain ⟨hwritten, rfl⟩ := hwritten
    obtain ⟨hshort, rfl⟩ := hshort
    cases hset
    have hreturn := (congrFun (ite_markedAlias _ args info) c₈).symm.trans h
    obtain ⟨hmarked, rfl⟩ := ofExcept_eq_ok.1 hreturn
    exact ⟨s, written, short?, hopen, ⟨checkDeclaration_alias.1 hcount, hwritten, hshort⟩, hdeclare, hmarked⟩
  · rintro ⟨s, written, short?, hopen, hargs, hdeclare, hmarked⟩
    unfold declare
    have hcount : checkDeclaration "alias" args.length info = .ok () := checkDeclaration_alias.2 hargs.count
    refine bind_eq_ok.2 ⟨c, c, rfl, ?_⟩
    refine bind_eq_ok.2 ⟨s, c, ofExcept_eq_ok.2 ⟨hopen, rfl⟩, ?_⟩
    refine bind_eq_ok.2 ⟨(), { c with session := s }, rfl, ?_⟩
    refine bind_eq_ok.2 ⟨(), _, ofExcept_eq_ok.2 ⟨hcount, rfl⟩, ?_⟩
    refine bind_eq_ok.2 ⟨written, _, ofExcept_eq_ok.2 ⟨hargs.module, rfl⟩, ?_⟩
    refine bind_eq_ok.2 ⟨_, _, rfl, ?_⟩
    dsimp only
    rw [if_pos (beq_self_eq_true "alias")]
    refine bind_eq_ok.2 ⟨short?, _, ofExcept_eq_ok.2 ⟨hargs.short, rfl⟩, ?_⟩
    refine bind_eq_ok.2 ⟨(), c', hdeclare, ?_⟩
    exact (congrFun (ite_markedAlias _ args info) c').trans (ofExcept_eq_ok.2 ⟨hmarked, rfl⟩)

/-! ## Settled code -/

/-- Is a call of this name and arity, if it is no macro call, put together from its expanded arguments? -/
def isPlain (name : String) (arity : Nat) : Bool :=
  !(isSealed name || (name == "unquote" || name == "unquote_splicing") || name == "var!" ||
    (name == "__MODULE__" && arity == 0))

/-- Variables, atoms, numbers and texts. -/
def isLeaf : Value → Bool
  | .var .. | .atom _ | .number _ | .text _ => true
  | _ => false

/-- Code of a scope in which registry `r` sees no macro call, and in which every module name is written in full. -/
inductive Settled (s : Session β) (r : Nat) (scope : String) : Value → Prop
  | leaf {v : Value} : isLeaf v = true → Settled s r scope v
  | list {items : List Value} : (∀ v ∈ items, Settled s r scope v) → Settled s r scope (.list items)
  | tuple {items : List Value} : (∀ v ∈ items, Settled s r scope v) → Settled s r scope (.tuple items)
  | sealed {name : String} {args : List Value} {info : Info} : isSealed name = true →
      Settled s r scope (.call name args info)
  | call {name : String} {args : List Value} {info : Info} : isPlain name args.length = true →
      isDeclaration name = false →
      s.lookup r scope name args.length (info.context.getD .direct) none = none →
      (∀ v ∈ args, Settled s r scope v) → Settled s r scope (.call name args info)
  | declared {args : List Value} {info : Info} {module : String} {short? : Option String} :
      info.isResolved = true → AliasArgs info args module short? → isDotless module short? = true →
      (∀ v ∈ args, Settled s r scope v) → Settled s r scope (.call "alias" args info)
  | remote {head : Value} {args : List Value} {info : Info} {module function : String} :
      head.remote? = some (module, function) → head.isResolved = true →
      s.lookup r scope function args.length (info.context.getD .direct) (some module) = none →
      (∀ v ∈ args, Settled s r scope v) → Settled s r scope (.apply head args info)

/-- The expander's registry sees the macros that registry `r` saw, and the scope is open. -/
structure Fits (s : Session β) (r : Nat) (x : Expander β) (scope : String) (c : Compilation β) : Prop where
  same : s.SameMacros r c.session x.registry
  owns : (c.session.registry x.registry).owns scope = true

/-- In every state that fits, the code gives `a`, replaces no macro call, and the state fits again. -/
def Yields {α : Type} (s : Session β) (r : Nat) (x : Expander β) (scope : String)
    (code : Expand β α) (a : α) : Prop :=
  ∀ c, Fits s r x scope c →
    ∃ c', code c = .ok a c' ∧ Fits s r x scope c' ∧ c'.expansions = c.expansions

section

variable {onMacro : Macro β → List Value → Info → Expand β Expanded}

theorem Yields.pure {α : Type} (a : α) : Yields s r x scope (Pure.pure a) a :=
  fun c hc => ⟨c, rfl, hc, rfl⟩

theorem Yields.bind {α γ : Type} {code : Expand β α} {next : α → Expand β γ} {a : α} {b : γ}
    (h : Yields s r x scope code a) (hnext : Yields s r x scope (next a) b) :
    Yields s r x scope (code >>= next) b := by
  intro c hc
  obtain ⟨c₁, hcode, hfits, hcount⟩ := h c hc
  obtain ⟨c₂, hcode', hfits', hcount'⟩ := hnext c₁ hfits
  exact ⟨c₂, bind_eq_ok.2 ⟨a, c₁, hcode, hcode'⟩, hfits', hcount'.trans hcount⟩

/-- Values that expansion left as they are. -/
def unchanged (vs : List Value) : List Expanded :=
  vs.map (⟨·, false⟩)

@[simp] theorem value_unchanged (vs : List Value) : (unchanged vs).map (·.value) = vs := by
  simp [unchanged, Function.comp_def]

@[simp] theorem changed_unchanged (vs : List Value) : (unchanged vs).any (·.changed) = false := by
  simp [unchanged, Function.comp_def]

theorem walkAll_settled {vs : List Value}
    (h : ∀ v ∈ vs, Yields s r x scope (x.walk scope onMacro v) ⟨v, false⟩) :
    Yields s r x scope (x.walkAll scope onMacro vs) (unchanged vs) := by
  induction vs with
  | nil => exact .pure []
  | cons v vs ih =>
    rw [walkAll]
    refine (h v List.mem_cons_self).bind ?_
    exact (ih fun w hw => h w (List.mem_cons_of_mem v hw)).bind (.pure _)

theorem resolve_specialForm (x : Expander β) {name : String} (h : isSpecialForm name = true)
    (s : Session β) (scope : String) (args : List Value) (info : Info) :
    x.resolve s scope (.call name args info) = none := by
  rw [resolve]
  unfold Session.lookup
  rw [if_pos h]

/-- A call that is no macro call and stands for nothing else is put together from its arguments. -/
theorem walk_plain {name : String} {args : List Value} {info : Info} {c : Compilation β}
    (hplain : isPlain name args.length = true)
    (hlookup : x.resolve c.session scope (.call name args info) = none) :
    x.walk scope onMacro (.call name args info) c =
      (x.walkAll scope onMacro args >>= x.finishCall scope name info) c := by
  simp only [isPlain, Bool.not_eq_true', Bool.or_eq_false_iff] at hplain
  obtain ⟨⟨⟨hsealed, hunquote⟩, hvar⟩, hmodule⟩ := hplain
  have hmodule : (name == "__MODULE__" && args.isEmpty) = false := by
    cases args with
    | nil => exact hmodule
    | cons v vs => simp
  rw [walk, get_bind]
  simp only [hlookup, hsealed, hunquote.1, hunquote.2, hvar, hmodule, Bool.or_false, Bool.false_eq_true,
    if_false]

theorem declare_settled {args : List Value} {info : Info} {module : String} {short? : Option String}
    (hinfo : info.isResolved = true) (hargs : AliasArgs info args module short?)
    (hdot : isDotless module short? = true) :
    Yields s r x scope (x.declare scope "alias" args info) (.call "alias" args info) := by
  intro c hc
  obtain ⟨aliases, c', hdeclare, hsession, hcount⟩ :=
    declareAlias_of_isDotless x scope hdot (info.context.getD .direct) c
  have hmodule : aliasModule (c.session.table x.registry scope) info module = module := if_pos hinfo
  have hmarked : markedAlias module args info = .ok (.call "alias" args info) := if_pos hinfo
  refine ⟨c', declare_alias_eq_ok.2 ⟨c.session, module, short?, Session.openScope_of_owns hc.owns,
    hargs, ?_, ?_⟩, ⟨?_, ?_⟩, hcount⟩
  · rw [hmodule]; exact hdeclare
  · rw [hmodule]; exact hmarked
  · rw [hsession]
    exact hc.same.trans (Session.sameMacros_withAliases ..)
  · rw [hsession, Session.owns_withAliases]
    exact hc.owns

/-- An alias that was recorded is settled, and the macros are as before. -/
theorem settled_declare {args : List Value} {info : Info} {v : Value} {c c' : Compilation β}
    (hargs : ∀ w ∈ args, Settled s x.registry scope w)
    (h : x.declare scope "alias" args info c = .ok v c') :
    Settled s x.registry scope v ∧ c.session.SameMacros x.registry c'.session x.registry := by
  obtain ⟨s₁, written, short?, hopen, halias, hdeclare, hmarked⟩ := declare_alias_eq_ok.1 h
  have hdot := isDotless_of_declareAlias hdeclare
  constructor
  · unfold markedAlias at hmarked
    split at hmarked
    · rename_i hresolved
      cases hmarked
      rw [aliasModule, if_pos hresolved] at hdot
      exact .declared hresolved halias hdot hargs
    · rw [except_bind_eq_ok] at hmarked
      obtain ⟨full, hfull, hmarked⟩ := hmarked
      cases hmarked
      rw [eq_of_buildAtom hfull]
      refine .declared rfl (halias.mark ..) hdot fun w hw => ?_
      rcases List.mem_cons.1 hw with rfl | hw
      · exact .leaf rfl
      · exact hargs w (List.mem_of_mem_tail hw)
  · obtain ⟨aliases, c₁, hdeclare', hsession, -⟩ := declareAlias_of_isDotless x scope hdot
      (info.context.getD .direct) { c with session := s₁ }
    cases hdeclare.symm.trans hdeclare'
    rw [hsession]
    exact (Session.sameMacros_openScope hopen).trans (Session.sameMacros_withAliases ..)

/-- Expanding settled code changes nothing and replaces no macro call. -/
theorem walk_settled {v : Value} (h : Settled s r scope v) :
    Yields s r x scope (x.walk scope onMacro v) ⟨v, false⟩ := by
  induction h with
  | @leaf v hv =>
    cases v with
    | var | atom | number | text => exact .pure _
    | _ => cases hv
  | list _ ih =>
    rw [walk]
    refine (walkAll_settled ih).bind ?_
    simpa [finishList] using .pure _
  | tuple _ ih =>
    rw [walk]
    refine (walkAll_settled ih).bind ?_
    simpa [finishTuple] using .pure _
  | @sealed name args info hname =>
    intro c hc
    have hform : isSpecialForm name = true := by
      rw [isSealed, Bool.or_eq_true] at hname
      rcases hname with h | h
      · rw [eq_of_beq h]; rfl
      · rw [eq_of_beq h]; rfl
    have hlookup := resolve_specialForm x hform c.session scope args info
    refine ⟨c, ?_, hc, rfl⟩
    rw [walk, get_bind]
    simp only [hlookup, hname, if_true]
    rfl
  | @call name args info hplain hdecl hlookup _ ih =>
    intro c hc
    rw [walk_plain hplain ((hc.same.lookup_eq ..).trans hlookup)]
    refine (walkAll_settled ih).bind ?_ c hc
    simpa [finishCall, hdecl] using .pure _
  | @declared args info module short? hinfo hargs hdot _ ih =>
    intro c hc
    rw [walk_plain rfl (resolve_specialForm x rfl ..)]
    refine (walkAll_settled ih).bind ?_ c hc
    simp only [finishCall, value_unchanged, changed_unchanged, hinfo]
    rw [if_pos (show isDeclaration "alias" = true from rfl)]
    exact (declare_settled hinfo hargs hdot).bind (.pure _)
  | @remote head args info module function hhead hresolved hlookup _ ih =>
    intro c hc
    have hfull : x.expandHead c.session scope (info.context.getD .direct) head module function = .ok head :=
      if_pos hresolved
    have hresolve : x.resolve c.session scope (.apply head args info) = none := by
      simp only [resolve, hhead, hresolved, if_true]
      exact (hc.same.lookup_eq ..).trans hlookup
    have hwalk : x.walk scope onMacro (.apply head args info) c =
        (x.walkAll scope onMacro args >>= fun es => ofExcept (finishApply info ⟨head, false⟩ es)) c := by
      rw [walk, get_bind]
      simp only [hresolve, hhead, hfull, hresolved]
      rfl
    have hfinish : finishApply info ⟨head, false⟩ (unchanged args) = .ok ⟨.apply head args info, false⟩ := by
      obtain ⟨headInfo, rfl⟩ := Value.eq_of_remote? hhead
      simp only [finishApply, value_unchanged, changed_unchanged]
      rfl
    rw [hwalk]
    refine (walkAll_settled ih).bind ?_ c hc
    rw [hfinish]
    exact .pure _

end

end MacroLang.Expander
