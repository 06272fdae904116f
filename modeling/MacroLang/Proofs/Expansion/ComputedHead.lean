import MacroLang.Proofs.Code
import MacroLang.Proofs.Expansion.Recursion

/-!
# Calls with a computed head

The head of a call may be code of its own, which is expanded before the call is known. Macros are looked up before that
and not again afterwards, so the expanded head can make the call one that the expander would have had to deal with:

* `isOutstanding_computed_iff`: this happens exactly if the expanded head is the name of a macro or of a form that the
  expander handles, or names a macro of a module;
* `computed_macro_call_is_left`: it does happen.
-/

namespace MacroLang.Expander

variable {β : Type}

/-- The forms that the expander replaces, refuses or records. -/
def isHandled (name : String) : Bool :=
  name == "unquote" || name == "unquote_splicing" || name == "var!" || isDeclaration name

/-- Is this a call that the expander has to deal with, of a macro or of a form that it handles? -/
def isOutstanding (x : Expander β) (s : Session β) (scope : String) (v : Value) : Bool :=
  (x.resolve s scope v).isSome || v.callName?.any isHandled

section

variable {x : Expander β} {scope : String} {head : Value} {args : List Value} {info : Info}

/-- Within every number of replacements, expansion is a walk down the tree. -/
theorem exists_walk (x : Expander β) (scope : String) (budget : Nat) :
    ∃ onMacro, ∀ v, x.expandWithin scope budget v = x.walk scope onMacro v := by
  cases budget with
  | zero => exact ⟨_, fun _ => rfl⟩
  | succ budget => exact ⟨_, fun _ => rfl⟩

theorem resolve_computed (h : head.remote? = none) (s : Session β) :
    x.resolve s scope (.apply head args info) = none := by
  simp only [resolve, h]
  rfl

theorem walk_computed {onMacro : Macro β → List Value → Info → Expand β Expanded}
    (h : head.remote? = none) :
    x.walk scope onMacro (.apply head args info) = (do
      let head ← x.walk scope onMacro head
      let args ← x.walkAll scope onMacro args
      ofExcept (finishApply info head args)) := by
  funext c
  rw [walk, get_bind]
  simp only [resolve_computed h, h]

/-- A call with a computed head is put together from its expanded head and as many arguments as it had. -/
theorem eq_withHead_of_expandFrom {depth : Int} {c c' : Compilation β} {u : Value} (h : head.remote? = none)
    (hrun : x.expandFrom depth scope (.apply head args info) c = .ok u c') :
    ∃ full values c₁, x.expandFrom depth scope head c = .ok full c₁ ∧ values.length = args.length ∧
      u = Value.withHead full values info := by
  obtain ⟨onMacro, hwalk⟩ := exists_walk x scope (x.maxDepth - depth).toNat
  simp only [expandFrom_eq_expandWithin, map_eq_pure_bind, hwalk] at hrun ⊢
  rw [walk_computed h, bind_eq_ok] at hrun
  obtain ⟨e, c₂, happly, hrun⟩ := hrun
  cases hrun
  rw [bind_eq_ok] at happly
  obtain ⟨full, c₁, hhead, happly⟩ := happly
  rw [bind_eq_ok] at happly
  obtain ⟨es, c₃, hargs, happly⟩ := happly
  obtain ⟨hfinish, rfl⟩ := ofExcept_eq_ok.1 happly
  rw [finishApply, except_bind_eq_ok] at hfinish
  obtain ⟨_, -, hfinish⟩ := hfinish
  cases hfinish
  refine ⟨full.value, es.map (·.value), c₁, bind_eq_ok.2 ⟨full, c₁, hhead, rfl⟩, ?_, rfl⟩
  rw [List.length_map, length_of_walkAll hargs]

theorem isOutstanding_call {s : Session β} {name : String} :
    x.isOutstanding s scope (.call name args info) = true ↔ isHandled name = true ∨
      (s.lookup x.registry scope name args.length (info.context.getD .direct) none).isSome = true := by
  rw [isOutstanding, Bool.or_eq_true, or_comm]
  rfl

theorem isOutstanding_apply {s : Session β} :
    x.isOutstanding s scope (.apply head args info) = true ↔
      ∃ module function, head.remote? = some (module, function) ∧
        (s.lookup x.registry scope function args.length (info.context.getD .direct) (some
          (if head.isResolved then module
            else s.resolveAlias x.registry scope module (info.context.getD .direct)))).isSome = true := by
  rw [isOutstanding, Bool.or_eq_true]
  cases hremote : head.remote? with
  | none => simp [resolve_computed hremote, Value.callName?]
  | some remote =>
    obtain ⟨module, function⟩ := remote
    have hname : ¬ (Value.apply head args info).callName?.any isHandled = true := Bool.false_ne_true
    rw [or_iff_left hname]
    simp only [resolve, hremote]
    constructor
    · intro h
      exact ⟨module, function, rfl, h⟩
    · rintro ⟨_, _, ⟨⟩, h⟩
      exact h

end

/-- What becomes of a call with a computed head is a call that the expander would have had to deal with exactly if the
expanded head is the name of a macro that the scope sees or of a form that the expander handles, or if it names a macro
of a module that the scope may use. -/
theorem isOutstanding_computed_iff (x : Expander β) (depth : Int) (scope : String) (head : Value)
    (args : List Value) (info : Info) (u : Value) (c c' : Compilation β) (hhead : head.remote? = none)
    (hrun : x.expandFrom depth scope (.apply head args info) c = .ok u c') :
    ∃ full c₁, x.expandFrom depth scope head c = .ok full c₁ ∧
      (x.isOutstanding c'.session scope u = true ↔
        (∃ name, full = .text name ∧ (isHandled name = true ∨
          (c'.session.lookup x.registry scope name args.length
            (info.context.getD .direct) none).isSome = true)) ∨
        ∃ module function, full.remote? = some (module, function) ∧
          (c'.session.lookup x.registry scope function args.length (info.context.getD .direct) (some
            (if full.isResolved then module
              else c'.session.resolveAlias x.registry scope module
                (info.context.getD .direct)))).isSome = true) := by
  obtain ⟨full, values, c₁, hfull, hlength, rfl⟩ := eq_withHead_of_expandFrom hhead hrun
  refine ⟨full, c₁, hfull, ?_⟩
  rw [← hlength]
  cases full with
  | text name =>
    rw [Value.withHead, isOutstanding_call]
    simp [Value.remote?]
  | _ =>
    rw [Value.withHead, isOutstanding_apply]
    · simp
    · simp

section

/-- Two macros of `App`: `h` stands for the text `m`, and `m` for a number. -/
def headSession : Session Value :=
  { registries :=
      [{ unit := "app", macros := [⟨"App", "h", [], .text "m", true, {}⟩, ⟨"App", "m", [], .int 1, true, {}⟩],
         tables := [{ scope := "App" }] }] }

def headExpander : Expander Value :=
  { registry := 0, maxDepth := 4, run := fun _ body _ => pure body }

/-- The macro `h` gives the call its name, and the call of `m` that this makes is left, although nothing was declared on
the way. -/
theorem computed_macro_call_is_left :
    (Value.call "h" [] {}).remote? = none ∧
      ∃ c', headExpander.expandFrom 0 "App" (.apply (.call "h" [] {}) [] {}) { session := headSession } =
          .ok (.call "m" [] {}) c' ∧
        c'.session = headSession ∧
        headExpander.isOutstanding c'.session "App" (.call "m" [] {}) = true := by
  refine ⟨rfl, ?_⟩
  rw [expandFrom_eq_expandWithin]
  exact ⟨_, rfl, rfl, rfl⟩

/-- The head of a call that stays a call is no name, and then nothing is left to do. -/
theorem isOutstanding_computed_iff_call :
    (Value.call "f" [.call "h" [] {}] {}).remote? = none ∧
      ∃ u c', headExpander.expandFrom 0 "App" (.apply (.call "f" [.call "h" [] {}] {}) [] {})
          { session := headSession } = .ok u c' ∧
        headExpander.isOutstanding c'.session "App" u = false := by
  have hhead : (Value.call "f" [.call "h" [] {}] {}).remote? = none := rfl
  have hvalue : (headExpander.expandFrom 0 "App" (.call "f" [.call "h" [] {}] {})).run'
      { session := headSession } = some (.call "f" [.text "m"] {}) := by
    rw [expandFrom_eq_expandWithin]
    rfl
  have hcall : ((headExpander.expandFrom 0 "App" (.apply (.call "f" [.call "h" [] {}] {}) [] {})).run'
      { session := headSession }).isSome = true := by
    rw [expandFrom_eq_expandWithin]
    rfl
  obtain ⟨u, hu⟩ := Option.isSome_iff_exists.1 hcall
  obtain ⟨c', hrun⟩ := run'_eq_some.1 hu
  refine ⟨hhead, u, c', hrun, ?_⟩
  obtain ⟨full, c₁, hfull, hiff⟩ := isOutstanding_computed_iff _ _ _ _ _ _ _ _ _ hhead hrun
  obtain rfl : full = .call "f" [.text "m"] {} :=
    Option.some.inj ((run'_eq_some.2 ⟨c₁, hfull⟩).symm.trans hvalue)
  rw [Bool.eq_false_iff, ne_eq, hiff]
  simp [Value.remote?]

end

end MacroLang.Expander
