import MacroLang.Proofs.Expansion.Direct
import MacroLang.Proofs.Expansion.Settled

/-!
# Expanding again

What an expansion gives is settled: if every call that the run visits is a call by name, other than an import or a
requirement, or a call of another module's function, then expanding the result again changes nothing, whatever the
aliases are by then (`expandFrom_again`).

The values that a run visits are read off the run itself (`Expander.visited`). That the result is settled is an
invariant of the work stack (`Expander.Sound`): the finished values are settled, the tasks that put nodes together have
enough of them to take, and the nodes are no macro calls. One step keeps it (`Sound.step`), hence a whole run
does (`Sound.work`).
-/

namespace MacroLang

/-- Neither an import or requirement nor a call whose head has to be computed. -/
def Value.isOrdinary : Value → Bool
  | call name _ _ => name != "import" && name != "require"
  | apply head _ _ => head.remote?.isSome
  | _ => true

namespace Task

/-- The value that a task visits. -/
def visited? : Task → Option Value
  | visit v _ => some v
  | _ => none

/-- How many finished values a task takes. It leaves one. -/
def takes : Task → Nat
  | visit .. => 0
  | rebuildCall _ args _ | rebuildApply _ args _ => args.length
  | rebuildComputed args _ => args.length + 1
  | rebuildList items | rebuildTuple items => items.length
  | replaced => 1

/-- Can the tasks be done if there are `count` finished values, and is there one at the end? -/
def Balanced : List Task → Nat → Prop
  | [], count => 0 < count
  | task :: rest, count => task.takes ≤ count ∧ Balanced rest (count - task.takes + 1)

theorem balanced_visits (budget : Nat) (vs : List Value) (rest : List Task) (count : Nat) :
    Balanced (visits budget vs ++ rest) count ↔ Balanced rest (count + vs.length) := by
  induction vs generalizing count with
  | nil => rfl
  | cons v vs ih =>
    show 0 ≤ count ∧ Balanced (visits budget vs ++ rest) (count - 0 + 1) ↔ _
    rw [ih, List.length_cons, Nat.sub_zero, Nat.add_right_comm, ← Nat.add_assoc]
    exact and_iff_right (Nat.zero_le count)

end Task

namespace Expander

variable {β : Type} {s : Session β} {x : Expander β} {scope : String}

/-! ## What a run visits -/

/-- The values that the expander visits while it works on an agenda. -/
def visitedBy (x : Expander β) (scope : String) (agenda : List Task) (results : List Expanded)
    (c : Compilation β) : List Value :=
  match agenda with
  | [] => []
  | task :: rest => task.visited?.toList ++
    match x.step scope task results c with
    | .ok s c' => visitedBy x scope (s.tasks ++ rest) s.results c'
    | .error _ _ => []
termination_by (Agenda.wellFounded Task.below_wellFounded).wrap agenda
decreasing_by exact .step s.smaller

/-- The values that are visited while a value is expanded, starting at a depth of repeated expansion. -/
def visited (x : Expander β) (depth : Int) (scope : String) (v : Value) (c : Compilation β) : List Value :=
  x.visitedBy scope [.visit v (x.maxDepth - depth).toNat] [] c

theorem forall_visitedBy_nil {results : List Expanded} {c : Compilation β} {p : Value → Prop} :
    ∀ v ∈ x.visitedBy scope [] results c, p v := by
  rw [visitedBy]
  nofun

theorem forall_visitedBy_cons {task : Task} {rest : List Task} {results : List Expanded}
    {c c' : Compilation β} {st : Step task} {p : Value → Prop}
    (h : x.step scope task results c = .ok st c') :
    (∀ v ∈ x.visitedBy scope (task :: rest) results c, p v) ↔
      (∀ v ∈ task.visited?, p v) ∧
        ∀ v ∈ x.visitedBy scope (st.tasks ++ rest) st.results c', p v := by
  rw [visitedBy, h, List.forall_mem_append]
  simp only [Option.mem_toList, Option.mem_def]

/-! ## What takes the place of a node -/

theorem eq_var_of_escape {v target w : Value} (h : v.escape target = .ok w) :
    ∃ y ctx i, w = .var y ctx (Info.markEscaped i) := by
  unfold Value.escape at h
  split at h
  · rw [except_bind_eq_ok] at h
    obtain ⟨ctx, -, h⟩ := h
    cases h
    exact ⟨_, _, _, rfl⟩
  · rw [except_bind_eq_ok] at h
    obtain ⟨ctx, -, h⟩ := h
    cases h
    exact ⟨_, _, _, rfl⟩
  · cases h

/-- A call of `var!` stands for a variable that is marked as escaped. -/
theorem eq_var_of_escapeArgs {args : List Value} {info : Info} {v : Value}
    (h : Value.escapeArgs args info = .ok v) : ∃ y ctx i, v = .var y ctx (Info.markEscaped i) := by
  unfold Value.escapeArgs at h
  split at h
  · exact eq_var_of_escape h
  · exact eq_var_of_escape h
  · exact eq_var_of_escape h
  · cases h
  · cases h

/-- The head of a remote call in full has a module and a function, and it is marked. -/
theorem remote?_of_expandHead {ctx : Context} {head full : Value} {module function : String}
    (hhead : head.remote? = some (module, function))
    (h : x.expandHead s scope ctx head module function = .ok full) :
    full.remote? = some
        (if head.isResolved then module else s.resolveAlias x.registry scope module ctx, function) ∧
      full.isResolved = true := by
  unfold expandHead at h
  split at h
  · rename_i hresolved
    cases h
    rw [if_pos hresolved]
    exact ⟨hhead, hresolved⟩
  · rename_i hresolved
    rw [Value.buildRemote, except_bind_eq_ok] at h
    obtain ⟨m, hm, h⟩ := h
    rw [except_bind_eq_ok] at h
    obtain ⟨f, hf, h⟩ := h
    cases h
    rw [if_neg hresolved, eq_of_buildAtom hm, eq_of_buildAtom hf]
    exact ⟨rfl, rfl⟩

/-! ## What a step keeps -/

/-- A task that puts together a node that is no macro call and has no more aliases to look up. -/
def Ready (s : Session β) (r : Nat) (scope : String) : Task → Prop
  | .rebuildCall name args info =>
    isPlain name args.length = true ∧ (isDeclaration name = true → name = "alias") ∧
      s.lookup r scope name args.length (info.context.getD .direct) none = none
  | .rebuildApply head args info => ∃ module function,
    head.value.remote? = some (module, function) ∧ head.value.isResolved = true ∧
      s.lookup r scope function args.length (info.context.getD .direct) (some module) = none
  | .rebuildComputed .. => False
  | _ => True

/-- The state of the work stack in a run that started with session `s`. -/
structure Sound (s : Session β) (x : Expander β) (scope : String) (agenda : List Task)
    (results : List Expanded) (c : Compilation β) : Prop where
  same : s.SameMacros x.registry c.session x.registry
  settled : ∀ e ∈ results, Settled s x.registry scope e.value
  ready : ∀ task ∈ agenda, Ready s x.registry scope task
  balanced : Task.Balanced agenda results.length

section

variable {task : Task} {rest : List Task} {results : List Expanded} {c c' : Compilation β}

/-- The task is done: it took its values and left a settled one. -/
theorem Sound.done (h : Sound s x scope (task :: rest) results c)
    (hsame : c.session.SameMacros x.registry c'.session x.registry) {v : Value} {changed : Bool}
    (hv : Settled s x.registry scope v) :
    Sound s x scope rest (⟨v, changed⟩ :: results.drop task.takes) c' where
  same := h.same.trans hsame
  settled := by
    intro e he
    rcases List.mem_cons.1 he with rfl | he
    · exact hv
    · exact h.settled e (List.mem_of_mem_drop he)
  ready t ht := h.ready t (List.mem_cons_of_mem _ ht)
  balanced := by
    rw [List.length_cons, List.length_drop]
    exact h.balanced.2

/-- Parts are visited first, and a task that takes them comes after. -/
theorem Sound.parts {w : Value} {budget : Nat} (h : Sound s x scope (.visit w budget :: rest) results c)
    (hsame : c.session.SameMacros x.registry c'.session x.registry) {vs : List Value} {last : Task}
    (hlast : Ready s x.registry scope last) (htakes : last.takes = vs.length) (b : Nat) :
    Sound s x scope ((Task.visits b vs ++ [last]) ++ rest) results c' where
  same := h.same.trans hsame
  settled := h.settled
  ready t ht := by
    rw [List.append_assoc] at ht
    rcases List.mem_append.1 ht with ht | ht
    · obtain ⟨v, -, rfl⟩ := List.mem_map.1 ht
      trivial
    · rcases List.mem_cons.1 ht with rfl | ht
      · exact hlast
      · exact h.ready t (List.mem_cons_of_mem _ ht)
  balanced := by
    rw [List.append_assoc, Task.balanced_visits]
    refine ⟨by omega, ?_⟩
    rw [htakes, Nat.add_sub_cancel]
    exact h.balanced.2

theorem Sound.replace {m : Macro β} {v : Value} {args : List Value} {info : Info} {budget : Nat}
    (h : Sound s x scope (.visit v budget :: rest) results c) {st : Step (.visit v budget)}
    (hstep : x.replace m v args info budget results c = .ok st c') :
    Sound s x scope (st.tasks ++ rest) st.results c' := by
  cases budget with
  | zero => cases hstep
  | succ budget =>
    unfold Expander.replace at hstep
    rw [bind_eq_ok] at hstep
    obtain ⟨result, c₁, hinvoke, hstep⟩ := hstep
    cases hstep
    have hsame : c.session.SameMacros x.registry c'.session x.registry := by
      rw [(of_invoke hinvoke).2]
      exact .refl ..
    have hlast : Ready s x.registry scope .replaced := trivial
    have hresult : Task.replaced.takes = [result].length := rfl
    exact h.parts hsame hlast hresult budget

theorem Sound.visitCall {name : String} {args : List Value} {info : Info} {budget : Nat}
    (h : Sound s x scope (.visit (.call name args info) budget :: rest) results c)
    (hname : (Value.call name args info).isOrdinary = true)
    (hlookup : x.resolve c.session scope (.call name args info) = none)
    {st : Step (.visit (.call name args info) budget)}
    (hstep : Expander.visitCall scope name args info budget results = .ok st) :
    Sound s x scope (st.tasks ++ rest) st.results c := by
  unfold Expander.visitCall at hstep
  split at hstep
  · rename_i hsealed
    cases hstep
    exact h.done (.refl ..) (.sealed hsealed)
  split at hstep
  · cases hstep
  split at hstep
  · rw [except_bind_eq_ok] at hstep
    obtain ⟨v, hescape, hstep⟩ := hstep
    cases hstep
    obtain ⟨y, ctx, i, rfl⟩ := eq_var_of_escapeArgs hescape
    exact h.done (.refl ..) (.leaf rfl)
  split at hstep
  · rw [except_bind_eq_ok] at hstep
    obtain ⟨v, hatom, hstep⟩ := hstep
    cases hstep
    exact h.done (.refl ..) (.leaf (eq_of_buildAtom hatom ▸ rfl))
  -- none of the forms that stand for something else is left, and imports and requirements are no ordinary calls
  rename_i hsealed hunquote hvar hmodule
  cases hstep
  have hplain : isPlain name args.length = true := by
    cases args <;> simp_all [isPlain]
  have hdeclaration : isDeclaration name = true → name = "alias" := by
    simp_all [isDeclaration, Value.isOrdinary]
  have hlast : Ready s x.registry scope (.rebuildCall name args info) :=
    ⟨hplain, hdeclaration, (h.same.lookup_eq ..).symm.trans hlookup⟩
  exact h.parts (.refl ..) hlast rfl budget

theorem Sound.visitApply {head : Value} {args : List Value} {info : Info} {budget : Nat}
    (h : Sound s x scope (.visit (.apply head args info) budget :: rest) results c)
    (hhead : (Value.apply head args info).isOrdinary = true)
    (hlookup : x.resolve c.session scope (.apply head args info) = none)
    {st : Step (.visit (.apply head args info) budget)}
    (hstep : x.visitApply c.session scope head args info budget results = .ok st) :
    Sound s x scope (st.tasks ++ rest) st.results c := by
  unfold Expander.visitApply at hstep
  split at hstep
  · rename_i module function hremote
    rw [except_bind_eq_ok] at hstep
    obtain ⟨full, hfull, hstep⟩ := hstep
    cases hstep
    obtain ⟨hfullRemote, hfullResolved⟩ := remote?_of_expandHead hremote hfull
    simp only [resolve, hremote] at hlookup
    have hlast : Ready s x.registry scope (.rebuildApply ⟨full, !head.isResolved⟩ args info) :=
      ⟨_, function, hfullRemote, hfullResolved, (h.same.lookup_eq ..).symm.trans hlookup⟩
    exact h.parts (.refl ..) hlast rfl budget
  · rename_i hremote
    simp [Value.isOrdinary, hremote] at hhead

theorem Sound.visit {v : Value} {budget : Nat} (h : Sound s x scope (.visit v budget :: rest) results c)
    (hv : v.isOrdinary = true) {st : Step (.visit v budget)}
    (hstep : x.visit scope v budget results c = .ok st c') :
    Sound s x scope (st.tasks ++ rest) st.results c' := by
  cases v with
  | list items =>
    cases hstep
    have hlast : Ready s x.registry scope (.rebuildList items) := trivial
    exact h.parts (.refl ..) hlast rfl budget
  | tuple items =>
    cases hstep
    have hlast : Ready s x.registry scope (.rebuildTuple items) := trivial
    exact h.parts (.refl ..) hlast rfl budget
  | call name args info =>
    rw [Expander.visit, get_bind] at hstep
    cases hlookup : x.resolve c.session scope (.call name args info) with
    | some m =>
      rw [hlookup] at hstep
      exact h.replace hstep
    | none =>
      rw [hlookup] at hstep
      obtain ⟨hvisit, rfl⟩ := ofExcept_eq_ok.1 hstep
      exact h.visitCall hv hlookup hvisit
  | apply head args info =>
    rw [Expander.visit, get_bind] at hstep
    cases hlookup : x.resolve c.session scope (.apply head args info) with
    | some m =>
      rw [hlookup] at hstep
      exact h.replace hstep
    | none =>
      rw [hlookup] at hstep
      obtain ⟨hvisit, rfl⟩ := ofExcept_eq_ok.1 hstep
      exact h.visitApply hv hlookup hvisit
  | var | atom | number | text =>
    cases hstep
    exact h.done (.refl ..) (.leaf rfl)
  | unquote | splice | context | truth | nothing => cases hstep

/-! ## Nodes that are put together -/

theorem mem_of_mem_takeResults {count : Nat} {e : Expanded} (h : e ∈ (takeResults count results).1) :
    e ∈ results :=
  List.mem_of_mem_take (List.mem_reverse.1 h)

theorem length_takeResults {count : Nat} (h : count ≤ results.length) :
    (takeResults count results).1.length = count := by
  rw [takeResults, List.length_reverse, List.length_take, Nat.min_eq_left h]

section

variable {es : List Expanded} {e : Expanded} {info : Info}

theorem settled_values (hes : ∀ e ∈ es, Settled s x.registry scope e.value) :
    ∀ v ∈ es.map (·.value), Settled s x.registry scope v := by
  intro v hv
  obtain ⟨e, he, rfl⟩ := List.mem_map.1 hv
  exact hes e he

theorem settled_finishCall {name : String} {args : List Value}
    (hready : Ready s x.registry scope (.rebuildCall name args info))
    (hes : ∀ e ∈ es, Settled s x.registry scope e.value) (hlength : es.length = args.length)
    (h : x.finishCall scope name info es c = .ok e c') :
    Settled s x.registry scope e.value ∧ c.session.SameMacros x.registry c'.session x.registry := by
  obtain ⟨hplain, halias, hlookup⟩ := hready
  have hvalues := settled_values hes
  unfold finishCall at h
  split at h
  · rename_i hdeclaration
    obtain rfl := halias hdeclaration
    rw [bind_eq_ok] at h
    obtain ⟨v, c₁, hdeclare, h⟩ := h
    cases h
    exact settled_declare hvalues hdeclare
  · rename_i hdeclaration
    cases h
    rw [← hlength, ← List.length_map (·.value)] at hplain hlookup
    exact ⟨.call hplain (by simpa using hdeclaration) hlookup hvalues, .refl ..⟩

theorem settled_finishApply {head : Expanded} {args : List Value}
    (hready : Ready s x.registry scope (.rebuildApply head args info))
    (hes : ∀ e ∈ es, Settled s x.registry scope e.value) (hlength : es.length = args.length)
    (h : finishApply info head es = .ok e) : Settled s x.registry scope e.value := by
  obtain ⟨module, function, hremote, hresolved, hlookup⟩ := hready
  rw [finishApply, except_bind_eq_ok] at h
  obtain ⟨_, -, h⟩ := h
  cases h
  rw [← hlength, ← List.length_map (·.value)] at hlookup
  obtain ⟨headInfo, hhead⟩ := Value.eq_of_remote? hremote
  dsimp only
  rw [hhead] at hremote hresolved ⊢
  exact .remote hremote hresolved hlookup (settled_values hes)

theorem settled_finishTuple (hes : ∀ e ∈ es, Settled s x.registry scope e.value)
    (h : finishTuple es = .ok e) : Settled s x.registry scope e.value := by
  unfold finishTuple at h
  split at h
  · split at h
    · rename_i left right _ _
      cases h
      refine .tuple fun v hv => ?_
      rcases List.mem_cons.1 hv with rfl | hv
      · exact hes left List.mem_cons_self
      · rw [List.mem_singleton.1 hv]
        exact hes right (List.mem_cons_of_mem _ List.mem_cons_self)
    · cases h
  · cases h
    exact .tuple (settled_values hes)

end

/-! ## Runs -/

/-- One step of the work stack keeps it sound, as long as what it visits is ordinary. -/
theorem Sound.step (h : Sound s x scope (task :: rest) results c)
    (hvisited : ∀ v ∈ task.visited?, v.isOrdinary = true) {st : Step task}
    (hstep : x.step scope task results c = .ok st c') :
    Sound s x scope (st.tasks ++ rest) st.results c' := by
  have hready := h.ready task List.mem_cons_self
  have hcount := h.balanced.1
  have htaken : ∀ {n e}, e ∈ (takeResults n results).1 → Settled s x.registry scope e.value :=
    fun he => h.settled _ (mem_of_mem_takeResults he)
  unfold Expander.step at hstep
  cases task with
  | visit v budget => exact h.visit (hvisited v rfl) hstep
  | rebuildCall name args info =>
    rw [bind_eq_ok] at hstep
    obtain ⟨e, c₁, hfinish, hstep⟩ := hstep
    cases hstep
    obtain ⟨he, hsame⟩ := settled_finishCall hready (fun _ => htaken) (length_takeResults hcount) hfinish
    exact h.done hsame he
  | rebuildApply head args info =>
    rw [bind_eq_ok] at hstep
    obtain ⟨e, c₁, hfinish, hstep⟩ := hstep
    cases hstep
    obtain ⟨he, rfl⟩ := ofExcept_eq_ok.1 hfinish
    exact h.done (.refl ..) (settled_finishApply hready (fun _ => htaken) (length_takeResults hcount) he)
  | rebuildComputed args info => exact hready.elim
  | rebuildList items =>
    cases hstep
    exact h.done (.refl ..) (.list (settled_values fun _ => htaken))
  | rebuildTuple items =>
    rw [bind_eq_ok] at hstep
    obtain ⟨e, c₁, hfinish, hstep⟩ := hstep
    cases hstep
    obtain ⟨he, rfl⟩ := ofExcept_eq_ok.1 hfinish
    exact h.done (.refl ..) (settled_finishTuple (fun _ => htaken) he)
  | replaced =>
    cases hstep
    cases results with
    | nil => cases hcount
    | cons e results => exact h.done (.refl ..) (h.settled e List.mem_cons_self)

/-- A run that visits ordinary values only ends in a sound state. -/
theorem Sound.work {agenda : List Task} (h : Sound s x scope agenda results c)
    (hvisited : ∀ v ∈ x.visitedBy scope agenda results c, v.isOrdinary = true) {es : List Expanded}
    (hwork : x.work scope agenda results c = .ok es c') : Sound s x scope [] es c' := by
  -- the agenda gets smaller with each step, so the induction is that of the run itself
  induction agenda, results using Expander.work.induct generalizing c with
  | case1 results =>
    rw [Expander.work] at hwork
    cases hwork
    exact h
  | case2 results task rest ih =>
    rw [work_cons, bind_eq_ok] at hwork
    obtain ⟨st, c₁, hstep, hwork⟩ := hwork
    obtain ⟨hfirst, hrest⟩ := (forall_visitedBy_cons hstep).1 hvisited
    exact ih st (h.step hfirst hstep) hrest hwork

/-- What comes out of a run that visits ordinary values only is settled. -/
theorem settled_of_expandFrom {depth : Int} {t u : Value} (hrun : x.expandFrom depth scope t c = .ok u c')
    (hvisited : ∀ v ∈ x.visited depth scope t c, v.isOrdinary = true) :
    Settled c.session x.registry scope u := by
  rw [expandFrom, bind_eq_ok] at hrun
  obtain ⟨es, c₁, hwork, hrun⟩ := hrun
  cases hrun
  have hstart : Sound c.session x scope [.visit t (x.maxDepth - depth).toNat] [] c :=
    { same := .refl ..
      settled := by intro e he; cases he
      ready := by intro task htask; rw [List.mem_singleton.1 htask]; trivial
      balanced := ⟨Nat.le_refl 0, Nat.one_pos⟩ }
  have hend := hstart.work hvisited hwork
  cases es with
  | nil => cases hend.balanced
  | cons e es => exact hend.settled e List.mem_cons_self

/-- Settled code is expanded to itself. -/
theorem expandFrom_settled {r : Nat} {u : Value} (h : Settled s r scope u) (hfits : Fits s r x scope c)
    (depth : Int) : ∃ c', x.expandFrom depth scope u c = .ok u c' ∧ c'.expansions = c.expansions := by
  have hwithin : ∀ budget, Yields s r x scope (x.expandWithin scope budget u) ⟨u, false⟩
    | 0 => by rw [expandWithin]; exact walk_settled h
    | budget + 1 => by rw [expandWithin]; exact walk_settled h
  obtain ⟨c', hcode, -, hcount⟩ := hwithin (x.maxDepth - depth).toNat c hfits
  refine ⟨c', ?_, hcount⟩
  rw [expandFrom_eq_expandWithin, map_eq_pure_bind, bind_eq_ok]
  exact ⟨⟨u, false⟩, c', hcode, rfl⟩

end

/-- If a run visits no import, no requirement and no call with a head to be computed, then what it gives is expanded to
itself, without a macro being invoked, under every registry that sees the same macros, imports and requirements and has
declarations for the scope. -/
theorem expandFrom_again (x x' : Expander β) (depth depth' : Int) (scope : String) (t u : Value)
    (c c₁ c₂ : Compilation β) (hrun : x.expandFrom depth scope t c = .ok u c₁)
    (hvisited : ∀ v ∈ x.visited depth scope t c, v.isOrdinary = true)
    (hsame : c.session.SameMacros x.registry c₂.session x'.registry)
    (hopen : (c₂.session.registry x'.registry).owns scope = true) :
    ∃ c₃, x'.expandFrom depth' scope u c₂ = .ok u c₃ ∧ c₃.expansions = c₂.expansions :=
  expandFrom_settled (settled_of_expandFrom hrun hvisited) ⟨hsame, hopen⟩ depth'

section

/-- A macro of `App` that stands for `Foo.f()`. -/
def fooMacro : Macro Value :=
  ⟨"App", "m", [], .apply (.call "." [.atom "Foo", .atom "f"] {}) [] {}, true, {}⟩

def fooSession : Session Value :=
  { registries := [{ unit := "app", macros := [fooMacro], tables := [{ scope := "App" }] }] }

def fooExpander : Expander Value :=
  { registry := 0, maxDepth := 4, run := fun _ body _ => pure body }

/-- An alias whose module begins with its own short name, and a call of the macro that uses the name. -/
def fooCode : Value :=
  .list [.call "alias" [.atom "Foo.Foo"] {}, .call "m" [] {}]

def fooExpanded : Value :=
  .list [.call "alias" [.atom "Foo.Foo"] (Info.markResolved {}),
    .apply (.call "." [.atom "Foo.Foo", .atom "f"] (Info.markResolved {})) [] {}]

/-- The module name does not grow a second time, although the short name stands for a longer one by then. -/
theorem expandFrom_again_alias :
    let c : Compilation Value := { session := fooSession }
    let c₂ : Compilation Value :=
      { session := fooSession.withAliases 0 "App" [⟨"Foo", .direct, "Foo.Foo.Foo"⟩] }
    (∃ c₁, fooExpander.expandFrom 0 "App" fooCode c = .ok fooExpanded c₁) ∧
      (∀ v ∈ fooExpander.visited 0 "App" fooCode c, v.isOrdinary = true) ∧
      c.session.SameMacros 0 c₂.session 0 ∧ (c₂.session.registry 0).owns "App" = true ∧
      ∃ c₃, fooExpander.expandFrom 0 "App" fooExpanded c₂ = .ok fooExpanded c₃ ∧
        c₃.expansions = c₂.expansions := by
  have hvalue : (fooExpander.expandFrom 0 "App" fooCode).run' { session := fooSession } = some fooExpanded := by
    rw [expandFrom_eq_expandWithin]
    rfl
  have hvisited : ∀ v ∈ fooExpander.visited 0 "App" fooCode { session := fooSession }, v.isOrdinary = true := by
    -- the list, the alias and its module
    refine (forall_visitedBy_cons rfl).2 ⟨by rintro _ ⟨⟩; rfl, ?_⟩
    refine (forall_visitedBy_cons rfl).2 ⟨by rintro _ ⟨⟩; rfl, ?_⟩
    refine (forall_visitedBy_cons rfl).2 ⟨by rintro _ ⟨⟩; rfl, ?_⟩
    refine (forall_visitedBy_cons rfl).2 ⟨nofun, ?_⟩
    -- the macro call and what takes its place
    refine (forall_visitedBy_cons rfl).2 ⟨by rintro _ ⟨⟩; rfl, ?_⟩
    refine (forall_visitedBy_cons rfl).2 ⟨by rintro _ ⟨⟩; rfl, ?_⟩
    refine (forall_visitedBy_cons rfl).2 ⟨nofun, ?_⟩
    refine (forall_visitedBy_cons rfl).2 ⟨nofun, ?_⟩
    refine (forall_visitedBy_cons rfl).2 ⟨nofun, ?_⟩
    exact forall_visitedBy_nil
  obtain ⟨c₁, hrun⟩ := run'_eq_some.1 hvalue
  intro c c₂
  have hsame := Session.sameMacros_withAliases fooSession 0 "App" [⟨"Foo", .direct, "Foo.Foo.Foo"⟩]
  exact ⟨⟨c₁, hrun⟩, hvisited, hsame, rfl,
    expandFrom_again fooExpander fooExpander 0 0 "App" fooCode fooExpanded c c₁ c₂ hrun hvisited hsame rfl⟩

end

end Expander

end MacroLang
