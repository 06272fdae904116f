import MacroLang.Proofs.Build.Closure
import MacroLang.Proofs.Build.History

/-!
# No value that is no tree

A source text is read as trees, and what is made of them stays trees: the forms of every scope when they are expanded,
the bodies of its macros and functions, and the value of the script. So all macros that come from source texts return
trees, and every placeholder that they fill holds a tree. The two errors that a value is no tree, an expander's and a
quote's, never come up, whatever a compiler is asked to do (`History.Fit`).

Main statement: `evaluation_makes_trees`.
-/

namespace MacroLang

/-! ## Units -/

/-- The functions and the macros have trees for their bodies. -/
structure Compilation.Valid (c : Compilation MacroBody) : Prop where
  world : c.world.Valid
  macros : c.session.AllMacros fun m => ∀ e ∈ m.body.forms, e.isTree = true

/-- The forms of a unit are trees, and so is its value. -/
abbrev CompiledUnit.Valid (u : CompiledUnit) : Prop :=
  u.Meets .trees

theorem mindsWorld_valid : MindsWorld .trees Compilation.Valid :=
  ⟨fun _ hc => hc.world, fun _ _ hc hw => ⟨hw, hc.macros⟩⟩

namespace Compilation.Valid

variable {c c' : Compilation MacroBody}

/-- Every macro that is seen is one of them. -/
theorem meets (h : c.Valid) (r : Nat) : c.Meets .trees r := by
  refine ⟨h.world, fun m hm => ?_⟩
  rcases hm with hm | ⟨q, -, hm⟩
  · exact h.macros r m hm
  · exact h.macros q m hm

/-- After a unit, all macros are those from before and those of the unit. -/
theorem afterUnit (h : c.Valid) (hc : c'.Meets .trees c.session.registries.length)
    (hcount : c'.session.registries.length ≤ c.session.registries.length + 1)
    (hothers : ∀ q < c.session.registries.length, c'.session.registry q = c.session.registry q) : c'.Valid := by
  refine ⟨hc.world, fun q m hm => ?_⟩
  rcases Nat.lt_trichotomy q c.session.registries.length with hq | rfl | hq
  · exact h.macros q m (hothers q hq ▸ hm)
  · exact hc.session.own m hm
  · rw [Session.registry_of_le _ (Nat.le_trans hcount hq)] at hm
    cases hm

end Compilation.Valid

theorem makes_compile (o : Settings) (filename : String) (runScript : Bool) (source : String) :
    Makes Compilation.Valid CompiledUnit.Valid (compile o filename runScript source) := by
  have hread := Standard.trees.gives_readSource filename source (fun _ _ _ => rfl) fun _ _ => trivial
  intro c hc
  have hforms := ensures_compileForms_meets (o := o) Standard.lenient_trees filename runScript hread c
    ⟨rfl, hc.meets _⟩
  have hends := ensures_compileForms (o := o) filename runScript source c rfl
  unfold compile
  cases hrun : compileForms o filename runScript source c with
  | ok u c' =>
    rw [hrun] at hforms hends
    exact ⟨hforms.1, hc.afterUnit hforms.2 (Nat.le_of_eq hends.2.count) hends.2.others⟩
  | error e c' =>
    rw [hrun] at hforms hends
    have hcount : c'.session.registries.length ≤ c.session.registries.length + 1 := by
      rcases hends.1.count with hcount | hcount <;> omega
    exact ⟨hc.afterUnit hforms.1 hcount hends.1.others, (e.isMisfit_inFile filename).trans hforms.2⟩

/-! ## Requests -/

theorem makes_compileInOrder (o : Settings) (sources : List (String × String)) :
    Makes Compilation.Valid (fun us => ∀ u ∈ us, u.Valid) (compileInOrder o sources) := by
  induction sources with
  | nil => exact .pure (List.forall_mem_nil _)
  | cons first rest ih =>
    refine .bind (makes_compile o _ true _) fun u hu => .bind ih fun us hus => ?_
    exact .pure (List.forall_mem_cons.2 ⟨hu, hus⟩)

theorem makes_compileApart (o : Settings) (sources : List (String × String)) :
    Makes Compilation.Valid (fun us => ∀ u ∈ us, u.Valid) (compileApart o sources) := by
  induction sources with
  | nil => exact .pure (List.forall_mem_nil _)
  | cons first rest ih =>
    obtain ⟨filename, source⟩ := first
    intro c hc
    have hfirst := makes_compile o filename true source c hc
    rw [compileApart]
    dsimp only
    cases hrun : compile o filename true source c with
    | error e c₁ =>
      rw [hrun] at hfirst
      have hrest := ih c₁ hfirst.1
      dsimp only
      cases hruns : compileApart o rest c₁ with
      | ok us c₂ => rw [hruns] at hrest; exact ⟨hrest.2, hfirst.2⟩
      | error e' c₂ => rw [hruns] at hrest; exact ⟨hrest.1, hfirst.2⟩
    | ok u c₁ =>
      rw [hrun] at hfirst
      have hrest := ih c₁ hfirst.2
      dsimp only
      cases hruns : compileApart o rest c₁ with
      | ok us c₂ => rw [hruns] at hrest; exact ⟨List.forall_mem_cons.2 ⟨hfirst.1, hrest.1⟩, hrest.2⟩
      | error e' c₂ => rw [hruns] at hrest; exact hrest

theorem makes_compileUnits (o : Settings) (sources : List (String × String)) :
    Makes Compilation.Valid (fun us => ∀ u ∈ us, u.Valid) (compileUnits o sources) := by
  unfold compileUnits
  cases o.jobs with
  | none => exact .throw rfl
  | some jobs =>
    dsimp only
    generalize (if jobs ≤ 0 then (o.processors : Int) else jobs) = workers
    split
    · exact makes_compileInOrder o sources
    · exact .bind (makes_report mindsWorld_valid _) fun _ _ => makes_compileApart o sources

theorem makes_callFunction (o : Settings) (function : String) {args : List Value}
    (hargs : ∀ v ∈ args, v.isTree = true) :
    Makes Compilation.Valid (·.isTree = true) (callFunction o function args) := by
  have hsplit := Standard.trees.gives_splitFunction function
  unfold callFunction
  -- what the name is split into does not matter, and Lean shall not try to find out
  generalize splitFunction function = r at hsplit ⊢
  refine .bind (.ofExcept hsplit) fun (module, name) _ => .reading fun c _ => ?_
  exact Expand.makes_onWorld mindsWorld_valid (World.makes_call (Linkage.meets_within _ _) module name hargs trivial)

/-- The values that come with the request are trees. -/
def Request.Valid : Request → Prop
  | run _ args => ∀ v ∈ args, v.isTree = true
  | rerun u => ∀ e ∈ u.script, e.isTree = true
  | _ => True

theorem Request.makes_code (o : Settings) {request : Request} (h : request.Valid) :
    Makes Compilation.Valid (fun _ => True) (request.code o) := by
  cases request with
  | compile filename source runScript => exact (makes_compile o filename runScript source).discard
  | compileUnits sources => exact (makes_compileUnits _ sources).discard
  | run function args => exact (makes_callFunction o function h).discard
  | rerun u => exact (makes_runForms mindsWorld_valid u.registry h).discard

theorem valid_compiledInOrder (o : Settings) (runScript : Bool) (sources : List (String × String))
    {c : Compilation MacroBody} (hc : c.Valid) : ∀ u ∈ compiledInOrder o runScript sources c, u.Valid := by
  induction sources generalizing c with
  | nil => exact List.forall_mem_nil _
  | cons first rest ih =>
    obtain ⟨filename, source⟩ := first
    have hfirst := makes_compile o filename runScript source c hc
    rw [compiledInOrder]
    cases hrun : compile o filename runScript source c with
    | error e c₁ => exact List.forall_mem_nil _
    | ok u c₁ =>
      rw [hrun] at hfirst
      exact List.forall_mem_cons.2 ⟨hfirst.1, ih hfirst.2⟩

theorem Request.valid_compiled (o : Settings) (request : Request) {c : Compilation MacroBody} (hc : c.Valid) :
    ∀ u ∈ request.compiled o c, u.Valid := by
  cases request with
  | compile filename source runScript => exact valid_compiledInOrder o runScript _ hc
  | compileUnits sources => exact valid_compiledInOrder _ true sources hc
  | run function args => exact List.forall_mem_nil _
  | rerun u => exact List.forall_mem_nil _

/-- Everything is made of trees, and no request has ended in the error that a value is no tree. -/
structure History.Fit (h : History) : Prop where
  compilation : h.compilation.Valid
  units : ∀ u ∈ h.units, u.Valid
  errors : ∀ e ∈ h.errors, e.isMisfit = false

theorem History.Fit.next {h : History} (hfit : h.Fit) (o : Settings) {request : Request} (hrequest : request.Valid) :
    (h.next o request).Fit := by
  have hcode := Request.makes_code o hrequest h.compilation hfit.compilation
  have hunits : ∀ u ∈ h.units ++ request.compiled o h.compilation, u.Valid :=
    List.forall_mem_append.2 ⟨hfit.units, request.valid_compiled o hfit.compilation⟩
  unfold History.next
  cases hrun : request.code o h.compilation with
  | ok u c =>
    rw [hrun] at hcode
    exact ⟨hcode.2, hunits, hfit.errors⟩
  | error e c =>
    rw [hrun] at hcode
    exact ⟨hcode.1, hunits, List.forall_mem_append.2 ⟨hfit.errors, List.forall_mem_singleton.2 hcode.2⟩⟩

theorem History.fit_start : ({} : History).Fit := by
  refine ⟨⟨List.forall_mem_nil _, fun r m hm => ?_⟩, List.forall_mem_nil _, List.forall_mem_nil _⟩
  rw [Session.registry_of_le _ (Nat.zero_le r)] at hm
  cases hm

theorem History.fit_foldl {h : History} (hfit : h.Fit) (o : Settings) {requests : List Request}
    (hrequests : ∀ request ∈ requests, request.Valid) : (requests.foldl (History.next o) h).Fit := by
  induction requests generalizing h with
  | nil => exact hfit
  | cons request requests ih =>
    rw [List.forall_mem_cons] at hrequests
    exact ih (hfit.next o hrequests.1) hrequests.2

/-- Evaluation is closed over trees. Whatever modules are imported and however deep calls may nest: in a machine whose
functions have trees for their bodies and whose variables are bound to trees, a tree is evaluated to a tree or to an
error other than that a value is no tree, and the machine is still of that kind. The same holds of a function that is
called from outside, of a script and of every built-in function. So after any requests to a compiler none has ended in
the error that a macro returned no tree, nor in the error that a placeholder holds no tree. -/
theorem evaluation_makes_trees :
    (∀ imported depth (e : Value), e.isTree = true →
      Makes Machine.Valid (·.isTree = true) (evaluate (.within imported depth) e)) ∧
    (∀ imported depth module name (args : List Value) info, (∀ v ∈ args, v.isTree = true) →
      Makes World.Valid (·.isTree = true) (World.call (.within imported depth) module name args info)) ∧
    (∀ imported depth (home : Home) (forms : List Value), home.Valid → (∀ e ∈ forms, e.isTree = true) →
      Makes World.Valid (·.isTree = true) (World.script (.within imported depth) home forms)) ∧
    (∀ (b : Builtin) info (args : List Value), (∀ v ∈ args, v.isTree = true) →
      Gives (·.isTree = true) (b.run info args)) ∧
    (∀ o sources, Makes Compilation.Valid (fun us => ∀ u ∈ us, u.Valid) (compileUnits o sources)) ∧
    ∀ o requests, (∀ request ∈ requests, request.Valid) →
      let h := History.ofRequests o requests
      h.compilation.Valid ∧ (∀ u ∈ h.units, u.Valid) ∧ ∀ e ∈ h.errors, e.isMisfit = false := by
  refine ⟨fun imported depth e he => ?_, fun imported depth module name args info hargs => ?_,
    fun imported depth home forms hhome hforms => ?_, fun b info args hargs => ?_, makes_compileUnits,
    fun o requests hrequests => ?_⟩
  · exact (Eval.closed_of_value (Linkage.meets_within imported depth) e he).code
  · exact World.makes_call (Linkage.meets_within imported depth) module name hargs trivial
  · exact World.makes_script (Linkage.meets_within imported depth) hhome hforms
  · exact Standard.trees.gives_run trivial b hargs
  · have hfit := History.fit_foldl History.fit_start o hrequests
    exact ⟨hfit.compilation, hfit.units, hfit.errors⟩

/-- A quote takes in the value of a function, which is quoted itself, and the members of a bound list. The requests
define a macro, call it and run a function and a script. -/
theorem evaluation_makes_trees_spliced :
    let wrap : Function := ⟨"M", "wrap", [⟨"x", .direct⟩],
      [.call "quote" [.call "f" [.call "unquote" [.var "x" .direct {}] {}] {}] {}], true⟩
    let w : World := { modules := [{ name := "M", functions := [wrap] }] }
    let m : Machine := ⟨w, .loaded "M", [(⟨"xs", .direct⟩, .list [.int 1, .int 2])], false⟩
    let e : Value := .call "quote" [.call "g" [.call "unquote" [.call "wrap" [.nil] {}] {},
      .call "unquote_splicing" [.var "xs" .direct {}] {}] {}] {}
    let quoted : Info := { context := some (.quotedIn "M") }
    let u : Value := .call "f" [.nil] quoted
    let v : Value := .call "g" [u, .int 1, .int 2] quoted
    let imported : Imports := fun _ _ => []
    let link : Linkage := .within imported 1
    let requests : List Request :=
      [.compile "m.mex" "<defmodule M <defmacro twice (.x) <quote <list ~.x ~.x>>>> <require M> <M.twice 3>" true,
        .run "M.g" [.list [.nil]], .rerun ⟨"n.mex", 0, [], [(scriptScope, [.nil])], .nil⟩]
    (e.isTree = true ∧ m.Valid ∧ evaluate link e m = .ok v m ∧ v.isTree = true) ∧
    (World.call link "M" "wrap" [.nil] {} w = .ok u w ∧ u.isTree = true) ∧
    (World.script link (.loaded "M") [.call "wrap" [.nil] {}] w = .ok u w ∧ u.isTree = true) ∧
    Gives (·.isTree = true) (Builtin.run {} .tail [.list [.nil]]) ∧
    (∀ request ∈ requests, request.Valid) ∧
    ∀ e ∈ (History.ofRequests {} requests).errors, e.isMisfit = false := by
  intro wrap w m e quoted u v imported link requests
  have hw : w.Valid := by
    refine List.forall_mem_singleton.2 (List.forall_mem_singleton.2 (List.forall_mem_singleton.2 ?_))
    rfl
  have hm : m.Valid := ⟨hw, trivial, Env.Meets.bind Env.meets_nil _ rfl⟩
  have hargs : ∀ v ∈ [Value.nil], v.isTree = true := List.forall_mem_singleton.2 rfl
  have hforms : ∀ e ∈ [Value.call "wrap" [.nil] {}], e.isTree = true := List.forall_mem_singleton.2 rfl
  have hrequests : ∀ request ∈ requests, request.Valid := by
    refine List.forall_mem_cons.2 ⟨trivial, List.forall_mem_cons.2 ⟨?_, List.forall_mem_singleton.2 ?_⟩⟩
    · exact List.forall_mem_singleton.2 rfl
    · exact hargs
  obtain ⟨heval, hcall, hscript, hbuiltin, -, hhistory⟩ := evaluation_makes_trees
  have hrun : evaluate link e m = .ok v m := rfl
  have hrunCall : World.call link "M" "wrap" [.nil] {} w = .ok u w := rfl
  have hrunScript : World.script link (.loaded "M") [.call "wrap" [.nil] {}] w = .ok u w := rfl
  refine ⟨⟨rfl, hm, hrun, ((heval imported 1 e rfl).of_ok hm hrun).1⟩, ⟨hrunCall, ?_⟩, ⟨hrunScript, ?_⟩,
    hbuiltin .tail {} _ (List.forall_mem_singleton.2 rfl), hrequests, (hhistory {} requests hrequests).2.2⟩
  · exact ((hcall imported 1 "M" "wrap" [.nil] {} hargs).of_ok hw hrunCall).1
  · exact ((hscript imported 1 (.loaded "M") _ trivial hforms).of_ok hw hrunScript).1

end MacroLang
