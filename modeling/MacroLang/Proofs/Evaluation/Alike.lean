import MacroLang.Evaluation.Run
import MacroLang.Proofs.Evaluation.Laws
import MacroLang.Proofs.TwoRuns

/-!
# Evaluation does not read the log

Worlds are alike if they have the same modules, whatever was logged in them, and so are machines in alike worlds. All
evaluation has the same outcome in alike machines and leaves them alike (`Eval.alike_laws`). So modules are loaded,
scripts run and macro bodies run in the same way in alike worlds.
-/

namespace MacroLang

/-- The world `w'` is `w` with another log. -/
def World.Alike (w w' : World) : Prop :=
  ∃ log, w' = { w with log }

/-- The machine `m'` is `m` in a world with another log. -/
def Machine.Alike (m m' : Machine) : Prop :=
  ∃ log, m' = { m with world := { m.world with log } }

theorem Machine.alike_of_worlds (home : Home) (env : Env) (inFunction : Bool) {w w' : World} (h : w.Alike w') :
    Machine.Alike ⟨w, home, env, inFunction⟩ ⟨w', home, env, inFunction⟩ := by
  obtain ⟨log, rfl⟩ := h
  exact ⟨log, rfl⟩

theorem Machine.Alike.world {m m' : Machine} (h : m.Alike m') : m.world.Alike m'.world := by
  obtain ⟨log, rfl⟩ := h
  exact ⟨log, rfl⟩

namespace Eval

variable {link : Linkage}

/-- Functions run in the same way in alike machines. -/
def CallsAlike (link : Linkage) : Prop :=
  ∀ home f args, Concurs Machine.Alike (link.apply home f args)

theorem concurs_addFunction (f : Function) : Concurs Machine.Alike (addFunction f) := by
  refine .modify ?_
  rintro ⟨world, home, env, inFunction⟩ _ ⟨log, rfl⟩
  cases home with
  | loaded name => exact ⟨_, rfl⟩
  | unlisted module => exact ⟨_, rfl⟩

theorem concurs_define (form : String) (args : List Value) (info : Info) :
    Concurs Machine.Alike (define form args info) := by
  refine .reading (fun m => ?_) ?_
  · refine .refuseIf (.andThen (.ofExcept _) fun d => .refuseIf ?_)
    exact .andThen (concurs_addFunction _) fun _ => .ofExcept _
  · rintro m _ ⟨log, rfl⟩
    rfl

theorem concurs_callLocal (h : CallsAlike link) (name : String) (args : List Value) (info : Info) :
    Concurs Machine.Alike (callLocal link name args info) := by
  refine .reading (fun m => ?_) ?_
  · dsimp only
    split
    · exact h _ _ _
    · split
      · exact h _ _ _
      · split
        · exact .ofExcept _
        · exact .throw _
  · rintro m _ ⟨log, rfl⟩
    rfl

theorem concurs_callRemote (h : CallsAlike link) (inside : Bool) (module name : String) (args : List Value)
    (info : Info) : Concurs Machine.Alike (callRemote link inside module name args info) := by
  unfold callRemote
  split
  · exact .ofExcept _
  · refine .reading (fun m => ?_) ?_
    · split
      · exact .throw _
      · split
        · exact .throw _
        · split
          · exact h _ _ _
          · exact .throw _
    · rintro m _ ⟨log, rfl⟩
      rfl

theorem concurs_atHome {α : Type} {next : Home → Eval α} (h : ∀ home, Concurs Machine.Alike (next home)) :
    Concurs Machine.Alike (get >>= fun m => next m.home) := by
  refine .reading (fun m => h m.home) ?_
  rintro m _ ⟨log, rfl⟩
  rfl

/-- Evaluation has the same outcome in alike machines. -/
theorem alike_laws (h : CallsAlike link) :
    Laws link link (fun _ => True) (fun _ => True) (fun _ => True) fun _ code _ => Concurs Machine.Alike code where
  pure := .pure
  throw e _ := .throw e
  andThen := .andThen
  atHome _ := concurs_atHome
  lookup info _ := by
    refine .reading (fun m => ?_) ?_
    · split
      · exact .pure _
      · exact .throw _
    · rintro m _ ⟨log, rfl⟩
      rfl
  bind v _ := by
    refine .modify ?_
    rintro m _ ⟨log, rfl⟩
    exact ⟨log, rfl⟩
  define _ := concurs_define _ _ _
  callLocal := concurs_callLocal h
  callRemote module name args info := concurs_atHome fun _ => concurs_callRemote h _ module name args info

theorem concurs_evaluateBody (h : CallsAlike link) (last : Value) (forms : List Value) :
    Concurs Machine.Alike (evaluateBody link last forms) :=
  (alike_laws h).evaluateBody last fun _ _ =>
    (alike_laws h).evaluate ⟨fun _ _ => trivial, fun _ _ => trivial⟩ fun _ _ => trivial

theorem concurs_inFrame {α : Type} (home : Home) (env : Env) {code : Eval α} (h : Concurs Machine.Alike code) :
    Concurs Machine.Alike (inFrame home env code) := by
  rintro m _ ⟨log, rfl⟩
  have hcode := h (Machine.alike_of_worlds home env true ⟨log, rfl⟩ : Machine.Alike ⟨m.world, home, env, true⟩ _)
  unfold inFrame
  generalize code _ = r at hcode
  generalize code _ = r' at hcode
  cases hcode with
  | ok hm =>
    obtain ⟨log', rfl⟩ := hm
    exact .ok ⟨log', rfl⟩
  | error hm =>
    obtain ⟨log', rfl⟩ := hm
    exact .error ⟨log', rfl⟩

/-- By induction on how deep calls may nest: a body is evaluated with one level less. -/
theorem callsAlike_within (imported : Imports) (depth : Nat) : CallsAlike (.within imported depth) := by
  induction depth with
  | zero => exact fun _ _ _ => .throw _
  | succ depth ih => exact fun home f args => concurs_inFrame home _ (concurs_evaluateBody ih .nil f.body)

end Eval

namespace World

variable {link : Linkage}

theorem concurs_runIn {α : Type} (home : Home) (env : Env) {code : Eval α} (h : Concurs Machine.Alike code) :
    Concurs World.Alike (runIn home env code) := by
  intro w w' hw
  have hcode := h (Machine.alike_of_worlds home env false hw)
  unfold runIn
  generalize code _ = r at hcode
  generalize code _ = r' at hcode
  cases hcode with
  | ok hm => exact .ok hm.world
  | error hm => exact .error hm.world

theorem concurs_script (h : Eval.CallsAlike link) (home : Home) (forms : List Value) :
    Concurs World.Alike (script link home forms) :=
  concurs_runIn home [] (Eval.concurs_evaluateBody h .nil forms)

theorem concurs_call (h : Eval.CallsAlike link) (module name : String) (args : List Value) (info : Info) :
    Concurs World.Alike (call link module name args info) :=
  concurs_runIn _ [] (Eval.concurs_callRemote h _ _ _ _ _)

theorem concurs_runMacro (h : Eval.CallsAlike link) (body : MacroBody) (args : List Value) :
    Concurs World.Alike (runMacro link body args) := by
  rintro w _ ⟨log, rfl⟩
  exact concurs_runIn _ _ (Eval.concurs_evaluateBody h .nil body.forms) ⟨log, rfl⟩

theorem concurs_load (h : Eval.CallsAlike link) (name : String) (forms : List Value)
    (declarations : Option DeclarationSource) : Concurs World.Alike (load link name forms declarations) := by
  rintro w _ ⟨log, rfl⟩
  have hsame : isLoaded { w with log } name = w.isLoaded name := rfl
  unfold load defineModule
  rw [hsame]
  cases w.isLoaded name with
  | true => exact .error ⟨log, rfl⟩
  | false =>
    have hscript := concurs_script h (.loaded name) forms
      (⟨log, rfl⟩ : Alike { w with modules := w.modules ++ [{ name, declarations }] } _)
    simp only [Bool.false_eq_true, if_false]
    generalize script link (.loaded name) forms _ = r at hscript
    generalize script link (.loaded name) forms _ = r' at hscript
    cases hscript with
    | ok hw =>
      obtain ⟨log', rfl⟩ := hw
      exact .ok ⟨_, rfl⟩
    | error hw =>
      obtain ⟨log', rfl⟩ := hw
      exact .error ⟨_, rfl⟩

end World

end MacroLang
