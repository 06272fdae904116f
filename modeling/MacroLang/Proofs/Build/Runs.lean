import MacroLang.Proofs.Build.Alike
import MacroLang.Proofs.Build.History

/-!
# Compiled code leaves no traces

A function that is called and a script that is run again may define functions, but only in a module that is thrown
away, and they log what they do. So a run leaves a compiler as it was, apart from the log (`Run.maintains_code`), and no
run reads the log (`Run.alike_code`). Hence one run after the other comes to what each of them comes to alone.

Main statement: `runs_leave_no_trace`.
-/

namespace MacroLang

open Compilation

/-- A use of compiled code. -/
inductive Run where
  /-- Call a function by its full name. -/
  | function (name : String) (args : List Value)
  /-- Run the script of a unit. -/
  | script (u : CompiledUnit)

def Run.code (o : Settings) : Run → Compile Value
  | function name args => callFunction o name args
  | script u => runUnit o u

/-- The value or the error that code came to. -/
def outcome {ε σ α : Type} : EStateM.Result ε σ α → Except ε α
  | .ok a _ => .ok a
  | .error e _ => .error e

/-- What some runs come to, one after the other, and the state in which they leave the compiler. A run that fails does
not keep the next one from being made. -/
def performRuns (o : Settings) : List Run → Compilation MacroBody → List (Except Error Value) × Compilation MacroBody
  | [], c => ([], c)
  | r :: rs, c =>
    let result := r.code o c
    let (outcomes, c') := performRuns o rs (finalState result)
    (outcome result :: outcomes, c')

/-- The compilation `c'` is `c` with another log. -/
def Compilation.Relogs (c c' : Compilation MacroBody) : Prop :=
  ∃ log, c' = { c with world := { c.world with log } }

theorem Compilation.Relogs.alike {c c' : Compilation MacroBody} (h : c.Relogs c') : c.Alike c' := by
  obtain ⟨log, rfl⟩ := h
  exact ⟨log, c.warnings, rfl⟩

theorem Compilation.Relogs.symm {c c' : Compilation MacroBody} (h : c.Relogs c') : c'.Relogs c := by
  obtain ⟨log, rfl⟩ := h
  exact ⟨c.world.log, rfl⟩

theorem Compilation.Relogs.trans {c c' c'' : Compilation MacroBody} (h : c.Relogs c') (h' : c'.Relogs c'') :
    c.Relogs c'' := by
  obtain ⟨log, rfl⟩ := h
  obtain ⟨log', rfl⟩ := h'
  exact ⟨log', rfl⟩

theorem mindsModules_relogs (c : Compilation MacroBody) : MindsModules c.Relogs := by
  rintro _ ⟨modules, log'⟩ ⟨log, rfl⟩ hmodules
  cases hmodules
  exact ⟨log', rfl⟩

/-- Runs from alike states come to the same. -/
theorem Concur.outcome_eq {ε σ α : Type} {R : σ → σ → Prop} {r r' : EStateM.Result ε σ α} (h : Concur R r r') :
    outcome r' = outcome r := by
  cases h with
  | ok _ => rfl
  | error _ => rfl

namespace Run

variable {o : Settings}

/-- A run leaves the compiler as it was, also if it fails. -/
theorem maintains_code (r : Run) (c : Compilation MacroBody) :
    Maintains c.Relogs (·.isConflict = false) (r.code o) := by
  cases r with
  | function name args => exact maintains_callFunction (mindsModules_relogs c) name args
  | script u => exact maintains_runForms (mindsModules_relogs c) _ _

/-- No run reads the log. -/
theorem alike_code (r : Run) : Concurs Alike (r.code o) := by
  cases r with
  | function name args =>
    refine .andThen (.ofExcept _) fun (module, f) => .reading (fun c => ?_) ?_
    · exact Expand.alike_onWorld (World.concurs_call (Eval.callsAlike_within _ _) _ _ _ _)
    · rintro c _ ⟨log, warnings, rfl⟩
      rfl
  | script u => exact Build.alike_runForms _ _

end Run

/-- Some runs of compiled code, one after the other, each of which may fail, leave the compiler as it was: its modules
with their functions, the published scopes, the macros and declarations of all registries, everything but the log. And
each comes to what it would have come to alone and first, whichever runs came before it. -/
theorem runs_leave_no_trace (o : Settings) (runs : List Run) (c : Compilation MacroBody) :
    (performRuns o runs c).1 = runs.map (fun r => outcome (r.code o c)) ∧
      ∃ log, (performRuns o runs c).2 = { c with world := { c.world with log } } := by
  -- by induction on the runs: what is known of the state after the first one carries over to the next
  suffices h : ∀ c', c.Relogs c' →
      (performRuns o runs c').1 = runs.map (fun r => outcome (r.code o c)) ∧ c.Relogs (performRuns o runs c').2 from
    h c ⟨c.world.log, rfl⟩
  induction runs with
  | nil => exact fun c' hc' => ⟨rfl, hc'⟩
  | cons r rs ih =>
    intro c' hc'
    obtain ⟨houtcomes, hfinal⟩ := ih _ ((r.maintains_code c).finalState hc')
    have hfirst : outcome (r.code o c') = outcome (r.code o c) := (r.alike_code hc'.alike).outcome_eq
    exact ⟨congrArg₂ List.cons hfirst houtcomes, hfinal⟩

end MacroLang
