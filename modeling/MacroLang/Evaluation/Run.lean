import MacroLang.Evaluation.Basic

/-!
# Running code in the world

Modules are loaded, scripts are run, functions are called from outside, and the bodies of macros are run on the
arguments of a call. Whatever the code did to the world before it failed stays done, but a module whose loading
fails is unloaded.
-/

namespace MacroLang

/-- A macro body written in source: it runs in its scope with the parameters bound to the arguments. -/
structure MacroBody where
  scope : String
  params : List Variable
  forms : List Value
  declarations : Option DeclarationSource := none

namespace World

/-- Runs code in a module, outside of function bodies, and keeps the world that it leaves. -/
def runIn {α : Type} (home : Home) (env : Env) (code : Eval α) : EStateM Error World α := fun w =>
  match code { world := w, home, env } with
  | .ok a m => .ok a m.world
  | .error e m => .error e m.world

/-- Evaluates forms in a module and returns the last value. -/
def script (link : Linkage) (home : Home) (forms : List Value) : EStateM Error World Value :=
  runIn home [] (evaluateBody link .nil forms)

/-- Loads a module by evaluating its body, which defines its functions. -/
def load (link : Linkage) (name : String) (forms : List Value)
    (declarations : Option DeclarationSource) : EStateM Error World Unit := fun w =>
  match w.defineModule name declarations with
  | .error e => .error e w
  | .ok w => match script link (.loaded name) forms w with
    | .error e w => .error e (w.unload name)
    | .ok _ w =>
      let count := ((w.module? name).map (·.functions.length)).getD 0
      .ok () (w.debug ("Loaded module " ++ name ++ " with " ++ toString count ++ " functions"))

/-- Calls a public function from outside any module. -/
def call (link : Linkage) (module name : String) (args : List Value) (info : Info) :
    EStateM Error World Value :=
  runIn (.unlisted { name := module }) [] (Eval.callRemote link false module name args info)

/-- Runs the body of a macro on the arguments of a call, as they are written. -/
def runMacro (link : Linkage) (body : MacroBody) (args : List Value) : EStateM Error World Value :=
  fun w => runIn (.ofScope w body.scope body.declarations) (.ofArgs body.params args)
    (evaluateBody link .nil body.forms) w

end World

end MacroLang
