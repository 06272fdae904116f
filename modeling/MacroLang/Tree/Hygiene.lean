import MacroLang.Tree.Shape

/-!
# Hygiene

A variable is bound under its name and its context together, so a variable that a quote introduces never
meets one of the same name written elsewhere. `var!` opts out: it takes a variable to the place of use, or to
a named scope, and marks it so that quotes keep its context.
-/

namespace MacroLang

/-- What a variable is bound under. -/
structure Variable where
  name : String
  context : Context
deriving DecidableEq, Repr

namespace Value

def binding? : Value → Option Variable
  | var name c _ => some ⟨name, c⟩
  | _ => none

/-- Do two values refer to the same binding? -/
def sameBinding (a b : Value) : Bool :=
  match a.binding?, b.binding? with
  | some x, some y => x == y
  | _, _ => false

/-- The variable, moved to the target scope or, without one, to the place of use, and marked as escaped.
An atom counts as a variable of that name. -/
def escape (v target : Value) : Except Error Value :=
  match v with
  | var name _ info => do return var name (← Context.ofValue target) info.markEscaped
  | atom name => do return var name (← Context.ofValue target) (Info.markEscaped {})
  | v => .error ((Cause.escapeOperand v).on v.infoD)

/-- The variable that `var!` with these arguments stands for. -/
def escapeArgs (args : List Value) (info : Info) : Except Error Value :=
  match args with
  | [v] => v.escape nothing
  | [v, atom name] => v.escape (atom name)
  | [v, text name] => v.escape (text name)
  | [_, target] => .error ((Cause.escapeTarget target).on info)
  | args => .error ((Cause.escapeArity args.length).on info)

end Value

end MacroLang
