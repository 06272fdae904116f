import MacroLang.Expansion.Basic

/-!
# Expansion by recursion

Expansion in plain words, without a stack of tasks: `Expander.walk` goes down a tree from left to right, heads before
arguments, and puts every node together from its expanded parts. What becomes of a macro call is left open there.
`Expander.expandWithin` fills it in: the macro replaces the call, and its result is expanded in turn, with one
replacement less to go.
-/

namespace MacroLang.Expander

variable {β : Type}

mutual

/-- Expands a value; `onMacro` expands the calls of macros in it. -/
def walk (x : Expander β) (scope : String)
    (onMacro : Macro β → List Value → Info → Expand β Expanded) : Value → Expand β Expanded
  | .list items => do return finishList (← walkAll x scope onMacro items)
  | .tuple items => do
    let items ← walkAll x scope onMacro items
    ofExcept (finishTuple items)
  | .call name args info => do
    match x.resolve (← get).session scope (.call name args info) with
    | some m => onMacro m args info
    | none =>
      if isSealed name then return ⟨.call name args info, false⟩
      else if name == "unquote" || name == "unquote_splicing" then
        throw ((Cause.outsideQuote name).on info)
      else if name == "var!" then return ⟨← ofExcept (Value.escapeArgs args info), true⟩
      else if name == "__MODULE__" && args.isEmpty then
        return ⟨← ofExcept (Value.buildAtom scope {}), true⟩
      else do
        let args ← walkAll x scope onMacro args
        x.finishCall scope name info args
  | .apply head args info => do
    let s := (← get).session
    match x.resolve s scope (.apply head args info) with
    | some m => onMacro m args info
    | none => match head.remote? with
      | some (module, function) => do
        let full ← ofExcept (x.expandHead s scope (info.context.getD .direct) head module function)
        let args ← walkAll x scope onMacro args
        ofExcept (finishApply info ⟨full, !head.isResolved⟩ args)
      | none => do
        let head ← walk x scope onMacro head
        let args ← walkAll x scope onMacro args
        ofExcept (finishApply info head args)
  | v => do
    let _ ← ofExcept v.kind
    return ⟨v, false⟩

/-- Expands some values in order. -/
def walkAll (x : Expander β) (scope : String)
    (onMacro : Macro β → List Value → Info → Expand β Expanded) :
    List Value → Expand β (List Expanded)
  | [] => return []
  | v :: vs => do
    let e ← walk x scope onMacro v
    let es ← walkAll x scope onMacro vs
    return e :: es

end

/-- Expands a value in which macro calls may be replaced at most `budget` times over. -/
def expandWithin (x : Expander β) (scope : String) : Nat → Value → Expand β Expanded
  | 0 => x.walk scope fun m _ info =>
    throw ((Cause.depthExceeded m.name m.arity x.maxDepth).on info)
  | budget + 1 => x.walk scope fun m args info => do
    let result ← x.invoke m args info
    let e ← expandWithin x scope budget result
    return ⟨e.value, true⟩

end MacroLang.Expander
