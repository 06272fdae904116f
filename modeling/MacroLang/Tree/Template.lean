import MacroLang.Tree.Hygiene

/-!
# Quoting

A quote turns a fragment into a tree. Variables written in the fragment get the context of the quote, unless
they are escaped; calls written in it record that context. A placeholder stands for a value made elsewhere,
which goes in as it is (`Value.inject`), and a spliced sequence goes into the enclosing list member by member.
-/

namespace MacroLang.Value

/-- A value that takes the place of a placeholder with the given annotations. It has to be a tree. -/
def inject (v : Value) (info : Info) : Except Error Value :=
  match v.validate with
  | .ok () => .ok v
  | .error (.located why _ _) => .error ((Cause.cannotUnquote v why).on info)
  | .error e => .error e

def injectAll (info : Info) : List Value → Except Error (List Value)
  | [] => .ok []
  | v :: vs => do
    let v ← v.inject info
    let vs ← injectAll info vs
    return v :: vs

/-- The members of a sequence that takes the place of a splicing placeholder. -/
def injectItems (v : Value) (info : Info) : Except Error (List Value) :=
  match v.items? with
  | some items => injectAll info items
  | none => .error ((Cause.spliceOperand v).on info)

/-- An atom in the place of a head is the name of the call. -/
def headOfInjected : Value → Value
  | atom name => text name
  | v => v

mutual

/-- The tree of a fragment, quoted in context `c`. -/
def quote (c : Context) : Value → Except Error Value
  | unquote v info => v.inject info
  | splice _ info => .error (Cause.splicePlace.on info)
  | var name d info =>
    .ok (if info.isEscaped || d == c then var name d info else var name c info)
  | call name args info => do return call name (← quoteAll c args) (info.withContext c)
  | apply head args info => do
    let head ← match head with
      | unquote v i => headOfInjected <$> v.inject i
      | head => quote c head
    let args ← quoteAll c args
    checkHead info head
    return withHead head args (info.withContext c)
  | list items => do return list (← quoteAll c items)
  | tuple items => match items with
    | [left, right] => do
      let left ← quote c left
      let right ← quote c right
      return pair left right
    | items => .error (Cause.notTree (tuple items)).nowhere
  | v => do
    let _ ← v.kind
    return v

/-- The members of a quoted list or argument list, with spliced sequences in place. -/
def quoteAll (c : Context) : List Value → Except Error (List Value)
  | [] => .ok []
  | splice v info :: rest => do
    let items ← v.injectItems info
    let rest ← quoteAll c rest
    return items ++ rest
  | v :: rest => do
    let v ← quote c v
    let rest ← quoteAll c rest
    return v :: rest

end

end MacroLang.Value
