import MacroLang.Evaluation.Run

/-!
# The definitions in a tree

`Value.definitions` lists the `def` and `defp` forms that the evaluation of a tree can come to. What stands inside of
such a form is not evaluated and does not count. Neither does what stands in a quote, except for the operands of
`unquote` and `unquote_splicing` (`Value.quotedDefinitions`). A form stands for one function at most
(`Function.ofForm?`), so the body of a macro names all functions that it can define (`MacroBody.definitions`).
-/

namespace MacroLang

namespace Value

mutual

/-- The definitions that evaluating a value can come to. -/
def definitions : Value → List Value
  | call name args info => match Form.ofName? name with
    | some .define => [call name args info]
    | some .quote => quotedDefinitionsAll args
    | some .escape | some .currentModule | some .defineMacro | some .declare => []
    | _ => definitionsAll args
  | apply _ args _ => definitionsAll args
  | list items | tuple items => definitionsAll items
  | _ => []

def definitionsAll : List Value → List Value
  | [] => []
  | v :: vs => definitions v ++ definitionsAll vs

/-- Those that it can come to in the body of a quote. -/
def quotedDefinitions : Value → List Value
  | call name args _ => match name with
    | "unquote" | "unquote_splicing" => definitionsAll args
    | "var!" | "quote" => []
    | _ => quotedDefinitionsAll args
  | apply head args _ => quotedDefinitions head ++ quotedDefinitionsAll args
  | list items | tuple items => quotedDefinitionsAll items
  | _ => []

def quotedDefinitionsAll : List Value → List Value
  | [] => []
  | v :: vs => quotedDefinitions v ++ quotedDefinitionsAll vs

end

theorem mem_definitionsAll {vs : List Value} {d : Value} : d ∈ definitionsAll vs ↔ ∃ v ∈ vs, d ∈ v.definitions := by
  induction vs with
  | nil => simp [definitionsAll]
  | cons v vs ih => simp [definitionsAll, ih]

theorem mem_quotedDefinitionsAll {vs : List Value} {d : Value} :
    d ∈ quotedDefinitionsAll vs ↔ ∃ v ∈ vs, d ∈ v.quotedDefinitions := by
  induction vs with
  | nil => simp [quotedDefinitionsAll]
  | cons v vs ih => simp [quotedDefinitionsAll, ih]

end Value

/-- The function that a definition stands for in a module. -/
def Function.ofForm? (module : String) : Value → Option Function
  | .call form args info => (Definition.ofForm form args info).toOption.map fun d =>
    { module, name := d.name, params := d.params, body := d.body, isPublic := form == "def" }
  | _ => none

/-- The functions that running the body of a macro can define in the module of its scope. -/
def MacroBody.definitions (b : MacroBody) : List Function :=
  (Value.definitionsAll b.forms).filterMap (Function.ofForm? b.scope)

end MacroLang
