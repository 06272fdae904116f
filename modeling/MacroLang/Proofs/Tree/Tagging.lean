import MacroLang.Proofs.Code
import MacroLang.Proofs.Tree.Shape
import MacroLang.Tree.Template

/-!
# Quoting trees

A tree has no placeholders. A quote of it gives its context to the variables that are not escaped, records it in the
calls, and does nothing else (`Value.quote_of_isTree`). So a later quote covers up an earlier one, and every part of the
tree is what it was, but for the context that the last quote put there.

Main statement: `Value.quote_quote`. The parts of a tree are named by their positions (`Value.part?`), and a part is
compared with the one that it has become (`Value.Retagged`).
-/

namespace MacroLang.Value

mutual

/-- The heads of calls are nodes. -/
def isHeaded : Value → Bool
  | call _ args _ => areHeaded args
  | apply head args _ => head.isNode && isHeaded head && areHeaded args
  | list items | tuple items => areHeaded items
  | _ => true

def areHeaded : List Value → Bool
  | [] => true
  | v :: vs => isHeaded v && areHeaded vs

end

theorem areHeaded_iff {vs : List Value} : areHeaded vs = true ↔ ∀ v ∈ vs, v.isHeaded = true := by
  induction vs with
  | nil => simp [areHeaded]
  | cons v vs ih => rw [areHeaded, Bool.and_eq_true, ih, List.forall_mem_cons]

/-! ## Tags -/

/-- The variable in context `c`, unless it is escaped. -/
def taggedVar (c : Context) (name : String) (d : Context) (info : Info) : Value :=
  if info.isEscaped then var name d info else var name c info

mutual

/-- The tree with the context `c` in all variables that are not escaped, and in all calls. -/
def tagged (c : Context) : Value → Value
  | var name d info => taggedVar c name d info
  | call name args info => call name (taggedAll c args) (info.withContext c)
  | apply head args info => apply (tagged c head) (taggedAll c args) (info.withContext c)
  | list items => list (taggedAll c items)
  | tuple items => tuple (taggedAll c items)
  | v => v

def taggedAll (c : Context) : List Value → List Value
  | [] => []
  | v :: vs => tagged c v :: taggedAll c vs

end

theorem taggedAll_eq_map (c : Context) (vs : List Value) : taggedAll c vs = vs.map (tagged c) := by
  induction vs with
  | nil => rw [taggedAll, List.map_nil]
  | cons v vs ih => rw [taggedAll, List.map_cons, ih]

theorem isNode_tagged (c : Context) (v : Value) : (v.tagged c).isNode = v.isNode := by
  cases v with
  | var name d info => rw [tagged, taggedVar]; split <;> rfl
  | _ => rfl

theorem taggedVar_eq (c : Context) (name : String) (d : Context) (info : Info) :
    taggedVar c name d info = var name (if info.isEscaped then d else c) info := by
  unfold taggedVar
  split <;> rfl

/-- The last tag covers up those before it. -/
theorem tagged_tagged (c₁ c₂ : Context) (v : Value) : (v.tagged c₁).tagged c₂ = v.tagged c₂ := by
  have hall : ∀ vs : List Value, (∀ v ∈ vs, (v.tagged c₁).tagged c₂ = v.tagged c₂) →
      taggedAll c₂ (taggedAll c₁ vs) = taggedAll c₂ vs := by
    intro vs h
    rw [taggedAll_eq_map, taggedAll_eq_map, taggedAll_eq_map, List.map_map]
    exact List.map_congr_left h
  induction v using treeInduction with
  | call name args info ih =>
    rw [tagged, tagged, tagged, hall args ih]
    rfl
  | apply head args info ihHead ih =>
    rw [tagged, tagged, tagged, hall args ih, ihHead]
    rfl
  | var name d info =>
    rw [tagged, tagged, taggedVar_eq, tagged, taggedVar_eq, taggedVar_eq]
    by_cases hescaped : info.isEscaped = true
    · rw [if_pos hescaped, if_pos hescaped, if_pos hescaped]
    · rw [if_neg hescaped, if_neg hescaped]
  | list items ih => rw [tagged, tagged, tagged, hall items ih]
  | tuple items ih => rw [tagged, tagged, tagged, hall items ih]
  | _ => rfl

theorem isTree_tagged (c : Context) (v : Value) : v.isTree = true → (v.tagged c).isTree = true := by
  induction v using treeInduction with
  | call name args info ih =>
    intro htree
    rw [tagged, isTree_call, taggedAll_eq_map, List.forall_mem_map]
    exact fun v hv => ih v hv (isTree_call.1 htree v hv)
  | apply head args info ihHead ih =>
    intro htree
    obtain ⟨hhead, hargs⟩ := isTree_apply.1 htree
    rw [tagged, isTree_apply, taggedAll_eq_map, List.forall_mem_map]
    exact ⟨ihHead hhead, fun v hv => ih v hv (hargs v hv)⟩
  | var name d info =>
    intro _
    rw [tagged, taggedVar_eq]
    rfl
  | list items ih =>
    intro htree
    rw [tagged, isTree_list, taggedAll_eq_map, List.forall_mem_map]
    exact fun v hv => ih v hv (isTree_list.1 htree v hv)
  | tuple items ih =>
    intro htree
    obtain ⟨left, right, rfl, hl, hr⟩ := isTree_tuple.1 htree
    exact isTree_tuple.2 ⟨left.tagged c, right.tagged c, rfl, ih left (by simp) hl, ih right (by simp) hr⟩
  | _ => exact id

theorem isHeaded_tagged (c : Context) (v : Value) : v.isHeaded = true → (v.tagged c).isHeaded = true := by
  induction v using treeInduction with
  | call name args info ih =>
    intro hheaded
    rw [tagged, isHeaded, areHeaded_iff, taggedAll_eq_map, List.forall_mem_map]
    exact fun v hv => ih v hv (areHeaded_iff.1 hheaded v hv)
  | apply head args info ihHead ih =>
    intro hheaded
    rw [isHeaded, Bool.and_eq_true, Bool.and_eq_true, areHeaded_iff] at hheaded
    obtain ⟨⟨hnode, hhead⟩, hargs⟩ := hheaded
    rw [tagged, isHeaded, Bool.and_eq_true, Bool.and_eq_true, areHeaded_iff, taggedAll_eq_map, List.forall_mem_map]
    exact ⟨⟨(isNode_tagged c head).trans hnode, ihHead hhead⟩, fun v hv => ih v hv (hargs v hv)⟩
  | var name d info =>
    intro _
    rw [tagged, taggedVar_eq]
    rfl
  | list items ih | tuple items ih =>
    intro hheaded
    rw [tagged, isHeaded, areHeaded_iff, taggedAll_eq_map, List.forall_mem_map]
    exact fun v hv => ih v hv (areHeaded_iff.1 hheaded v hv)
  | _ => exact id

/-! ## Quotes -/

theorem quote_var (c : Context) (name : String) (d : Context) (info : Info) :
    (var name d info).quote c = .ok (taggedVar c name d info) := by
  rw [quote, taggedVar]
  by_cases hescaped : info.isEscaped = true
  · simp [hescaped]
  · by_cases hsame : d = c
    · simp [hsame]
    · simp [hescaped, hsame]

theorem checkHead_of_isNode {head : Value} (h : head.isNode = true) (info : Info) : checkHead info head = .ok () := by
  cases head with
  | call | apply | var => rfl
  | _ => cases h

theorem quoteAll_of_trees {c : Context} {vs : List Value} (hvs : ∀ v ∈ vs, v.isTree = true)
    (h : ∀ v ∈ vs, v.quote c = .ok (v.tagged c)) : quoteAll c vs = .ok (taggedAll c vs) := by
  induction vs with
  | nil => rw [quoteAll, taggedAll]
  | cons v vs ih =>
    rw [List.forall_mem_cons] at hvs h
    rw [quoteAll, h.1, ih hvs.2 h.2, taggedAll]
    · rfl
    · rintro u info rfl
      cases hvs.1

/-- Quoting the head of a call. -/
def quoteHead (c : Context) (head : Value) : Except Error Value :=
  match head with
  | unquote v info => headOfInjected <$> v.inject info
  | head => head.quote c

theorem quote_apply_eq (c : Context) (head : Value) (args : List Value) (info : Info) :
    (apply head args info).quote c = (do
      let head ← head.quoteHead c
      let args ← quoteAll c args
      checkHead info head
      return withHead head args (info.withContext c)) := by
  rw [quote.eq_def]
  cases head <;> rfl

theorem quoteHead_of_not_unquote {head : Value} (h : ∀ v info, head ≠ unquote v info) (c : Context) :
    head.quoteHead c = head.quote c := by
  cases head with
  | unquote v info => exact absurd rfl (h v info)
  | _ => rfl

/-- Quoting a member of a list. -/
def quoteMember (c : Context) (member : Value) : Except Error (List Value) :=
  match member with
  | splice v info => v.injectItems info
  | member => do return [← member.quote c]

theorem quoteMember_of_not_splice {member : Value} (h : ∀ v info, member ≠ splice v info) {c : Context}
    {vs : List Value} : member.quoteMember c = .ok vs ↔ ∃ v, member.quote c = .ok v ∧ vs = [v] := by
  have hmember : member.quoteMember c = (do return [← member.quote c]) := by
    cases member with
    | splice v info => exact absurd rfl (h v info)
    | _ => rfl
  rw [hmember, except_bind_eq_ok]
  exact exists_congr fun v => and_congr_right fun _ => ⟨fun h => by cases h; rfl, fun h => by rw [h]; rfl⟩

theorem quoteAll_cons_eq (c : Context) (v : Value) (vs : List Value) :
    quoteAll c (v :: vs) = (do
      let first ← v.quoteMember c
      let rest ← quoteAll c vs
      return first ++ rest) := by
  cases v with
  | splice u info => rw [quoteAll]; rfl
  | _ =>
    rw [quoteAll, quoteMember]
    · cases quote c _ <;> rfl
    all_goals
      intro _ _ h
      cases h

theorem isNode_withHead (head : Value) (args : List Value) (info : Info) : (withHead head args info).isNode = true := by
  cases head <;> rfl

theorem isNode_of_quote {c : Context} {v u : Value} (hv : v.isNode = true) (h : v.quote c = .ok u) :
    u.isNode = true := by
  cases v with
  | var name d info =>
    rw [quote_var] at h
    cases h
    rw [← tagged, isNode_tagged]
    rfl
  | call name args info =>
    rw [quote] at h
    obtain ⟨_, -, hu⟩ := except_bind_eq_ok.1 h
    cases hu
    rfl
  | apply head args info =>
    rw [quote_apply_eq] at h
    obtain ⟨_, -, h⟩ := except_bind_eq_ok.1 h
    obtain ⟨_, -, h⟩ := except_bind_eq_ok.1 h
    obtain ⟨_, -, h⟩ := except_bind_eq_ok.1 h
    cases h
    exact isNode_withHead ..
  | _ => cases hv

/-- A tree has no placeholders, so that quoting tags it and does nothing else. -/
theorem quote_of_isTree (c : Context) (v : Value) : v.isTree = true → v.isHeaded = true →
    v.quote c = .ok (v.tagged c) := by
  induction v using treeInduction with
  | call name args info ih =>
    intro htree hheaded
    have hargs := isTree_call.1 htree
    have hall := quoteAll_of_trees hargs fun v hv => ih v hv (hargs v hv) (areHeaded_iff.1 hheaded v hv)
    rw [quote, hall]
    rfl
  | apply head args info ihHead ih =>
    intro htree hheaded
    obtain ⟨hhead, hargs⟩ := isTree_apply.1 htree
    rw [isHeaded, Bool.and_eq_true, Bool.and_eq_true, areHeaded_iff] at hheaded
    obtain ⟨⟨hnode, hheadHeaded⟩, hheaded⟩ := hheaded
    have hall := quoteAll_of_trees hargs fun v hv => ih v hv (hargs v hv) (hheaded v hv)
    have hplain : ∀ v i, head ≠ unquote v i := by
      rintro v i rfl
      cases hnode
    have hnode' : (head.tagged c).isNode = true := (isNode_tagged c head).trans hnode
    rw [quote_apply_eq, quoteHead_of_not_unquote hplain, ihHead hhead hheadHeaded, hall]
    simp only [bind, Except.bind, checkHead_of_isNode hnode', withHead_of_isNode hnode']
    rfl
  | var name d info =>
    intro _ _
    exact quote_var c name d info
  | list items ih =>
    intro htree hheaded
    have hitems := isTree_list.1 htree
    have hall := quoteAll_of_trees hitems fun v hv => ih v hv (hitems v hv) (areHeaded_iff.1 hheaded v hv)
    rw [quote, hall]
    rfl
  | tuple items ih =>
    intro htree hheaded
    obtain ⟨left, right, rfl, hl, hr⟩ := isTree_tuple.1 htree
    have hparts := areHeaded_iff.1 hheaded
    rw [quote, ih left (by simp) hl (hparts left (by simp)), ih right (by simp) hr (hparts right (by simp))]
    rfl
  | atom | number | text =>
    intro _ _
    rfl
  | _ =>
    intro htree
    cases htree

/-! ## Positions -/

/-- The parts of a value: the head of a call, if it is a node, and the arguments or members. -/
def parts : Value → List Value
  | call _ args _ => args
  | apply head args _ => head :: args
  | list items | tuple items => items
  | _ => []

/-- The part of a value at a position, which is given by the numbers of the parts on the way there. -/
def part? (v : Value) : List Nat → Option Value
  | [] => some v
  | n :: position => v.parts[n]?.bind (·.part? position)

/-- A part and what has become of it in context `c`: a variable is in this context unless it is escaped, a call records
the context, and otherwise there is no change outside the parts of the part. -/
inductive Retagged (c : Context) : Value → Value → Prop where
  | call {name : String} {args args' : List Value} {info : Info} : args'.length = args.length →
    Retagged c (call name args info) (call name args' { info with context := some c })
  | apply {head head' : Value} {args args' : List Value} {info : Info} : args'.length = args.length →
    Retagged c (apply head args info) (apply head' args' { info with context := some c })
  | escaped {name : String} {d : Context} {info : Info} : info.isEscaped = true →
    Retagged c (var name d info) (var name d info)
  | var {name : String} {d : Context} {info : Info} : info.isEscaped = false →
    Retagged c (var name d info) (var name c info)
  | atom {name : String} : Retagged c (atom name) (atom name)
  | number {n : Number} : Retagged c (number n) (number n)
  | text {s : String} : Retagged c (text s) (text s)
  | list {items items' : List Value} : items'.length = items.length → Retagged c (list items) (list items')
  | tuple {items items' : List Value} : items'.length = items.length → Retagged c (tuple items) (tuple items')

theorem isTree_of_mem_parts {v part : Value} (hv : v.isTree = true) (h : part ∈ v.parts) : part.isTree = true := by
  cases v with
  | call name args info => exact isTree_call.1 hv part h
  | apply head args info =>
    obtain ⟨hhead, hargs⟩ := isTree_apply.1 hv
    rcases List.mem_cons.1 h with rfl | h
    · exact hhead
    · exact hargs part h
  | list items => exact isTree_list.1 hv part h
  | tuple items =>
    obtain ⟨left, right, rfl, hl, hr⟩ := isTree_tuple.1 hv
    rcases List.mem_cons.1 h with rfl | h
    · exact hl
    · exact List.mem_singleton.1 h ▸ hr
  | _ => cases h

theorem isTree_of_part? {v part : Value} (hv : v.isTree = true) {position : List Nat}
    (h : v.part? position = some part) : part.isTree = true := by
  induction position generalizing v with
  | nil =>
    cases h
    exact hv
  | cons n position ih =>
    obtain ⟨u, hu, h⟩ := Option.bind_eq_some_iff.1 h
    exact ih (isTree_of_mem_parts hv (List.mem_of_getElem? hu)) h

theorem parts_tagged (c : Context) (v : Value) : (v.tagged c).parts = v.parts.map (tagged c) := by
  cases v with
  | call name args info => exact taggedAll_eq_map c args
  | apply head args info => exact congrArg (head.tagged c :: ·) (taggedAll_eq_map c args)
  | var name d info =>
    rw [tagged, taggedVar_eq]
    rfl
  | list items | tuple items => exact taggedAll_eq_map c items
  | _ => rfl

/-- A part of the tagged tree is the part of the tree at the same position, tagged. -/
theorem part?_tagged (c : Context) (v : Value) (position : List Nat) :
    (v.tagged c).part? position = (v.part? position).map (tagged c) := by
  induction position generalizing v with
  | nil => rfl
  | cons n position ih =>
    rw [part?, part?, parts_tagged, List.getElem?_map, Option.bind_map, Option.map_bind]
    exact congrArg (Option.bind _) (funext ih)

theorem retagged_tagged (c : Context) {v : Value} (h : v.isTree = true) : Retagged c v (v.tagged c) := by
  cases v with
  | call name args info => exact .call (by rw [taggedAll_eq_map, List.length_map])
  | apply head args info => exact .apply (by rw [taggedAll_eq_map, List.length_map])
  | var name d info =>
    rw [tagged, taggedVar]
    split
    · rename_i hescaped
      exact .escaped hescaped
    · rename_i hescaped
      exact .var (Bool.eq_false_iff.2 hescaped)
  | atom name => exact .atom
  | number n => exact .number
  | text s => exact .text
  | list items => exact .list (by rw [taggedAll_eq_map, List.length_map])
  | tuple items => exact .tuple (by rw [taggedAll_eq_map, List.length_map])
  | _ => cases h

/-- The last quote counts, and it changes nothing but contexts. Quoting a tree in one context and then in another comes
to the same as quoting it in the second one only. The result has the same positions as the tree. At each of them stands
what stood there, with the same name or literal and the same number of arguments or members; a variable has the context
of the quote, or its own if it is escaped; a call records the context of the quote, and its other annotations are kept,
as are all those of a variable. -/
theorem quote_quote {f : Value} (htree : f.isTree = true) (hheaded : f.isHeaded = true) (c₁ c₂ : Context) :
    ∃ v₁ v, f.quote c₁ = .ok v₁ ∧ v₁.quote c₂ = .ok v ∧ f.quote c₂ = .ok v ∧
      ∀ position, Option.Rel (Retagged c₂) (f.part? position) (v.part? position) := by
  refine ⟨f.tagged c₁, f.tagged c₂, quote_of_isTree c₁ f htree hheaded, ?_, quote_of_isTree c₂ f htree hheaded, ?_⟩
  · rw [quote_of_isTree c₂ _ (isTree_tagged c₁ f htree) (isHeaded_tagged c₁ f hheaded), tagged_tagged]
  · intro position
    rw [part?_tagged]
    cases hpart : f.part? position with
    | none => exact .none
    | some part => exact .some (retagged_tagged c₂ (isTree_of_part? htree hpart))

/-- Two variables behind a head that is a call, one of them escaped: the second quote decides the context of the other
variable and of both calls. -/
theorem quote_quote_escaped :
    let f : Value := .apply (.call "g" [] {}) [.var "x" (.quotedIn "A") {}, .var "y" .direct (Info.markEscaped {})] {}
    f.isTree = true ∧ f.isHeaded = true ∧
      ∃ v₁ v, f.quote (.quotedIn "B") = .ok v₁ ∧ v₁.quote (.quotedIn "C") = .ok v ∧ f.quote (.quotedIn "C") = .ok v ∧
        ∀ position, Option.Rel (Retagged (.quotedIn "C")) (f.part? position) (v.part? position) :=
  ⟨rfl, rfl, quote_quote rfl rfl (.quotedIn "B") (.quotedIn "C")⟩

end MacroLang.Value
