import MacroLang.Proofs.Tree.Shape
import MacroLang.Tree.Equality

/-!
# Equality up to annotations

A value has a form without annotations (`Value.bare`). As long as no doubles take part, `Value.same` compares exactly
these forms (`Value.same_iff_bare_eq`). With doubles it does not: an integer is the same as a double of that value, and
a double that is not a number is not the same as itself.

Values are put together from parts by an `Arrangement`. Whether two values of the same arrangement are the same is
decided by the parts alone, doubles or not (`Arrangement.same_fill_iff`).

Main statement: `Value.same_up_to_annotations`.
-/

namespace MacroLang

theorem Number.equal_int_iff {m n : Int} : (int m).equal (int n) = true ↔ m = n := by
  simp [equal, compare?]

namespace Value

/-! ## Values without annotations -/

mutual

/-- The value without annotations, with what `f` makes of the contexts of its variables. -/
def stripped (f : Context → Context) : Value → Value
  | call name args _ => call name (strippedAll f args) {}
  | apply head args _ => apply (stripped f head) (strippedAll f args) {}
  | var name c _ => var name (f c) {}
  | list items => list (strippedAll f items)
  | tuple items => tuple (strippedAll f items)
  | unquote v _ => unquote (stripped f v) {}
  | splice v _ => splice (stripped f v) {}
  | v => v

def strippedAll (f : Context → Context) : List Value → List Value
  | [] => []
  | v :: vs => stripped f v :: strippedAll f vs

end

/-- The value without annotations. -/
def bare (v : Value) : Value :=
  v.stripped id

theorem strippedAll_eq_map (f : Context → Context) (vs : List Value) : strippedAll f vs = vs.map (stripped f) := by
  induction vs with
  | nil => rfl
  | cons v vs ih => rw [strippedAll, ih, List.map_cons]

section

variable (f : Context → Context) (info : Info)

theorem stripped_call (name : String) (args : List Value) :
    (call name args info).stripped f = call name (args.map (stripped f)) {} := by
  rw [stripped, strippedAll_eq_map]

theorem stripped_apply (head : Value) (args : List Value) :
    (apply head args info).stripped f = apply (head.stripped f) (args.map (stripped f)) {} := by
  rw [stripped, strippedAll_eq_map]

theorem stripped_list (items : List Value) : (list items).stripped f = list (items.map (stripped f)) := by
  rw [stripped, strippedAll_eq_map]

theorem stripped_tuple (items : List Value) : (tuple items).stripped f = tuple (items.map (stripped f)) := by
  rw [stripped, strippedAll_eq_map]

end

theorem isNode_stripped (f : Context → Context) (v : Value) : (v.stripped f).isNode = v.isNode := by
  cases v <;> rfl

/-! ## Values without doubles -/

mutual

/-- Are all numbers in the value integers? -/
def isExact : Value → Bool
  | call _ args _ => areExact args
  | apply head args _ => isExact head && areExact args
  | number (.float _) => false
  | list items | tuple items => areExact items
  | unquote v _ | splice v _ => isExact v
  | _ => true

def areExact : List Value → Bool
  | [] => true
  | v :: vs => isExact v && areExact vs

end

/-! ## Comparing without annotations -/

theorem sameAll_iff_strippedAll_eq {as bs : List Value}
    (h : ∀ a ∈ as, ∀ {b : Value}, a.isExact = true → b.isExact = true → (a.same b = true ↔ a.bare = b.bare))
    (has : areExact as = true) (hbs : areExact bs = true) :
    sameAll as bs = true ↔ strippedAll id as = strippedAll id bs := by
  induction as generalizing bs with
  | nil => cases bs <;> simp [sameAll, strippedAll]
  | cons a as ih =>
    cases bs with
    | nil => simp [sameAll, strippedAll]
    | cons b bs =>
      rw [areExact, Bool.and_eq_true] at has hbs
      rw [List.forall_mem_cons] at h
      rw [sameAll, Bool.and_eq_true, h.1 has.1 hbs.1, ih h.2 has.2 hbs.2, strippedAll, strippedAll, List.cons.injEq]
      rfl

/-- Values without doubles are the same if and only if they are equal without their annotations. -/
theorem same_iff_bare_eq {a b : Value} (ha : a.isExact = true) (hb : b.isExact = true) :
    a.same b = true ↔ a.bare = b.bare := by
  induction a using treeInduction generalizing b with
  | call f as i ih =>
    cases b with
    | call g bs j =>
      have hargs := sameAll_iff_strippedAll_eq ih ha hb
      simp only [same, bare, stripped, Bool.and_eq_true, beq_iff_eq, call.injEq, hargs, and_true]
    | _ => exact iff_of_false (by rintro ⟨⟩) (by rintro ⟨⟩)
  | apply head as i ihHead ih =>
    cases b with
    | apply head' bs j =>
      rw [isExact, Bool.and_eq_true] at ha hb
      have hhead : head.same head' = true ↔ head.stripped id = head'.stripped id := ihHead ha.1 hb.1
      have hargs := sameAll_iff_strippedAll_eq ih ha.2 hb.2
      simp only [same, bare, stripped, Bool.and_eq_true, apply.injEq, hhead, hargs, and_true]
    | _ => exact iff_of_false (by rintro ⟨⟩) (by rintro ⟨⟩)
  | number m =>
    -- Numbers are compared by value, and only integers have one form for each value.
    cases m with
    | float x => cases ha
    | int m =>
      cases b with
      | number n =>
        cases n with
        | float y => cases hb
        | int n => simp only [same, bare, stripped, Number.equal_int_iff, number.injEq, Number.int.injEq]
      | _ => exact iff_of_false (by rintro ⟨⟩) (by rintro ⟨⟩)
  | list as ih =>
    cases b with
    | list bs =>
      have hitems := sameAll_iff_strippedAll_eq ih ha hb
      simp only [same, bare, stripped, list.injEq, hitems]
    | _ => exact iff_of_false (by rintro ⟨⟩) (by rintro ⟨⟩)
  | tuple as ih =>
    cases b with
    | tuple bs =>
      have hitems := sameAll_iff_strippedAll_eq ih ha hb
      simp only [same, bare, stripped, tuple.injEq, hitems]
    | _ => exact iff_of_false (by rintro ⟨⟩) (by rintro ⟨⟩)
  | unquote v i ih =>
    cases b with
    | unquote u j =>
      have hheld : v.same u = true ↔ v.stripped id = u.stripped id := ih ha hb
      simp only [same, bare, stripped, unquote.injEq, hheld, and_true]
    | _ => exact iff_of_false (by rintro ⟨⟩) (by rintro ⟨⟩)
  | splice v i ih =>
    cases b with
    | splice u j =>
      have hheld : v.same u = true ↔ v.stripped id = u.stripped id := ih ha hb
      simp only [same, bare, stripped, splice.injEq, hheld, and_true]
    | _ => exact iff_of_false (by rintro ⟨⟩) (by rintro ⟨⟩)
  | _ => cases b <;> simp [same, bare, stripped]

/-- On values without doubles, `same` is an equivalence. -/
theorem same_equivalence :
    Equivalence fun a b : { v : Value // v.isExact = true } => a.val.same b.val = true := by
  have hbare : ∀ a b : { v : Value // v.isExact = true }, a.val.same b.val = true ↔ a.val.bare = b.val.bare :=
    fun a b => same_iff_bare_eq a.property b.property
  simp only [hbare]
  exact ⟨fun _ => rfl, Eq.symm, Eq.trans⟩

/-! ## The head of a call -/

theorem withHead_cases (head : Value) :
    (∃ s, head = text s ∧ ∀ args info, withHead head args info = call s args info) ∨
      (∀ s, head ≠ text s) ∧ ∀ args info, withHead head args info = apply head args info := by
  cases head with
  | text s => exact .inl ⟨s, rfl, fun _ _ => rfl⟩
  | _ => exact .inr ⟨by simp, fun _ _ => rfl⟩

theorem text_same_iff {s : String} {b : Value} : (text s).same b = true ↔ b = text s := by
  cases b with
  | text t => rw [same, beq_iff_eq, text.injEq, eq_comm]
  | _ => simp [same]

theorem same_text_iff {a : Value} {t : String} : a.same (text t) = true ↔ a = text t := by
  cases a with
  | text s => simp [same]
  | _ => simp [same]

/-- Calls are the same if their heads are and their arguments are. That holds for names and nodes at the head alike. -/
theorem same_withHead_iff {head head' : Value} {args args' : List Value} {info info' : Info} :
    (withHead head args info).same (withHead head' args' info') = true ↔
      head.same head' = true ∧ sameAll args args' = true := by
  rcases withHead_cases head with ⟨s, rfl, hcall⟩ | ⟨hnode, happly⟩
  · rcases withHead_cases head' with ⟨t, rfl, hcall'⟩ | ⟨hnode', happly'⟩
    · rw [hcall, hcall', same, Bool.and_eq_true, same]
    · rw [hcall, happly', text_same_iff]
      exact iff_of_false (by rintro ⟨⟩) fun h => hnode' s h.1
  · rcases withHead_cases head' with ⟨t, rfl, hcall'⟩ | ⟨hnode', happly'⟩
    · rw [happly, hcall', same_text_iff]
      exact iff_of_false (by rintro ⟨⟩) fun h => hnode t h.1
    · rw [happly, happly', same, Bool.and_eq_true]

end Value

/-! ## Values put together from parts -/

/-- How numbered parts stand inside calls, lists, tuples and placeholders, at any depth. A part can stand in several
places. -/
inductive Arrangement where
  | part (number : Nat)
  | call (head : Arrangement) (args : List Arrangement) (info : Info)
  | list (items : List Arrangement)
  | tuple (items : List Arrangement)
  | unquote (held : Arrangement) (info : Info)
  | splice (held : Arrangement) (info : Info)

namespace Arrangement

mutual

/-- The value with the given parts. A text at the head of a call is the name of the call. -/
def fill (given : Nat → Value) : Arrangement → Value
  | part n => given n
  | call head args info => Value.withHead (fill given head) (fillAll given args) info
  | list items => .list (fillAll given items)
  | tuple items => .tuple (fillAll given items)
  | unquote held info => .unquote (fill given held) info
  | splice held info => .splice (fill given held) info

def fillAll (given : Nat → Value) : List Arrangement → List Value
  | [] => []
  | w :: ws => fill given w :: fillAll given ws

end

mutual

/-- The numbers of the parts. -/
def numbers : Arrangement → List Nat
  | part n => [n]
  | call head args _ => numbers head ++ numbersAll args
  | list items | tuple items => numbersAll items
  | unquote held _ | splice held _ => numbers held

def numbersAll : List Arrangement → List Nat
  | [] => []
  | w :: ws => numbers w ++ numbersAll ws

end

/-- Induction along the places of an arrangement. -/
@[elab_as_elim]
theorem placeInduction {motive : Arrangement → Prop} (part : ∀ n, motive (part n))
    (call : ∀ head args info, motive head → (∀ w ∈ args, motive w) → motive (call head args info))
    (list : ∀ items, (∀ w ∈ items, motive w) → motive (list items))
    (tuple : ∀ items, (∀ w ∈ items, motive w) → motive (tuple items))
    (unquote : ∀ w info, motive w → motive (unquote w info))
    (splice : ∀ w info, motive w → motive (splice w info))
    (w : Arrangement) : motive w :=
  @Arrangement.rec motive (fun ws => ∀ w ∈ ws, motive w) part call list tuple unquote splice
    (fun _ h => nomatch h)
    (fun _ _ hw hws u hu => (List.mem_cons.1 hu).elim (fun e => e ▸ hw) (hws u))
    w

variable {old new : Nat → Value}

theorem sameAll_fillAll_iff {ws : List Arrangement}
    (h : ∀ w ∈ ws, ((w.fill old).same (w.fill new) = true ↔ ∀ n ∈ w.numbers, (old n).same (new n) = true)) :
    Value.sameAll (fillAll old ws) (fillAll new ws) = true ↔ ∀ n ∈ numbersAll ws, (old n).same (new n) = true := by
  induction ws with
  | nil => simp [fillAll, numbersAll, Value.sameAll]
  | cons w ws ih =>
    rw [List.forall_mem_cons] at h
    rw [fillAll, fillAll, Value.sameAll, Bool.and_eq_true, h.1, ih h.2, numbersAll, List.forall_mem_append]

/-- Values of the same arrangement are the same if and only if their parts are. -/
theorem same_fill_iff (w : Arrangement) :
    (w.fill old).same (w.fill new) = true ↔ ∀ n ∈ w.numbers, (old n).same (new n) = true := by
  induction w using placeInduction with
  | part n => rw [fill, fill, numbers, List.forall_mem_singleton]
  | call head args info ihHead ih =>
    rw [fill, fill, Value.same_withHead_iff, ihHead, sameAll_fillAll_iff ih, numbers, List.forall_mem_append]
  | list items ih | tuple items ih => rw [fill, fill, Value.same, sameAll_fillAll_iff ih, numbers]
  | unquote held info ih | splice held info ih => rw [fill, fill, Value.same, ih, numbers]

end Arrangement

/-- Equality up to annotations. Values without doubles are the same if and only if they are equal once all annotations
are gone; names, heads, contexts of variables, the order of arguments and the difference between lists and tuples
count. So on these values it is an equivalence. Parts of any value can be replaced by the same parts, and by no others,
to get the same value. -/
theorem Value.same_up_to_annotations :
    (∀ a b : Value, a.isExact = true → b.isExact = true → (a.same b = true ↔ a.bare = b.bare)) ∧
    (Equivalence fun a b : { v : Value // v.isExact = true } => a.val.same b.val = true) ∧
    ∀ (w : Arrangement) (old new : Nat → Value),
      (w.fill old).same (w.fill new) = true ↔ ∀ n ∈ w.numbers, (old n).same (new n) = true :=
  ⟨fun _ _ => same_iff_bare_eq, same_equivalence, fun w _ _ => w.same_fill_iff⟩

/-- A variable in context `c` is called on a placeholder and a pair, and all of it has the same annotations. -/
def sendCode (c : Context) (info : Info) : Value :=
  .apply (.var "send" c info) [.unquote (.int 3) info, .pair (.atom "ok") (.list [.text "ok"])] info

/-- The code is the same when it was read elsewhere, also inside of a list behind itself, but not when the variable is
from a quote. -/
theorem Value.same_up_to_annotations_send :
    let here := sendCode .direct (Info.read 1 1)
    let there := sendCode .direct (Info.markEscaped {})
    let quoted := sendCode (.quotedIn "Lib") (Info.read 1 1)
    let twice : Arrangement := .call (.part 0) [.list [.part 0]] {}
    (here.isExact = true ∧ there.isExact = true ∧ quoted.isExact = true) ∧
      here.same there = true ∧ here.same quoted = false ∧
      (twice.fill fun _ => here).same (twice.fill fun _ => there) = true := by
  intro here there quoted twice
  obtain ⟨hbare, -, hfill⟩ := same_up_to_annotations
  have hthere : here.same there = true := (hbare here there rfl rfl).2 rfl
  refine ⟨⟨rfl, rfl, rfl⟩, hthere, ?_, (hfill twice _ _).2 fun _ _ => hthere⟩
  refine Bool.eq_false_iff.2 fun hquoted => ?_
  cases (hbare here quoted rfl rfl).1 hquoted

end MacroLang
