import MacroLang.Proofs.Evaluation.Closure
import MacroLang.Proofs.Expansion.Recursion
import MacroLang.Proofs.Expansion.Trace

/-!
# Expansion is up to the standard of its code

What a macro makes of a call consists of nodes of the call and of the macro's own body. So if the functions, and the
macros that a unit sees, are up to a standard (`Compilation.Meets`), then expansion of code up to the standard gives
code up to it. An objection is made at a node that was there. The induction is on how often macro calls may still be
replaced, and within it on the value (`Expander.makes_walk`).

If trees are asked for, then the expander has nothing to object to in what a macro returns (`Expander.makes_invoke`).
That calls were replaced too often is no common objection: the standard has to be lenient (`Standard.Lenient`).
-/

namespace MacroLang

variable {S : Standard} {r : Nat} {scope : String}

/-- Every objection may be raised at every node, but that a value is no tree. -/
def Standard.Lenient (S : Standard) : Prop :=
  ∀ {cause i}, S.info i → (Error.located cause i none).isMisfit = false → S.error (.located cause i none)

theorem Standard.lenient_trees : Standard.trees.Lenient :=
  fun _ h => h

open Standard

/-! ## Sessions -/

/-- All macros that registry `r` sees have bodies up to the standard. -/
def Session.Meets (S : Standard) (r : Nat) (s : Session MacroBody) : Prop :=
  ∀ m, s.Sees r m → ∀ e ∈ m.body.forms, S.value e

namespace Session

variable {s s' : Session MacroBody}

theorem Meets.own (h : s.Meets S r) : ∀ m ∈ (s.registry r).macros, ∀ e ∈ m.body.forms, S.value e :=
  fun m hm => h m (.inl hm)

/-- Declarations are of no consequence. -/
theorem Meets.redeclare (h : s.Meets S r) (hd : s.Redeclares r scope s') : s'.Meets S r := by
  have hmacros : ∀ q, (s'.registry q).macros = (s.registry q).macros := by
    intro q
    by_cases hq : q = r
    · rw [hq, hd.registry.macros]
    · rw [hd.others q hq]
  intro m hm
  refine h m (hm.imp (hmacros r ▸ ·) ?_)
  rintro ⟨q, hq, hm⟩
  rw [publisher?, hd.published] at hq
  exact ⟨q, hq, hmacros q ▸ hm⟩

/-- The registry itself may change, as long as its macros are up to the standard. -/
theorem Meets.update (h : s.Meets S r) {f : Registry MacroBody → Registry MacroBody}
    (hf : ∀ m ∈ (f (s.registry r)).macros, ∀ e ∈ m.body.forms, S.value e) : (s.update r f).Meets S r := by
  rcases Nat.lt_or_ge r s.registries.length with hr | hr
  case inr =>
    rw [update_of_le s f hr]
    exact h
  have hown := registry_update_self s r f hr
  intro m hm
  rcases hm with hm | ⟨q, hq, hm⟩
  · exact hf m (hown ▸ hm)
  · by_cases heq : q = r
    · subst heq
      exact hf m (hown ▸ hm)
    · rw [registry_update_of_ne s f (Ne.symm heq)] at hm
      exact h m (.inr ⟨q, hq, hm⟩)

theorem Meets.addMacro (h : s.Meets S r) {m : Macro MacroBody} (hm : ∀ e ∈ m.body.forms, S.value e) :
    (s.update r (·.addMacro m)).Meets S r := by
  refine h.update ?_
  rw [Registry.macros_addMacro]
  exact List.forall_mem_append.2 ⟨h.own, List.forall_mem_singleton.2 hm⟩

end Session

/-! ## Compilations -/

/-- The functions, and the macros that registry `r` sees, are up to the standard. -/
structure Compilation.Meets (S : Standard) (r : Nat) (c : Compilation MacroBody) : Prop where
  world : c.world.Meets S
  session : c.session.Meets S r

theorem Compilation.Meets.declare {c c' : Compilation MacroBody} (h : c.Meets S r) (hd : c.Declares r scope c') :
    c'.Meets S r :=
  ⟨fun m hm => h.world m (hd.modules ▸ hm), h.session.redeclare hd.session⟩

/-- Of the world it only matters to `I` that functions are up to the standard. -/
structure MindsWorld (S : Standard) (I : Compilation MacroBody → Prop) : Prop where
  world : ∀ c, I c → c.world.Meets S
  change : ∀ c w, I c → w.Meets S → I { c with world := w }

theorem mindsWorld_meets : MindsWorld S (Compilation.Meets S r) :=
  ⟨fun _ hc => hc.world, fun _ _ hc hw => ⟨hw, hc.session⟩⟩

namespace Expand

variable {α : Type} {Q : α → Prop}

theorem makes_onWorld {I : Compilation MacroBody → Prop} (hI : MindsWorld S I) {code : EStateM Error World α}
    (h : S.Makes (World.Meets S) Q code) : S.Makes I Q (onWorld code : Expand MacroBody α) := by
  intro c hc
  have hcode := h c.world (hI.world c hc)
  unfold onWorld
  cases hrun : code c.world with
  | ok a w => rw [hrun] at hcode; exact ⟨hcode.1, hI.change c w hc hcode.2⟩
  | error e w => rw [hrun] at hcode; exact ⟨hI.change c w hc hcode.1, hcode.2⟩

/-- Code that makes declarations only. -/
theorem makes_declaring {code : Expand MacroBody α}
    (h : ∀ c : Compilation MacroBody, S.Makes (c.Declares r scope) Q code) : S.Makes (Compilation.Meets S r) Q code :=
  makes_of_declares (fun _ _ hc hd => hc.declare hd) h

end Expand

namespace Expander

variable {x : Expander MacroBody} {info : Info}

/-! ## Values -/

section

variable {onMacro : Macro MacroBody → List Value → Info → Expand MacroBody Expanded}

theorem makes_walkAll {vs : List Value}
    (h : ∀ v ∈ vs, S.Makes (Compilation.Meets S x.registry) (S.value ·.value) (x.walk scope onMacro v)) :
    S.Makes (Compilation.Meets S x.registry) (fun es => es.length = vs.length ∧ ∀ e ∈ es, S.value e.value)
      (x.walkAll scope onMacro vs) := by
  induction vs with
  | nil => exact .pure ⟨rfl, List.forall_mem_nil _⟩
  | cons v vs ih =>
    rw [List.forall_mem_cons] at h
    rw [walkAll]
    refine .bind h.1 fun e he => .bind (ih h.2) fun es hes => .pure ⟨?_, List.forall_mem_cons.2 ⟨he, hes.2⟩⟩
    rw [List.length_cons, List.length_cons, hes.1]

variable (hexpands : ∀ (m : Macro MacroBody) (args : List Value) (info : Info), (∀ e ∈ m.body.forms, S.value e) →
  (∀ v ∈ args, S.value v) → S.info info →
    S.Makes (Compilation.Meets S x.registry) (S.value ·.value) (onMacro m args info))

include hexpands

theorem makes_walk_call {name : String} {args : List Value} (hinfo : S.info info) (hargs : ∀ v ∈ args, S.value v)
    (ih : ∀ v ∈ args, S.Makes (Compilation.Meets S x.registry) (S.value ·.value) (x.walk scope onMacro v)) :
    S.Makes (Compilation.Meets S x.registry) (S.value ·.value) (x.walk scope onMacro (.call name args info)) := by
  rw [walk]
  refine .reading fun c hc => ?_
  split
  · rename_i m hm
    exact hexpands m args info (hc.session m (sees_of_resolve hm)) hargs hinfo
  split
  · exact .pure (value_call.2 ⟨hinfo, hargs⟩)
  split
  · exact .throw (routine_on hinfo rfl)
  split
  · exact .bind (.ofExcept (S.gives_escapeArgs hargs hinfo)) fun v hv => .pure hv
  split
  · exact .bind (.ofExcept (S.gives_buildAtom S.info_none scope)) fun v hv => .pure hv
  · exact .bind (makes_walkAll ih) fun es hes => Expand.makes_declaring fun c => makes_finishCall name hinfo hes.2

theorem makes_walk (v : Value) :
    S.value v → S.Makes (Compilation.Meets S x.registry) (S.value ·.value) (x.walk scope onMacro v) := by
  induction v using Value.treeInduction with
  | call name args info ih =>
    intro h
    obtain ⟨hinfo, hargs⟩ := value_call.1 h
    exact makes_walk_call hexpands hinfo hargs fun v hv => ih v hv (hargs v hv)
  | apply head args info ihHead ih =>
    intro h
    obtain ⟨hinfo, hhead, hargs⟩ := value_apply.1 h
    have hall := makes_walkAll fun v hv => ih v hv (hargs v hv)
    rw [walk]
    refine .reading fun c hc => ?_
    dsimp only
    split
    · rename_i m hm
      exact hexpands m args info (hc.session m (sees_of_resolve hm)) hargs hinfo
    split
    · refine .bind (.ofExcept (gives_expandHead c.session _ hhead _ _)) fun full hfull => ?_
      exact .bind hall fun es hes => .ofExcept (gives_finishApply hinfo hfull hes.2)
    · refine .bind (ihHead hhead) fun e he => .bind hall fun es hes => ?_
      exact .ofExcept (gives_finishApply hinfo he hes.2)
  | list items ih =>
    intro h
    rw [walk]
    refine .bind (makes_walkAll fun v hv => ih v hv (value_list.1 h v hv)) fun es hes => .pure ?_
    exact value_list.2 (value_values hes.2)
  | tuple items ih =>
    intro h
    obtain ⟨hlength, hitems⟩ := value_tuple.1 h
    rw [walk]
    refine .bind (makes_walkAll fun v hv => ih v hv (hitems v hv)) fun es hes => ?_
    exact .ofExcept (gives_finishTuple (fun hs => hes.1.trans (hlength hs)) hes.2)
  | _ =>
    intro h
    rw [walk]
    · exact .bind (.ofExcept (S.gives_kind h)) fun _ _ => .pure h
    all_goals intros; contradiction

end

/-! ## Macro calls -/

/-- Macros whose bodies are up to the standard make values up to it of values up to it. -/
def Meets (S : Standard) (x : Expander MacroBody) : Prop :=
  ∀ s body args, (∀ e ∈ body.forms, S.value e) → (∀ v ∈ args, S.value v) →
    S.Makes (World.Meets S) S.value (x.run s body args)

section

variable (hx : x.Meets S)

include hx

/-- What a macro returns is a tree, or it may be objected at the call that it is none. -/
theorem makes_invoke {m : Macro MacroBody} (hm : ∀ e ∈ m.body.forms, S.value e) {args : List Value}
    (hargs : ∀ v ∈ args, S.value v) (hinfo : S.info info) :
    S.Makes (Compilation.Meets S r) S.value (x.invoke m args info) := by
  refine .bind (.modify fun c hc => ⟨hc.world, hc.session⟩) fun _ _ => .reading fun c _ => ?_
  refine .bind (Expand.makes_onWorld mindsWorld_meets (hx c.session m.body args hm hargs)) fun v hv => ?_
  rcases S.fits hv hinfo with htree | hraises
  · rw [Value.isTree_iff.1 htree]
    exact .pure hv
  have hvalid := S.gives_validate v hv
  split
  · exact .pure hv
  · exact .throw (error_on (hraises _ rfl))
  · exact .throw (hvalid.raises _ (by assumption))

variable (hS : S.Lenient)

include hS

theorem makes_expandWithin (budget : Nat) {v : Value} (hv : S.value v) :
    S.Makes (Compilation.Meets S x.registry) (S.value ·.value) (x.expandWithin scope budget v) := by
  induction budget generalizing v with
  | zero => exact makes_walk (fun m _ info _ _ hinfo => .throw (error_on (hS hinfo rfl))) v hv
  | succ budget ih =>
    refine makes_walk (fun m args info hm hargs hinfo => ?_) v hv
    exact .bind (makes_invoke hx hm hargs hinfo) fun w hw => .bind (ih hw) fun e he => .pure he

theorem makes_expand {v : Value} (hv : S.value v) :
    S.Makes (Compilation.Meets S x.registry) S.value (x.expand scope v) := by
  rw [expand, expandFrom_eq_expandWithin]
  exact .map (makes_expandWithin hx hS _ hv) fun _ he => he

end

end Expander

end MacroLang
