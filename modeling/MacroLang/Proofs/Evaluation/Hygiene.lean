import MacroLang.Evaluation.Run
import MacroLang.Proofs.Evaluation.Frame
import MacroLang.Proofs.Tree.Closure

/-!
# Template macros are hygienic

A template is what most macro bodies quote: a tree in which parameters are unquoted by themselves and no variable is
escaped (`Value.isTemplate`). Running its unquotes leaves a fragment whose placeholders hold arguments
(`fragment_of_template`), and quoting the fragment gives every other variable the context of the quote
(`tagged_of_quote`). The tree that such a macro makes therefore mentions variables of the macro's own scope and
variables of its arguments, and no others (`vars_of_templateMacro`), so that evaluating it neither reads nor
changes any other binding (`templateMacro_hygienic`).
-/

namespace MacroLang

namespace Value

/-- A node in the place of a head that stays a node when it is quoted. -/
def isHead : Value → Bool
  | call name _ _ => name != "unquote"
  | apply .. | var .. | splice .. => true
  | _ => false

/-- The operand of an `unquote` is one of the parameters, by itself. -/
def isParameter (params : List Variable) : List Value → Bool
  | [var name c _] => params.contains ⟨name, c⟩
  | _ => false

mutual

/-- A template over some parameters: only parameters are unquoted, none of them as a head, and there is no inner
quote, no `var!` and no escaped variable. -/
def isTemplate (params : List Variable) : Value → Bool
  | call name args _ =>
    if name = "unquote" ∨ name = "unquote_splicing" then isParameter params args
    else name != "var!" && name != "quote" && areTemplates params args
  | apply head args _ => head.isHead && isTemplate params head && areTemplates params args
  | var _ _ info => !info.isEscaped
  | atom _ | number _ | text _ => true
  | list items | tuple items => areTemplates params items
  | _ => false

def areTemplates (params : List Variable) : List Value → Bool
  | [] => true
  | v :: vs => isTemplate params v && areTemplates params vs

end

theorem areTemplates_iff {params : List Variable} {vs : List Value} :
    areTemplates params vs = true ↔ ∀ v ∈ vs, v.isTemplate params = true := by
  induction vs with
  | nil => simp [areTemplates]
  | cons v vs ih => simp [areTemplates, ih]

/-- A call in a template that unquotes nothing. -/
theorem isTemplate_call {params : List Variable} {name : String} {args : List Value} {info : Info}
    (hu : name ≠ "unquote") (hs : name ≠ "unquote_splicing")
    (h : (call name args info).isTemplate params = true) :
    ∀ v ∈ args, v.isTemplate params = true := by
  simp only [isTemplate, hu, hs, or_self, if_false, Bool.and_eq_true] at h
  exact areTemplates_iff.1 h.2

theorem isTemplate_apply {params : List Variable} {head : Value} {args : List Value} {info : Info}
    (h : (apply head args info).isTemplate params = true) :
    head.isHead = true ∧ head.isTemplate params = true ∧ ∀ v ∈ args, v.isTemplate params = true := by
  simp only [isTemplate, Bool.and_eq_true] at h
  exact ⟨h.1.1, h.1.2, areTemplates_iff.1 h.2⟩

end Value

/-- A template whose unquotes have been run: the placeholders hold values whose variables are all `inside`. -/
inductive Fragment (inside : Variable → Prop) : Value → Prop where
  | unquote {v : Value} {info : Info} : (∀ x ∈ v.vars, inside x) → Fragment inside (.unquote v info)
  | splice {v : Value} {info : Info} : (∀ x ∈ v.vars, inside x) → Fragment inside (.splice v info)
  | call {name : String} {args : List Value} {info : Info} :
    name ≠ "var!" → (∀ v ∈ args, Fragment inside v) → Fragment inside (.call name args info)
  | apply {head : Value} {args : List Value} {info : Info} :
    head.isHead = true → Fragment inside head → (∀ v ∈ args, Fragment inside v) →
      Fragment inside (.apply head args info)
  | var {name : String} {c : Context} {info : Info} :
    info.isEscaped = false → Fragment inside (.var name c info)
  | atom {name : String} : Fragment inside (.atom name)
  | number {n : Number} : Fragment inside (.number n)
  | text {s : String} : Fragment inside (.text s)
  | list {items : List Value} : (∀ v ∈ items, Fragment inside v) → Fragment inside (.list items)
  | pair {left right : Value} :
    Fragment inside left → Fragment inside right → Fragment inside (.pair left right)

/-! ## Running the unquotes of a template -/

section

variable {link : Linkage} {params : List Variable} {inside : Variable → Prop} {m : Machine}

/-- Every parameter is bound to a value whose variables are all `inside`. -/
def ParamsInside (params : List Variable) (inside : Variable → Prop) (env : Env) : Prop :=
  ∀ p ∈ params, ∀ v, env.get? p = some v → ∀ x ∈ v.vars, inside x

theorem lookup_eq_ok {x : Variable} {info : Info} {v : Value} {n : Machine}
    (h : Eval.lookup x info m = .ok v n) : m.env.get? x = some v ∧ n = m := by
  obtain ⟨m₁, m₂, hget, h⟩ := bind_eq_ok.1 h
  cases hget
  cases hx : m.env.get? x with
  | none => rw [hx] at h; cases h
  | some u =>
    rw [hx] at h
    cases h
    exact ⟨rfl, rfl⟩

/-- The operand of a template's `unquote` is looked up among the parameters. -/
theorem evaluate_parameter (hp : ParamsInside params inside m.env) {e : Value}
    (he : Value.isParameter params [e] = true) {v : Value} {n : Machine}
    (h : evaluate link e m = .ok v n) : n = m ∧ ∀ x ∈ v.vars, inside x := by
  cases e with
  | var name c info =>
    have hmem : (⟨name, c⟩ : Variable) ∈ params := List.contains_iff_mem.1 he
    obtain ⟨hv, hn⟩ := lookup_eq_ok h
    exact ⟨hn, hp _ hmem v hv⟩
  | _ => cases he

/-- Running the unquotes of a template changes nothing and leaves a fragment. -/
def LeavesFragment (link : Linkage) (inside : Variable → Prop) (m : Machine) (e : Value) : Prop :=
  ∀ f n, evaluateQuoted link e m = .ok f n →
    n = m ∧ Fragment inside f ∧ (e.isHead = true → f.isHead = true)

theorem fragments_of_templates {es : List Value} (h : ∀ e ∈ es, LeavesFragment link inside m e)
    {fs : List Value} {n : Machine} (hrun : evaluateQuotedAll link es m = .ok fs n) :
    n = m ∧ ∀ f ∈ fs, Fragment inside f := by
  induction es generalizing fs n with
  | nil => cases hrun; exact ⟨rfl, fun _ hf => nomatch hf⟩
  | cons e es ih =>
    rw [evaluateQuotedAll, bind_eq_ok] at hrun
    obtain ⟨f, m₁, hf, hrun⟩ := hrun
    obtain ⟨rfl, hfrag, -⟩ := h e List.mem_cons_self f m₁ hf
    rw [bind_eq_ok] at hrun
    obtain ⟨fs', m₂, hfs, hrun⟩ := hrun
    obtain ⟨rfl, hfrags⟩ := ih (fun e he => h e (List.mem_cons_of_mem _ he)) hfs
    cases hrun
    exact ⟨rfl, List.forall_mem_cons.2 ⟨hfrag, hfrags⟩⟩

/-- A call by name in a template. -/
theorem fragment_of_call (hp : ParamsInside params inside m.env) {name : String} {args : List Value}
    {info : Info} (ih : ∀ e ∈ args, e.isTemplate params = true → LeavesFragment link inside m e)
    (ht : (Value.call name args info).isTemplate params = true) :
    LeavesFragment link inside m (.call name args info) := by
  intro f n hrun
  rw [evaluateQuoted.eq_def] at hrun
  dsimp only at hrun
  split at hrun
  · split at hrun
    · rw [bind_eq_ok] at hrun
      obtain ⟨v, m₁, hv, hrun⟩ := hrun
      obtain ⟨rfl, hin⟩ := evaluate_parameter hp ht hv
      cases hrun
      exact ⟨rfl, .unquote hin, by intro h; cases h⟩
    · cases hrun
  · split at hrun
    · rw [bind_eq_ok] at hrun
      obtain ⟨v, m₁, hv, hrun⟩ := hrun
      obtain ⟨rfl, hin⟩ := evaluate_parameter hp ht hv
      cases hrun
      exact ⟨rfl, .splice hin, fun _ => rfl⟩
    · cases hrun
  · cases ht
  · cases ht
  · rename_i hunquote hsplicing hescape _
    have hargs := Value.isTemplate_call hunquote hsplicing ht
    rw [bind_eq_ok] at hrun
    obtain ⟨fs, m₁, hfs, hrun⟩ := hrun
    obtain ⟨rfl, hfrags⟩ := fragments_of_templates (fun e he => ih e he (hargs e he)) hfs
    cases hrun
    exact ⟨rfl, .call hescape hfrags, id⟩

theorem fragment_of_template (hp : ParamsInside params inside m.env) (e : Value) :
    e.isTemplate params = true → LeavesFragment link inside m e := by
  induction e using Value.treeInduction with
  | call name args info ih => exact fragment_of_call hp ih
  | apply head args info ihHead ih =>
    intro ht f n hrun
    obtain ⟨hhead, hthead, htargs⟩ := Value.isTemplate_apply ht
    rw [evaluateQuoted, bind_eq_ok] at hrun
    obtain ⟨fhead, m₁, hfhead, hrun⟩ := hrun
    obtain ⟨rfl, hfrag, hishead⟩ := ihHead hthead fhead m₁ hfhead
    rw [bind_eq_ok] at hrun
    obtain ⟨fs, m₂, hfs, hrun⟩ := hrun
    obtain ⟨rfl, hfrags⟩ := fragments_of_templates (fun e he => ih e he (htargs e he)) hfs
    cases hrun
    exact ⟨rfl, .apply (hishead hhead) hfrag hfrags, fun _ => rfl⟩
  | var name c info =>
    intro ht f n hrun
    cases hrun
    have hescaped : info.isEscaped = false := by simpa [Value.isTemplate] using ht
    exact ⟨rfl, .var hescaped, id⟩
  | list items ih =>
    intro ht f n hrun
    have hitems := Value.areTemplates_iff.1 ht
    rw [evaluateQuoted, bind_eq_ok] at hrun
    obtain ⟨fs, m₁, hfs, hrun⟩ := hrun
    obtain ⟨rfl, hfrags⟩ := fragments_of_templates (fun e he => ih e he (hitems e he)) hfs
    cases hrun
    exact ⟨rfl, .list hfrags, id⟩
  | tuple items ih =>
    intro ht f n hrun
    have hitems := Value.areTemplates_iff.1 ht
    cases items with
    | nil => cases hrun
    | cons left rest => cases rest with
      | nil => cases hrun
      | cons right rest =>
        rw [evaluateQuoted, bind_eq_ok] at hrun
        obtain ⟨fl, m₁, hfl, hrun⟩ := hrun
        obtain ⟨rfl, hl, -⟩ := ih left (by simp) (hitems left (by simp)) fl m₁ hfl
        rw [bind_eq_ok] at hrun
        obtain ⟨fr, m₂, hfr, hrun⟩ := hrun
        obtain ⟨rfl, hr, -⟩ := ih right (by simp) (hitems right (by simp)) fr m₂ hfr
        cases hrun
        exact ⟨rfl, .pair hl hr, id⟩
  | atom name => intro _ f n hrun; cases hrun; exact ⟨rfl, .atom, id⟩
  | number k => intro _ f n hrun; cases hrun; exact ⟨rfl, .number, id⟩
  | text s => intro _ f n hrun; cases hrun; exact ⟨rfl, .text, id⟩
  | _ => intro ht; cases ht

end

/-! ## Quoting a fragment -/

namespace Value

/-- A member of a quoted list is a sequence that is spliced in, or quoted by itself. -/
theorem quoteAll_cons {c : Context} {f : Value} {fs es : List Value}
    (h : quoteAll c (f :: fs) = .ok es) :
    ∃ first rest, quoteAll c fs = .ok rest ∧ es = first ++ rest ∧
      ((∃ v info, f = splice v info ∧ v.injectItems info = .ok first) ∨
        ∃ e, f.quote c = .ok e ∧ first = [e]) := by
  rw [quoteAll.eq_def] at h
  split at h
  · rename_i heq; cases heq
  · rename_i heq
    cases heq
    rw [except_bind_eq_ok] at h
    obtain ⟨items, hitems, h⟩ := h
    rw [except_bind_eq_ok] at h
    obtain ⟨rest, hrest, h⟩ := h
    cases h
    exact ⟨items, rest, hrest, rfl, .inl ⟨_, _, rfl, hitems⟩⟩
  · rename_i heq
    cases heq
    rw [except_bind_eq_ok] at h
    obtain ⟨e, he, h⟩ := h
    rw [except_bind_eq_ok] at h
    obtain ⟨rest, hrest, h⟩ := h
    cases h
    exact ⟨[e], rest, hrest, rfl, .inr ⟨e, he, rfl⟩⟩

theorem quote_apply {c : Context} {head : Value} {args : List Value} {info : Info} {e : Value}
    (hhead : head.isHead = true) (h : (apply head args info).quote c = .ok e) :
    ∃ head' es, head.quote c = .ok head' ∧ quoteAll c args = .ok es ∧
      e = withHead head' es (info.withContext c) := by
  rw [quote.eq_def] at h
  dsimp only at h
  split at h
  · cases hhead
  · rw [except_bind_eq_ok] at h
    obtain ⟨head', hq, h⟩ := h
    rw [except_bind_eq_ok] at h
    obtain ⟨es, hes, h⟩ := h
    rw [except_bind_eq_ok] at h
    obtain ⟨_, -, h⟩ := h
    cases h
    exact ⟨head', es, hq, hes, rfl⟩

/-- Spliced members mention what the sequence mentions. -/
theorem vars_of_injectItems {v : Value} {items : List Value} {info : Info}
    (h : v.injectItems info = .ok items) : ∀ u ∈ items, ∀ x ∈ u.vars, x ∈ v.vars := by
  unfold injectItems at h
  cases hitems : v.items? with
  | none => rw [hitems] at h; cases h
  | some members =>
    rw [hitems] at h
    obtain ⟨-, rfl⟩ := injectAll_eq_ok.1 h
    exact fun u hu x hx => (mem_vars_of_items hitems).2 ⟨u, hu, hx⟩

end Value

section

variable {inside : Variable → Prop} {c : Context}

/-- Every variable of the tree belongs to the context or is `inside`. -/
def Tagged (inside : Variable → Prop) (c : Context) (e : Value) : Prop :=
  ∀ x ∈ e.vars, x.context = c ∨ inside x

theorem tagged_of_injectItems {v : Value} {items : List Value} {info : Info}
    (h : v.injectItems info = .ok items) (hv : ∀ x ∈ v.vars, inside x) :
    ∀ e ∈ items, Tagged inside c e :=
  fun e he x hx => .inr (hv x (Value.vars_of_injectItems h e he x hx))

theorem tagged_of_quoteAll {fs : List Value} (hfs : ∀ f ∈ fs, Fragment inside f)
    (h : ∀ f ∈ fs, ∀ e, f.quote c = .ok e → Tagged inside c e)
    {es : List Value} (hq : Value.quoteAll c fs = .ok es) : ∀ e ∈ es, Tagged inside c e := by
  induction fs generalizing es with
  | nil => cases hq; exact fun _ he => nomatch he
  | cons f fs ih =>
    obtain ⟨first, rest, hrest, rfl, hfirst⟩ := Value.quoteAll_cons hq
    have hrest := ih (fun f hf => hfs f (List.mem_cons_of_mem _ hf))
      (fun f hf => h f (List.mem_cons_of_mem _ hf)) hrest
    rw [List.forall_mem_append]
    refine ⟨?_, hrest⟩
    rcases hfirst with ⟨v, info, rfl, hitems⟩ | ⟨e, he, rfl⟩
    · cases hfs _ List.mem_cons_self with
      | splice hv => exact tagged_of_injectItems hitems hv
    · exact List.forall_mem_singleton.2 (h f List.mem_cons_self e he)

/-- Quoting a fragment tags the variables that are not in placeholders. A head stays a head and is not taken for the
name of a call. -/
theorem tagged_of_quote (f : Value) : Fragment inside f → ∀ e, f.quote c = .ok e →
    Tagged inside c e ∧
      (f.isHead = true → ∀ args info, Value.withHead e args info = .apply e args info) := by
  induction f using Value.treeInduction with
  | call name args info ih =>
    intro hf e hq
    cases hf with
    | call hname hargs =>
      rw [Value.quote, except_bind_eq_ok] at hq
      obtain ⟨es, hes, hq⟩ := hq
      cases hq
      have htagged := tagged_of_quoteAll hargs (fun a ha e he => (ih a ha (hargs a ha) e he).1) hes
      refine ⟨fun x hx => ?_, fun _ _ _ => rfl⟩
      obtain ⟨v, hv, hx⟩ := (Value.mem_vars_call hname).1 hx
      exact htagged v hv x hx
  | apply head args info ihHead ih =>
    intro hf e hq
    cases hf with
    | apply hhead hfhead hargs =>
      obtain ⟨head', es, hqhead, hes, rfl⟩ := Value.quote_apply hhead hq
      obtain ⟨hthead, hplain⟩ := ihHead hfhead head' hqhead
      have htagged := tagged_of_quoteAll hargs (fun a ha e he => (ih a ha (hargs a ha) e he).1) hes
      rw [hplain hhead]
      refine ⟨fun x hx => ?_, fun _ _ _ => rfl⟩
      rcases Value.mem_vars_apply.1 hx with hx | ⟨v, hv, hx⟩
      · exact hthead x hx
      · exact htagged v hv x hx
  | var name d info =>
    intro hf e hq
    cases hf with
    | var hescaped =>
      rw [Value.quote, hescaped, Bool.false_or] at hq
      cases hq
      split
      · rename_i hd
        refine ⟨fun x hx => .inl ?_, fun _ _ _ => rfl⟩
        rw [List.mem_singleton.1 hx]
        exact eq_of_beq hd
      · refine ⟨fun x hx => .inl ?_, fun _ _ _ => rfl⟩
        rw [List.mem_singleton.1 hx]
  | list items ih =>
    intro hf e hq
    cases hf with
    | list hitems =>
      rw [Value.quote, except_bind_eq_ok] at hq
      obtain ⟨es, hes, hq⟩ := hq
      cases hq
      have htagged := tagged_of_quoteAll hitems (fun a ha e he => (ih a ha (hitems a ha) e he).1) hes
      refine ⟨fun x hx => ?_, fun h => absurd h Bool.false_ne_true⟩
      obtain ⟨v, hv, hx⟩ := Value.mem_vars_list.1 hx
      exact htagged v hv x hx
  | tuple items ih =>
    intro hf e hq
    cases hf with
    | @pair left right hl hr =>
      rw [Value.quote, except_bind_eq_ok] at hq
      obtain ⟨l, hql, hq⟩ := hq
      rw [except_bind_eq_ok] at hq
      obtain ⟨r, hqr, hq⟩ := hq
      cases hq
      have htl := (ih left (by simp) hl l hql).1
      have htr := (ih right (by simp) hr r hqr).1
      refine ⟨fun x hx => ?_, fun h => absurd h Bool.false_ne_true⟩
      obtain ⟨v, hv, hxv⟩ := Value.mem_vars_tuple.1 hx
      rcases List.mem_cons.1 hv with rfl | hv
      · exact htl x hxv
      · rw [List.mem_singleton.1 hv] at hxv
        exact htr x hxv
  | unquote v info ih =>
    intro hf e hq
    cases hf with
    | unquote hv =>
      obtain ⟨-, rfl⟩ := Value.inject_eq_ok.1 hq
      exact ⟨fun x hx => .inr (hv x hx), fun h => absurd h Bool.false_ne_true⟩
  | splice v info ih => intro _ e hq; cases hq
  | atom name | number k | text s =>
    intro _ e hq
    cases hq
    exact ⟨fun _ hx => absurd hx List.not_mem_nil, fun h => absurd h Bool.false_ne_true⟩
  | _ => intro hf; cases hf

end

/-! ## Running a template macro -/

theorem Env.mem_of_get?_ofArgs {params : List Variable} {args : List Value} {x : Variable} {v : Value}
    (h : (Env.ofArgs params args).get? x = some v) : v ∈ args := by
  have bound : ∀ (ps : List (Variable × Value)) (env : Env),
      (ps.foldl (fun env p => env.bind p.1 p.2) env).get? x = some v →
        (∃ y, (y, v) ∈ ps) ∨ env.get? x = some v := by
    intro ps
    induction ps with
    | nil => exact fun env h => .inr h
    | cons p ps ih =>
      intro env h
      rcases ih (env.bind p.1 p.2) h with ⟨y, hy⟩ | h
      · exact .inl ⟨y, List.mem_cons_of_mem _ hy⟩
      · rw [Env.get?_bind] at h
        split at h
        · cases h; exact .inl ⟨p.1, List.mem_cons_self⟩
        · exact .inr h
  rcases bound _ [] h with ⟨y, hy⟩ | h
  · exact (List.of_mem_zip hy).2
  · cases h

theorem Home.name_ofScope (w : World) (scope : String) (declarations : Option DeclarationSource) :
    (Home.ofScope w scope declarations).name = scope := by
  unfold Home.ofScope
  split <;> rfl

theorem runMacro_eq_ok {link : Linkage} {body : MacroBody} {args : List Value} {w w' : World} {e : Value}
    (h : World.runMacro link body args w = .ok e w') :
    ∃ n, evaluateBody link .nil body.forms
      { world := w, home := .ofScope w body.scope body.declarations,
        env := Env.ofArgs body.params args } = .ok e n := by
  unfold World.runMacro World.runIn at h
  split at h <;> cases h
  rename_i n hn
  exact ⟨n, hn⟩

theorem evaluate_quote (link : Linkage) (e : Value) (info : Info) :
    evaluate link (.call "quote" [e] info) =
      evaluateQuoted link e >>= fun f =>
        get >>= fun m => ofExcept (f.quote (.quotedIn m.home.name)) := by
  rw [evaluate.eq_def]
  rfl

/-- The tree that a template macro makes mentions variables of the macro's scope and of the arguments only. -/
theorem vars_of_templateMacro {link : Linkage} {body : MacroBody} {template : Value} {info : Info}
    (hforms : body.forms = [.call "quote" [template] info])
    (ht : template.isTemplate body.params = true) {args : List Value} {w w' : World} {e : Value}
    (hrun : World.runMacro link body args w = .ok e w') :
    ∀ x ∈ e.vars, x.context = .quotedIn body.scope ∨ ∃ a ∈ args, x ∈ a.vars := by
  obtain ⟨n, hbody⟩ := runMacro_eq_ok hrun
  rw [hforms, evaluateBody, bind_eq_ok] at hbody
  obtain ⟨v, m₁, hquote, hlast⟩ := hbody
  cases hlast
  rw [evaluate_quote, bind_eq_ok] at hquote
  obtain ⟨f, m₂, hf, hquote⟩ := hquote
  have inside : ParamsInside body.params (fun x => ∃ a ∈ args, x ∈ a.vars)
      (Env.ofArgs body.params args) :=
    fun p _ v hv x hx => ⟨v, Env.mem_of_get?_ofArgs hv, hx⟩
  obtain ⟨rfl, hfrag, -⟩ := fragment_of_template inside template ht f m₂ hf
  have hq := (ofExcept_eq_ok.1 hquote).1
  rw [Home.name_ofScope] at hq
  exact (tagged_of_quote f hfrag e hq).1

/-- Template macros are hygienic: a binding of another context than the macro's scope, which no argument mentions, is
left alone by the evaluation of what the macro makes, and makes no difference to it. -/
theorem templateMacro_hygienic {imported : Imports} {depth : Nat} {body : MacroBody}
    {template : Value} {info : Info} (hforms : body.forms = [.call "quote" [template] info])
    (ht : template.isTemplate body.params = true) {args : List Value} {w w' : World} {e : Value}
    (hrun : World.runMacro (.within imported depth) body args w = .ok e w') {x : Variable}
    (hscope : x.context ≠ .quotedIn body.scope) (hargs : ∀ a ∈ args, x ∉ a.vars)
    (imported' : Imports) (depth' : Nat) {m m' : Machine} (h : m.Agree (· ≠ x) m') :
    ((evaluate (.within imported' depth') e).after m).env.get? x = m.env.get? x ∧
      Eval.SameOutcome (· ≠ x) (evaluate (.within imported' depth') e m)
        (evaluate (.within imported' depth') e m') := by
  have absent : x ∉ e.vars := by
    intro hx
    rcases vars_of_templateMacro hforms ht hrun x hx with hc | ⟨a, ha, hx⟩
    · exact hscope hc
    · exact hargs a ha hx
  constructor
  · exact evaluate_keeps imported' depth' (fun hx => absent (e.targets_subset_vars x hx)) m
  · exact evaluate_dependsOn imported' depth' (fun y hy => ne_of_mem_of_not_mem hy absent) h

/-- A macro that binds `.tmp` to its argument `.y`, used where the caller has a `.tmp` of its own, or none. -/
theorem templateMacro_hygienic_tmp :
    let template : Value := .call "__block__"
      [.call "=" [.var "tmp" .direct {}, .call "unquote" [.var "x" .direct {}] {}] {},
        .var "tmp" .direct {}] {}
    let body : MacroBody := ⟨"M", [⟨"x", .direct⟩], [.call "quote" [template] {}], none⟩
    let quoted : Info := { context := some (.quotedIn "M") }
    let e : Value := .call "__block__"
      [.call "=" [.var "tmp" (.quotedIn "M") {}, .var "y" .direct {}] quoted,
        .var "tmp" (.quotedIn "M") {}] quoted
    let m : Machine := ⟨{}, .loaded "App", [(⟨"tmp", .direct⟩, .nil), (⟨"y", .direct⟩, .yes)], false⟩
    let m' : Machine := ⟨{}, .loaded "App", [(⟨"y", .direct⟩, .yes)], false⟩
    template.isTemplate body.params = true ∧
      World.runMacro (.within (fun _ _ => []) 1) body [.var "y" .direct {}] {} = .ok e {} ∧
      ((evaluate (.within (fun _ _ => []) 1) e).after m).env.get? ⟨"tmp", .direct⟩ = some .nil ∧
      Eval.SameOutcome (· ≠ ⟨"tmp", .direct⟩) (evaluate (.within (fun _ _ => []) 1) e m)
        (evaluate (.within (fun _ _ => []) 1) e m') := by
  intro template body quoted e m m'
  have ht : template.isTemplate body.params = true := by decide
  have hrun : World.runMacro (.within (fun _ _ => []) 1) body [.var "y" .direct {}] {} = .ok e {} := rfl
  have agree : m.Agree (· ≠ ⟨"tmp", .direct⟩) m' := by
    refine ⟨rfl, rfl, rfl, fun x hx => ?_⟩
    show Env.get? _ x = (Env.bind _ _ _).get? x
    rw [Env.get?_bind, if_neg hx]
  exact ⟨ht, hrun, templateMacro_hygienic rfl ht hrun (by decide) (by decide) _ _ agree⟩

end MacroLang
