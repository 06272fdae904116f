import MacroLang.Proofs.Registry.Invariant

/-!
# Declarations and contexts

A declaration holds for nodes of the context that it was made with. Of all that a table has, such a node reads the
declarations of its context only (`Declarations.ofContext`), and declaring something with one context leaves those of
every other context as they are. So what a table answers for a context is what it would answer if nothing had been
declared with any other one (`ofContext_declareAll`).

In a session, a declaration made in a scope with a context changes what nodes of that context read of that scope, and
nothing else that can be read from any registry (`Session.AgreesBut`, `agreesBut_perform`). This includes the first
declaration in a scope, which makes the scope one of the registry. A call reads the declarations of its own scope for
its own context and, if it comes from a quote, those that were typed in the quoting scope (`lookup_congr`).
-/

namespace MacroLang

variable {β : Type}

/-! ## Tables -/

namespace Declarations

/-- The declarations that nodes of a context made. -/
def ofContext (d : Declarations) (c : Context) : Declarations where
  scope := d.scope
  aliases := d.aliases.filter (·.context == c)
  imported := d.imported.filter (·.context == c)
  required := d.required.filter (·.context == c)

theorem alias?_ofContext (d : Declarations) (short : String) (c : Context) :
    (d.ofContext c).alias? short c = d.alias? short c := by
  unfold alias? ofContext
  rw [List.find?_filter]
  refine congrArg (Option.map _) (congrArg (List.find? · d.aliases) (funext fun a => ?_))
  rw [Bool.eq_iff_iff, decide_eq_true_iff, and_iff_right_iff_imp, Bool.and_eq_true]
  exact fun h => h.2

theorem isTarget_ofContext (d : Declarations) (module : String) (c : Context) :
    (d.ofContext c).isTarget module c = d.isTarget module c := by
  unfold isTarget ofContext
  rw [List.any_filter]
  refine congrArg (List.any d.aliases) (funext fun a => ?_)
  cases a.context == c with
  | true => rfl
  | false => rfl

theorem resolve_ofContext (d : Declarations) (name : String) (c : Context) :
    (d.ofContext c).resolve name c = d.resolve name c := by
  unfold resolve
  rw [isTarget_ofContext]
  simp only [alias?_ofContext]

theorem imports_ofContext (d : Declarations) (c : Context) : (d.ofContext c).imports c = d.imports c := by
  unfold imports ofContext
  rw [List.filter_filter]
  simp only [Bool.and_self]

theorem contains_filter_context (ds : List Dependency) (module : String) (c : Context) :
    (ds.filter (·.context == c)).contains ⟨module, c⟩ = ds.contains ⟨module, c⟩ := by
  rw [Bool.eq_iff_iff, List.contains_iff_mem, List.contains_iff_mem, List.mem_filter, beq_self_eq_true,
    and_iff_left rfl]

theorem dependsOn_ofContext (d : Declarations) (module : String) (c : Context) :
    (d.ofContext c).dependsOn module c = d.dependsOn module c := by
  unfold dependsOn ofContext
  rw [contains_filter_context, contains_filter_context]

/-! An alias, import or requirement shows among the declarations of its own context only. -/

theorem putAlias_of_same {new a : Alias} (h : a.short = new.short ∧ a.context = new.context) (rest : List Alias) :
    putAlias new (a :: rest) = new :: rest := by
  simp [putAlias, h]

theorem putAlias_of_other {new a : Alias} (h : ¬(a.short = new.short ∧ a.context = new.context))
    (rest : List Alias) : putAlias new (a :: rest) = a :: putAlias new rest := by
  rw [putAlias, if_neg (by simpa using h)]

theorem filter_putAlias {new : Alias} {c : Context} (aliases : List Alias) :
    (putAlias new aliases).filter (·.context == c) =
      if new.context = c then putAlias new (aliases.filter (·.context == c)) else aliases.filter (·.context == c) := by
  induction aliases with
  | nil =>
    by_cases hnew : new.context = c
    · simp [putAlias, hnew]
    · simp [putAlias, hnew]
  | cons a rest ih =>
    by_cases hsame : a.short = new.short ∧ a.context = new.context
    · rw [putAlias_of_same hsame, List.filter_cons, List.filter_cons, hsame.2]
      by_cases hnew : new.context = c
      · simp [hnew, putAlias_of_same hsame]
      · simp [hnew]
    · rw [putAlias_of_other hsame, List.filter_cons, ih, List.filter_cons]
      by_cases hnew : new.context = c
      · by_cases ha : a.context = c
        · simp [hnew, ha, putAlias_of_other hsame]
        · simp [hnew, ha]
      · simp [hnew]

theorem filter_addDependency {new : Dependency} {c : Context} (ds : List Dependency) :
    (addDependency new ds).filter (·.context == c) =
      if new.context = c then addDependency new (ds.filter (·.context == c)) else ds.filter (·.context == c) := by
  unfold addDependency
  by_cases hnew : new.context = c
  · by_cases hmem : new ∈ ds
    · simp [hnew, hmem]
    · simp [hnew, hmem]
  · by_cases hmem : new ∈ ds
    · simp [hnew, hmem]
    · simp [hnew, hmem]

theorem ofContext_addImport (d : Declarations) (module : String) (made c : Context) :
    (d.addImport module made).ofContext c =
      if made = c then (d.ofContext c).addImport module made else d.ofContext c := by
  unfold addImport ofContext
  dsimp only
  rw [filter_addDependency]
  split
  · rfl
  · rfl

theorem ofContext_addRequire (d : Declarations) (module : String) (made c : Context) :
    (d.addRequire module made).ofContext c =
      if made = c then (d.ofContext c).addRequire module made else d.ofContext c := by
  unfold addRequire ofContext
  dsimp only
  rw [filter_addDependency]
  split
  · rfl
  · rfl

end Declarations

/-- Something to declare in a scope, with the context of the node that does. -/
inductive Declaration where
  | shortName (module : String) (short? : Option String) (context : Context)
  /-- An import, or else a requirement. -/
  | dependency (module : String) (context : Context) (imported : Bool)

namespace Declaration

def context : Declaration → Context
  | .shortName _ _ c => c
  | .dependency _ c _ => c

/-- The module that a node of the context imports by the declaration. -/
def imported? (c : Context) : Declaration → Option String
  | .dependency module made true => if made = c then some module else none
  | _ => none

end Declaration

namespace Declarations

/-- The table after a declaration, or as it was if the declaration is refused. -/
def declare (d : Declarations) : Declaration → Declarations
  | .shortName module short? c => ((d.addAlias module short? c).toOption.map (·.2)).getD d
  | .dependency module c imported => if imported then d.addImport module c else d.addRequire module c

def declareAll (d : Declarations) (declarations : List Declaration) : Declarations :=
  declarations.foldl declare d

/-- A short name that is refused is refused by every table. -/
theorem declare_shortName (d : Declarations) (module : String) (short? : Option String) (c : Context) :
    d.declare (.shortName module short? c) =
      if (short?.getD (lastSegment module)).toList.contains '.' then d
      else { d with aliases := putAlias ⟨short?.getD (lastSegment module), c, module⟩ d.aliases } := by
  unfold declare addAlias
  dsimp only
  split
  · rfl
  · rfl

theorem ofContext_declare (d : Declarations) (x : Declaration) (c : Context) :
    (d.declare x).ofContext c = if x.context = c then (d.ofContext c).declare x else d.ofContext c := by
  cases x with
  | shortName module short? made =>
    rw [declare_shortName, declare_shortName]
    split
    · simp
    · show ({ d with aliases := _ } : Declarations).ofContext c = if made = c then _ else _
      unfold ofContext
      dsimp only
      rw [filter_putAlias]
      split
      · rfl
      · rfl
  | dependency module made imported =>
    cases imported with
    | true => exact d.ofContext_addImport module made c
    | false => exact d.ofContext_addRequire module made c

theorem ofContext_declare_of_ne (d : Declarations) {x : Declaration} {c : Context} (h : x.context ≠ c) :
    (d.declare x).ofContext c = d.ofContext c := by
  rw [ofContext_declare, if_neg h]

/-- A table has of each context what it would have if nothing else had been declared. -/
theorem ofContext_declareAll (d : Declarations) (declarations : List Declaration) (c : Context) :
    (d.declareAll declarations).ofContext c = (d.ofContext c).declareAll (declarations.filter (·.context == c)) := by
  unfold declareAll
  induction declarations generalizing d with
  | nil => rfl
  | cons x rest ih =>
    rw [List.foldl_cons, ih, ofContext_declare, List.filter_cons]
    by_cases hx : x.context = c
    · rw [if_pos hx, if_pos (by simpa using hx), List.foldl_cons]
    · rw [if_neg hx, if_neg (by simpa using hx)]

theorem mem_imports {d : Declarations} {module : String} {c : Context} :
    module ∈ d.imports c ↔ ⟨module, c⟩ ∈ d.imported := by
  unfold imports
  rw [List.mem_map]
  constructor
  · rintro ⟨⟨_, made⟩, hfilter, rfl⟩
    obtain ⟨hmem, hmade⟩ := List.mem_filter.1 hfilter
    exact eq_of_beq hmade ▸ hmem
  · exact fun hmem => ⟨⟨module, c⟩, List.mem_filter.2 ⟨hmem, beq_self_eq_true c⟩, rfl⟩

theorem imports_addImport (d : Declarations) (module : String) (c : Context) :
    (d.addImport module c).imports c =
      if module ∈ d.imports c then d.imports c else d.imports c ++ [module] := by
  unfold addImport addDependency
  split
  · rename_i hmem
    rw [if_pos (mem_imports.2 (List.contains_iff_mem.1 hmem))]
  · rename_i hmem
    rw [if_neg fun h => hmem (List.contains_iff_mem.2 (mem_imports.1 h))]
    simp [imports]

theorem eraseDups_concat (seen : List String) (module : String) :
    (seen ++ [module]).eraseDups = if module ∈ seen then seen.eraseDups else seen.eraseDups ++ [module] := by
  rw [List.eraseDups_append]
  by_cases hmodule : module ∈ seen
  · simp [List.removeAll, hmodule]
  · simp [List.removeAll, hmodule, List.eraseDups_cons]

/-- A module is listed when it is imported for the first time. -/
theorem imports_declare (d : Declarations) (x : Declaration) (c : Context) {seen : List String}
    (h : d.imports c = seen.eraseDups) : (d.declare x).imports c = (seen ++ (x.imported? c).toList).eraseDups := by
  have hother : x.imported? c = none → (d.declare x).imports c = d.imports c →
      (d.declare x).imports c = (seen ++ (x.imported? c).toList).eraseDups := by
    intro hnone hsame
    rw [hsame, hnone, Option.toList_none, List.append_nil, h]
  cases x with
  | shortName module short? made =>
    refine hother rfl ?_
    rw [declare_shortName]
    split
    · rfl
    · rfl
  | dependency module made imported =>
    cases imported with
    | false => exact hother rfl rfl
    | true =>
      by_cases hmade : made = c
      · subst hmade
        have hmodule : (Declaration.dependency module made true).imported? made = some module := if_pos rfl
        rw [hmodule, Option.toList_some, eraseDups_concat]
        refine (d.imports_addImport module made).trans ?_
        rw [h]
        simp only [List.mem_eraseDups]
      · refine hother (if_neg hmade) ?_
        have hsame := d.ofContext_addImport module made c
        rw [if_neg hmade] at hsame
        have hdeclare : d.declare (.dependency module made true) = d.addImport module made := rfl
        rw [hdeclare, ← imports_ofContext, hsame, imports_ofContext]

/-- The modules that nodes of a context import are listed once each, in the order in which they were first imported. -/
theorem imports_declareAll (scope : String) (declarations : List Declaration) (c : Context) :
    (declareAll { scope } declarations).imports c = (declarations.filterMap (·.imported? c)).eraseDups := by
  have hgeneral : ∀ (d : Declarations) (seen : List String), d.imports c = seen.eraseDups →
      (d.declareAll declarations).imports c = (seen ++ declarations.filterMap (·.imported? c)).eraseDups := by
    unfold declareAll
    induction declarations with
    | nil =>
      intro d seen h
      rw [List.filterMap_nil, List.append_nil]
      exact h
    | cons x rest ih =>
      intro d seen h
      rw [List.foldl_cons, ih _ _ (imports_declare d x c h), List.append_assoc]
      cases hx : x.imported? c with
      | none => rw [List.filterMap_cons_none hx, Option.toList_none, List.nil_append]
      | some module => rw [List.filterMap_cons_some hx, Option.toList_some, List.singleton_append]
  exact hgeneral { scope } [] rfl

end Declarations

/-! ## Sessions -/

namespace Session

variable {s s' s'' : Session β} {r : Nat} {scope : String}

/-- The declarations of a scope that nodes of a context read, as unit `r` sees them. -/
def declaredTo (s : Session β) (r : Nat) (scope : String) (c : Context) : Declarations :=
  ((s.declarationsFor r scope).getD { scope }).ofContext c

theorem importsOf_eq_declaredTo (s : Session β) (r : Nat) (scope : String) (c : Context) :
    s.importsOf r scope c = (s.declaredTo r scope c).imports c := by
  rw [declaredTo, Declarations.imports_ofContext, importsOf]
  cases s.declarationsFor r scope with
  | none => rfl
  | some d => rfl

theorem dependsOn_eq_declaredTo (s : Session β) (r : Nat) (scope module : String) (c : Context) :
    s.dependsOn r scope module c = (s.declaredTo r scope c).dependsOn module c := by
  rw [declaredTo, Declarations.dependsOn_ofContext, dependsOn]
  cases s.declarationsFor r scope with
  | none => rfl
  | some d => rfl

theorem resolveAlias_eq_declaredTo (s : Session β) (r : Nat) (scope module : String) (c : Context) :
    s.resolveAlias r scope module c = (s.declaredTo r scope c).resolve module c := by
  rw [declaredTo, Declarations.resolve_ofContext, resolveAlias]
  cases s.declarationsFor r scope with
  | none => rfl
  | some d => rfl

/-- What a call means depends on the macros, on what is declared to its context in its scope and, if it comes from a
quote, on what is declared to typed code in the quoting scope. -/
theorem lookup_congr {caller name : String} {arity : Nat} {c : Context} {module? : Option String}
    (hmacros : ∀ scope, s'.macro? r scope name arity = s.macro? r scope name arity)
    (hcaller : s'.declaredTo r caller c = s.declaredTo r caller c)
    (horigin : ∀ origin, c = .quotedIn origin → s'.declaredTo r origin .direct = s.declaredTo r origin .direct) :
    s'.lookup r caller name arity c module? = s.lookup r caller name arity c module? := by
  have hfirst : ∀ modules, s'.firstPublic? r modules name arity = s.firstPublic? r modules name arity := by
    intro modules
    simp only [firstPublic?, publicMacro?, hmacros]
  unfold lookup
  split
  · rfl
  · cases module? with
    | some module =>
      have hmay : s'.mayName r caller module c = s.mayName r caller module c := by
        unfold mayName
        rw [dependsOn_eq_declaredTo, dependsOn_eq_declaredTo s, hcaller]
        cases c with
        | direct => rfl
        | quotedIn origin =>
          dsimp only
          rw [dependsOn_eq_declaredTo, dependsOn_eq_declaredTo s, horigin origin rfl]
      simp only [lookupRemote, hmacros, hmay]
    | none =>
      dsimp only [lookupLocal]
      rw [hmacros, importsOf_eq_declaredTo, importsOf_eq_declaredTo s, hcaller, hfirst]
      cases c with
      | direct => rfl
      | quotedIn origin =>
        dsimp only [lookupOrigin, publicMacro?]
        rw [importsOf_eq_declaredTo, importsOf_eq_declaredTo s, horigin origin rfl, hmacros, hfirst]

/-- What is read from another unit comes from the same one in both sessions. -/
theorem exists_otherOwner (hpublished : s'.published = s.published)
    (hin : (s'.registry r).inSession = (s.registry r).inSession) (scope : String) :
    ∃ owner? : Option Nat, s.otherRegistry? r scope = owner?.map s.registry ∧
      s'.otherRegistry? r scope = owner?.map s'.registry := by
  unfold otherRegistry? publisher?
  rw [hpublished, hin]
  cases (s.registry r).inSession with
  | false => exact ⟨none, rfl, rfl⟩
  | true =>
    cases s.published.lookup scope with
    | none => exact ⟨none, rfl, rfl⟩
    | some owner =>
      by_cases howner : owner = r
      · exact ⟨none, by simp [howner], by simp [howner]⟩
      · exact ⟨some owner, by simp [howner], by simp [howner]⟩

/-- If all registries have the same macro, then it is found in both sessions. A scope may be new to the registry if it
was not read from another one. -/
theorem macro?_congr {name : String} {arity : Nat} (hpublished : s'.published = s.published)
    (hin : (s'.registry r).inSession = (s.registry r).inSession)
    (howns : (s'.registry r).owns scope = (s.registry r).owns scope ∨ s.otherRegistry? r scope = none)
    (hfound : ∀ q, (s'.registry q).macro? scope name arity = (s.registry q).macro? scope name arity) :
    s'.macro? r scope name arity = s.macro? r scope name arity := by
  obtain ⟨owner?, hother, hother'⟩ := exists_otherOwner hpublished hin scope
  unfold macro?
  rw [hfound, hother, hother', Option.bind_map, Option.bind_map, Function.comp_def, Function.comp_def]
  simp only [hfound]
  rcases howns with hsame | hnone
  · rw [hsame]
  · obtain rfl : owner? = none := by simpa [hother] using hnone
    simp

/-- The same for what is declared to a context. -/
theorem declaredTo_congr {c : Context} (hpublished : s'.published = s.published)
    (hin : (s'.registry r).inSession = (s.registry r).inSession)
    (howns : (s'.registry r).owns scope = (s.registry r).owns scope ∨ s.otherRegistry? r scope = none)
    (htable : ∀ q, (((s'.registry q).table? scope).getD { scope := scope }).ofContext c =
      (((s.registry q).table? scope).getD { scope := scope }).ofContext c) :
    s'.declaredTo r scope c = s.declaredTo r scope c := by
  obtain ⟨owner?, hother, hother'⟩ := exists_otherOwner hpublished hin scope
  unfold declaredTo
  rcases howns with hsame | hnone
  · have hq := htable r
    unfold declarationsFor
    unfold Registry.owns at hsame
    cases hnew : (s'.registry r).table? scope with
    | some d' =>
      cases hold : (s.registry r).table? scope with
      | some d => rwa [hnew, hold] at hq
      | none => simp [hnew, hold] at hsame
    | none =>
      cases hold : (s.registry r).table? scope with
      | some d => simp [hnew, hold] at hsame
      | none =>
        dsimp only
        rw [hother, hother']
        cases owner? with
        | none => rfl
        | some owner => exact htable owner
  · obtain rfl : owner? = none := by simpa [hother] using hnone
    rw [declarationsFor_of_alone hother, declarationsFor_of_alone hother', htable]

/-- In the second session more may be declared in a scope, with contexts that satisfy `made`. All else that can be read
from the registries is the same. -/
structure AgreesBut (scope : String) (made : Context → Prop) (s s' : Session β) : Prop where
  macros : ∀ q other name arity, s'.macro? q other name arity = s.macro? q other name arity
  declared : ∀ q other c, ¬(other = scope ∧ made c) → s'.declaredTo q other c = s.declaredTo q other c

variable {made : Context → Prop}

theorem AgreesBut.refl (scope : String) (made : Context → Prop) (s : Session β) : AgreesBut scope made s s :=
  ⟨fun _ _ _ _ => rfl, fun _ _ _ _ => rfl⟩

theorem AgreesBut.trans (h : AgreesBut scope made s s') (h' : AgreesBut scope made s' s'') :
    AgreesBut scope made s s'' where
  macros q other name arity := (h'.macros q other name arity).trans (h.macros q other name arity)
  declared q other c hc := (h'.declared q other c hc).trans (h.declared q other c hc)

theorem AgreesBut.resolveAlias_eq (h : AgreesBut scope made s s') {caller : String} {c : Context}
    (hc : ¬(caller = scope ∧ made c)) (q : Nat) (module : String) :
    s'.resolveAlias q caller module c = s.resolveAlias q caller module c := by
  rw [resolveAlias_eq_declaredTo, resolveAlias_eq_declaredTo, h.declared q caller c hc]

theorem AgreesBut.lookup_eq (h : AgreesBut scope made s s') {caller : String} {c : Context}
    (hc : ¬(caller = scope ∧ made c)) (horigin : ¬(made .direct ∧ c = .quotedIn scope)) (q : Nat) (name : String)
    (arity : Nat) (module? : Option String) :
    s'.lookup q caller name arity c module? = s.lookup q caller name arity c module? := by
  refine lookup_congr (fun other => h.macros q other name arity) (h.declared q caller c hc) fun origin hquoted => ?_
  refine h.declared q origin .direct fun hmade => horigin ⟨hmade.2, ?_⟩
  rw [hquoted, hmade.1]

/-- A registry is changed so that its macros stay and only some declarations of one scope differ. A scope may be new to
the registry if the unit does not read it from another one. -/
theorem agreesBut_update {f : Registry β → Registry β} (hmacros : (f (s.registry r)).macros = (s.registry r).macros)
    (hin : (f (s.registry r)).inSession = (s.registry r).inSession)
    (howns : ∀ other, (f (s.registry r)).owns other = (s.registry r).owns other ∨ s.otherRegistry? r other = none)
    (htables : ∀ other c, ¬(other = scope ∧ made c) →
      (((f (s.registry r)).table? other).getD { scope := other }).ofContext c =
        (((s.registry r).table? other).getD { scope := other }).ofContext c) :
    AgreesBut scope made s (s.update r f) := by
  rcases Nat.lt_or_ge r s.registries.length with hr | hr
  case inr => rw [update_of_le s f hr]; exact .refl ..
  -- each registry is as it was, or it is the one that was changed
  have hregistry : ∀ q, (s.update r f).registry q = s.registry q ∨
      q = r ∧ (s.update r f).registry q = f (s.registry r) := by
    intro q
    rw [registry_update s hr]
    by_cases hq : q = r
    · exact .inr ⟨hq, if_pos hq⟩
    · exact .inl (if_neg hq)
  have hin' : ∀ q, ((s.update r f).registry q).inSession = (s.registry q).inSession := by
    intro q
    obtain hq | ⟨rfl, hq⟩ := hregistry q
    · rw [hq]
    · rw [hq, hin]
  have howns' : ∀ q other, ((s.update r f).registry q).owns other = (s.registry q).owns other ∨
      s.otherRegistry? q other = none := by
    intro q other
    obtain hq | ⟨rfl, hq⟩ := hregistry q
    · exact .inl (by rw [hq])
    · rw [hq]
      exact howns other
  constructor
  · intro q other name arity
    refine macro?_congr rfl (hin' q) (howns' q other) fun q => ?_
    obtain hq | ⟨rfl, hq⟩ := hregistry q
    · rw [hq]
    · rw [hq, Registry.macro?, hmacros, Registry.macro?]
  · intro q other c hc
    refine declaredTo_congr rfl (hin' q) (howns' q other) fun q => ?_
    obtain hq | ⟨rfl, hq⟩ := hregistry q
    · rw [hq]
    · rw [hq, htables other c hc]

/-- A scope that is opened has no declarations. -/
theorem agreesBut_openScope (made : Context → Prop) (h : s.openScope r scope = .ok s') : AgreesBut scope made s s' := by
  cases howns : (s.registry r).owns scope with
  | true =>
    rw [openScope_of_owns howns] at h
    cases h
    exact .refl ..
  | false =>
    rw [openScope, howns, if_neg Bool.false_ne_true] at h
    obtain ⟨_, hwritable, h⟩ := except_bind_eq_ok.1 h
    cases h
    have htables := Registry.table?_withTable (s.registry r) howns
    have hnone : (s.registry r).table? scope = none := by simpa [Registry.owns] using howns
    have hopened := Registry.redeclares_withTable (s.registry r) scope
    refine agreesBut_update hopened.macros hopened.inSession (fun other => ?_) fun other c _ => ?_
    · by_cases ho : other = scope
      · subst ho
        exact .inr (otherRegistry?_of_checkWritable hwritable)
      · exact .inl (by rw [Registry.owns, htables, if_neg ho, Registry.owns])
    · rw [htables]
      split
      · rename_i ho
        rw [ho, hnone]
        rfl
      · rfl

/-- The declarations of a scope are changed for some contexts. -/
theorem agreesBut_updateTable {f : Declarations → Declarations} (hf : ∀ d, d.scope = scope → (f d).scope = scope)
    (hmade : ∀ d, (s.registry r).table? scope = some d → ∀ c, ¬made c → (f d).ofContext c = d.ofContext c) :
    AgreesBut scope made s (s.update r (·.updateTable scope f)) := by
  refine agreesBut_update rfl rfl (fun other => .inl (Registry.owns_updateTable _ hf other)) fun other c hc => ?_
  rw [Registry.table?_updateTable _ hf]
  split
  · rename_i ho
    rw [ho]
    cases hd : (s.registry r).table? scope with
    | none => rfl
    | some d => exact hmade d hd c fun hmade => hc ⟨ho, hmade⟩
  · rfl

theorem ofContext_of_addAlias {d d' : Declarations} {module : String} {short? previous : Option String}
    {made c : Context} (h : d.addAlias module short? made = .ok (previous, d')) (hc : c ≠ made) :
    d'.ofContext c = d.ofContext c := by
  have hdeclare : d.declare (.shortName module short? made) = d' := by
    rw [Declarations.declare, h]
    rfl
  rw [← hdeclare]
  exact d.ofContext_declare_of_ne hc.symm

theorem agreesBut_addAlias {module : String} {short? : Option String} {c : Context} (hmade : made c)
    {entry : Option String × Declarations} (h : (s.table r scope).addAlias module short? c = .ok entry) :
    AgreesBut scope made s (s.update r (·.updateTable scope fun _ => entry.2)) := by
  refine agreesBut_updateTable (fun _ _ => ?_) fun d hd other hother => ?_
  · rw [Declarations.scope_of_addAlias h, scope_table]
  · rw [table_of_table? hd] at h
    exact ofContext_of_addAlias h fun heq => hother (heq ▸ hmade)

theorem agreesBut_addDependency {module : String} {c : Context} {imported : Bool} (hmade : made c)
    (h : s.addDependency r scope module c imported = .ok s') : AgreesBut scope made s s' := by
  unfold addDependency at h
  obtain ⟨s₁, hopen, h⟩ := except_bind_eq_ok.1 h
  cases h
  refine (agreesBut_openScope made hopen).trans (agreesBut_updateTable (fun d hd => ?_) fun d _ other hother => ?_)
  · split
    · exact hd
    · exact hd
  · have hne : (Declaration.dependency module c imported).context ≠ other := fun heq => hother (heq ▸ hmade)
    exact d.ofContext_declare_of_ne hne

end Session

/-- The scope and the context of a declaration that a registry is asked for. -/
def Operation.declares? : Operation β → Option (String × Context)
  | .addAlias scope _ _ c => some (scope, c)
  | .addDependency scope _ c _ => some (scope, c)
  | _ => none

namespace Session

/-- Whether or not it is accepted, a declaration shows only to nodes of its context, in its scope. -/
theorem agreesBut_perform (s : Session β) (r : Nat) {op : Operation β} {scope : String} {c : Context}
    (h : op.declares? = some (scope, c)) : AgreesBut scope (· = c) s (s.perform r op).1 := by
  cases op with
  | addAlias _ module short? _ =>
    cases h
    rw [perform]
    cases hopen : s.openScope r scope with
    | error e => exact .refl ..
    | ok s₁ =>
      refine (agreesBut_openScope _ hopen).trans ?_
      dsimp only
      rw [addAlias]
      cases halias : (s₁.table r scope).addAlias module short? c with
      | error e => exact .refl ..
      | ok entry => exact agreesBut_addAlias (by exact rfl) halias
  | addDependency _ module _ imported =>
    cases h
    rw [perform]
    cases hadd : s.addDependency r scope module c imported with
    | error e => exact .refl ..
    | ok s' => exact agreesBut_addDependency (by exact rfl) hadd
  | _ => cases h

end Session

end MacroLang
