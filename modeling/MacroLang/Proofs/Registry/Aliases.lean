import MacroLang.Proofs.Registry.Contexts

/-!
# What short names stand for

A table has at most one module for a short name and a context, whatever was declared before (`keyed_declareAll`), so
that its aliases of a context are what `alias?` finds. A name is resolved by its first segment, unless some alias of the
context stands for the whole name already, which is then kept.

Main statement: `resolve_addAlias`. A new alias takes effect for its short name, and for the names that begin with it,
as far as these are not the modules of other aliases (`resolve_addAlias_kept`).
-/

namespace MacroLang

namespace Declarations

/-! ## One module for each short name and context -/

/-- No two aliases have the same short name and context. -/
def Keyed (aliases : List Alias) : Prop :=
  aliases.Pairwise fun a b => ¬(a.short = b.short ∧ a.context = b.context)

theorem eq_or_mem_of_mem_putAlias {new a : Alias} {aliases : List Alias} (h : a ∈ putAlias new aliases) :
    a = new ∨ a ∈ aliases := by
  induction aliases with
  | nil => exact .inl (List.mem_singleton.1 h)
  | cons b rest ih =>
    by_cases hsame : b.short = new.short ∧ b.context = new.context
    · rw [putAlias_of_same hsame] at h
      exact (List.mem_cons.1 h).imp_right (List.mem_cons_of_mem b)
    · rw [putAlias_of_other hsame] at h
      rcases List.mem_cons.1 h with rfl | h
      · exact .inr List.mem_cons_self
      · exact (ih h).imp_right (List.mem_cons_of_mem b)

theorem keyed_putAlias {aliases : List Alias} (h : Keyed aliases) (new : Alias) : Keyed (putAlias new aliases) := by
  induction aliases with
  | nil => exact List.pairwise_singleton _ new
  | cons a rest ih =>
    obtain ⟨hfirst, hrest⟩ := List.pairwise_cons.1 h
    by_cases hsame : a.short = new.short ∧ a.context = new.context
    · rw [putAlias_of_same hsame]
      refine List.pairwise_cons.2 ⟨fun b hb => ?_, hrest⟩
      rw [← hsame.1, ← hsame.2]
      exact hfirst b hb
    · rw [putAlias_of_other hsame]
      refine List.pairwise_cons.2 ⟨fun b hb => ?_, ih hrest⟩
      rcases eq_or_mem_of_mem_putAlias hb with rfl | hb
      · exact hsame
      · exact hfirst b hb

/-- A declaration keeps the aliases keyed. -/
theorem keyed_declare {d : Declarations} (h : Keyed d.aliases) (x : Declaration) : Keyed (d.declare x).aliases := by
  cases x with
  | shortName module short? c =>
    rw [declare_shortName]
    split
    · exact h
    · exact keyed_putAlias h _
  | dependency module c imported => cases imported <;> exact h

/-- So do any declarations. -/
theorem keyed_declareAll {d : Declarations} (h : Keyed d.aliases) (declarations : List Declaration) :
    Keyed (d.declareAll declarations).aliases := by
  unfold declareAll
  induction declarations generalizing d with
  | nil => exact h
  | cons x rest ih => exact ih (keyed_declare h x)

theorem alias?_eq_some {d : Declarations} (h : Keyed d.aliases) {short module : String} {c : Context} :
    d.alias? short c = some module ↔ ⟨short, c, module⟩ ∈ d.aliases := by
  unfold alias?
  generalize d.aliases = aliases at h
  induction aliases with
  | nil => simp
  | cons a rest ih =>
    obtain ⟨hfirst, hrest⟩ := List.pairwise_cons.1 h
    by_cases hsame : a.short = short ∧ a.context = c
    · rw [List.find?_cons_of_pos (by simpa using hsame), Option.map_some, Option.some.injEq, List.mem_cons]
      obtain ⟨rfl, rfl⟩ := hsame
      constructor
      · rintro rfl
        exact .inl rfl
      · rintro (heq | hmem)
        · rw [← heq]
        · exact (hfirst _ hmem ⟨rfl, rfl⟩).elim
    · rw [List.find?_cons_of_neg (by simpa using hsame), ih hrest, List.mem_cons]
      refine ⟨.inr, fun hmem => hmem.resolve_left ?_⟩
      rintro rfl
      exact hsame ⟨rfl, rfl⟩

/-- Some alias of the context stands for the module. -/
theorem isTarget_iff {d : Declarations} (h : Keyed d.aliases) {module : String} {c : Context} :
    d.isTarget module c = true ↔ ∃ short, d.alias? short c = some module := by
  rw [isTarget, List.any_eq_true]
  constructor
  · rintro ⟨⟨short, context, target⟩, hmem, hsame⟩
    simp only [Bool.and_eq_true, beq_iff_eq] at hsame
    obtain ⟨rfl, rfl⟩ := hsame
    exact ⟨short, (alias?_eq_some h).2 hmem⟩
  · rintro ⟨short, halias⟩
    exact ⟨⟨short, c, module⟩, (alias?_eq_some h).1 halias, by simp⟩

/-! ## A new alias -/

theorem alias?_putAlias (d : Declarations) (new : Alias) (short : String) (c : Context) :
    ({ d with aliases := putAlias new d.aliases } : Declarations).alias? short c =
      if new.short = short ∧ new.context = c then some new.module else d.alias? short c := by
  unfold alias?
  generalize d.aliases = aliases
  dsimp only
  induction aliases with
  | nil =>
    by_cases hkey : new.short = short ∧ new.context = c
    · rw [putAlias, List.find?_cons_of_pos (by simpa using hkey), if_pos hkey, Option.map_some]
    · rw [putAlias, List.find?_cons_of_neg (by simpa using hkey), if_neg hkey]
  | cons a rest ih =>
    by_cases hsame : a.short = new.short ∧ a.context = new.context
    · rw [putAlias_of_same hsame]
      by_cases hkey : new.short = short ∧ new.context = c
      · rw [List.find?_cons_of_pos (by simpa using hkey), if_pos hkey, Option.map_some]
      · have hother : ¬(a.short = short ∧ a.context = c) := by
          rw [hsame.1, hsame.2]
          exact hkey
        rw [List.find?_cons_of_neg (by simpa using hkey), if_neg hkey,
          List.find?_cons_of_neg (by simpa using hother)]
    · rw [putAlias_of_other hsame]
      by_cases hfound : a.short = short ∧ a.context = c
      · have hkey : ¬(new.short = short ∧ new.context = c) := by
          rintro ⟨rfl, rfl⟩
          exact hsame hfound
        rw [List.find?_cons_of_pos (by simpa using hfound), if_neg hkey, List.find?_cons_of_pos (by simpa using hfound)]
      · rw [List.find?_cons_of_neg (by simpa using hfound), ih, List.find?_cons_of_neg (by simpa using hfound)]

/-- The first segment of a name that begins with a segment and a dot. -/
theorem splitFirst_append {short : String} (h : '.' ∉ short.toList) (rest : String) :
    splitFirst (short ++ "." ++ rest) = (short, rest) := by
  have hname : (short ++ "." ++ rest).toList = short.toList ++ '.' :: rest.toList := by simp
  have hfirst : (short.toList ++ '.' :: rest.toList).takeWhile (· ≠ '.') = short.toList := by
    rw [List.takeWhile_append_of_pos, List.takeWhile_cons_of_neg (by simp), List.append_nil]
    intro x hx
    exact decide_eq_true fun heq => h (heq ▸ hx)
  rw [splitFirst, hname, hfirst]
  simp

theorem splitFirst_segment {short : String} (h : '.' ∉ short.toList) : splitFirst short = (short, "") := by
  have hfirst : (short.toList ++ []).takeWhile (· ≠ '.') = short.toList := by
    rw [List.takeWhile_append_of_pos, List.takeWhile_nil, List.append_nil]
    intro x hx
    exact decide_eq_true fun heq => h (heq ▸ hx)
  rw [List.append_nil] at hfirst
  rw [splitFirst, hfirst]
  simp

theorem resolve_of_isTarget {d : Declarations} {name : String} {c : Context} (h : d.isTarget name c = true) :
    d.resolve name c = name :=
  if_pos h

/-- A name that no alias stands for is resolved by its first segment. -/
theorem resolve_of_alias? {d : Declarations} {name first rest module : String} {c : Context}
    (htarget : d.isTarget name c = false) (hname : splitFirst name = (first, rest))
    (h : d.alias? first c = some module) :
    d.resolve name c = if rest.isEmpty then module else module ++ "." ++ rest := by
  rw [resolve, if_neg (Bool.eq_false_iff.1 htarget), hname]
  dsimp only
  rw [h]

/-- An alias that is declared for a short name without a dot, in a table with any earlier declarations, takes effect.
The short name is resolved to the module, unless an alias of the same context with another short name stands for the
short name itself, which is then kept. A name that goes on behind the short name is resolved to the module with the same
rest, if there is a rest, unless an alias of the context stands for the whole name, which is then kept. -/
theorem resolve_addAlias (scope : String) (declarations : List Declaration) (module short : String) (c : Context)
    (hshort : '.' ∉ short.toList) :
    let d := declareAll { scope } declarations
    ∃ d', d.addAlias module (some short) c = .ok (d.alias? short c, d') ∧
      ((∀ other, other ≠ short → d'.alias? other c ≠ some short) → d'.resolve short c = module) ∧
      ((∃ other, other ≠ short ∧ d'.alias? other c = some short) → d'.resolve short c = short) ∧
      ∀ rest,
        ((∀ other, d'.alias? other c ≠ some (short ++ "." ++ rest)) →
          d'.resolve (short ++ "." ++ rest) c = if rest.isEmpty then module else module ++ "." ++ rest) ∧
        ((∃ other, d'.alias? other c = some (short ++ "." ++ rest)) →
          d'.resolve (short ++ "." ++ rest) c = short ++ "." ++ rest) := by
  intro d
  have hkeyed : Keyed d.aliases := keyed_declareAll (d := { scope }) .nil declarations
  let new : Alias := ⟨short, c, module⟩
  let d' : Declarations := { d with aliases := putAlias new d.aliases }
  have hkeyed' : Keyed d'.aliases := keyed_putAlias hkeyed new
  have hnew : d'.alias? short c = some module := (alias?_putAlias d new short c).trans (if_pos ⟨rfl, rfl⟩)
  have hadd : d.addAlias module (some short) c = .ok (d.alias? short c, d') :=
    if_neg fun hdot => hshort (List.contains_iff_mem.1 hdot)
  refine ⟨d', hadd, ?_, ?_, fun rest => ⟨?_, ?_⟩⟩
  · intro hothers
    by_cases htarget : d'.isTarget short c = true
    · -- the alias that stands for the short name can only be the new one
      obtain ⟨other, hother⟩ := (isTarget_iff hkeyed').1 htarget
      by_cases hsame : other = short
      · rw [hsame, hnew, Option.some.injEq] at hother
        rw [resolve_of_isTarget htarget, hother]
      · exact (hothers other hsame hother).elim
    · exact resolve_of_alias? (Bool.eq_false_iff.2 htarget) (splitFirst_segment hshort) hnew
  · rintro ⟨other, -, hother⟩
    exact resolve_of_isTarget ((isTarget_iff hkeyed').2 ⟨other, hother⟩)
  · intro hothers
    have htarget : d'.isTarget (short ++ "." ++ rest) c = false := by
      rw [Bool.eq_false_iff, ne_eq, isTarget_iff hkeyed']
      exact fun ⟨other, hother⟩ => hothers other hother
    exact resolve_of_alias? htarget (splitFirst_append hshort rest) hnew
  · rintro ⟨other, hother⟩
    exact resolve_of_isTarget ((isTarget_iff hkeyed').2 ⟨other, hother⟩)

/-- Behind an alias for `Foo`, a new alias takes effect for the names that go on behind `Foo`, but not for `Foo`. -/
theorem resolve_addAlias_chain :
    let d := declareAll { scope := "App" } [.shortName "Foo" (some "Bar") .direct]
    '.' ∉ "Foo".toList ∧ ∃ d', d.addAlias "Baz" (some "Foo") .direct = .ok (none, d') ∧
      d'.resolve "Foo" .direct = "Foo" ∧ d'.resolve "Foo.X" .direct = "Baz.X" := by
  intro d
  have hdot : '.' ∉ "Foo".toList := by decide
  have hmodules : ∀ a ∈ [Alias.mk "Bar" .direct "Foo", Alias.mk "Foo" .direct "Baz"], a.module ≠ "Foo.X" := by decide
  obtain ⟨d', hadd, -, hkept, hrest⟩ :=
    resolve_addAlias "App" [.shortName "Foo" (some "Bar") .direct] "Baz" "Foo" .direct hdot
  cases hadd
  refine ⟨hdot, _, rfl, hkept ⟨"Bar", by decide, rfl⟩, (hrest "X").1 fun other hother => ?_⟩
  obtain ⟨a, hfound, hmodule⟩ := Option.map_eq_some_iff.1 hother
  exact hmodules a (List.mem_of_find?_eq_some hfound) hmodule

/-- A new alias has no effect for a short name that another alias stands for, and without a rest there is no dot. -/
theorem resolve_addAlias_kept :
    let d := declareAll { scope := "App" } [.shortName "Foo" (some "Bar") .direct]
    ∃ d', d.addAlias "Baz" (some "Foo") .direct = .ok (none, d') ∧
      d'.resolve "Foo" .direct = "Foo" ∧ d'.resolve "Foo." .direct = "Baz" :=
  ⟨_, rfl, rfl, rfl⟩

end Declarations

end MacroLang
