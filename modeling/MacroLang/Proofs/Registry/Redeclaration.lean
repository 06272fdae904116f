import MacroLang.Proofs.Code
import MacroLang.Proofs.Registry.Visibility

/-!
# What declarations change

Declaring something in a scope changes the declarations of that scope in one registry and nothing else of the session
(`Session.Redeclares`). A scope that the registry has already stays one of its scopes, and no other one is added. This
holds of the three changes that declarations are made of: `redeclares_openScope`, `redeclares_addDependency` and
`redeclares_putTable`.
-/

namespace MacroLang

variable {β : Type}

namespace Registry

theorem owns_iff {g : Registry β} {scope : String} : g.owns scope = true ↔ scope ∈ g.scopes := by
  simp [owns, table?, scopes, List.find?_isSome]

/-- The registry `g'` has the declarations of a scope in another state. -/
structure Redeclares (scope : String) (g g' : Registry β) : Prop where
  unit : g'.unit = g.unit
  inSession : g'.inSession = g.inSession
  frozen : g'.frozen = g.frozen
  macros : g'.macros = g.macros
  unshared : g'.unshared = g.unshared
  scopes : g.owns scope = true → g'.scopes = g.scopes

variable {scope : String} {g g' g'' : Registry β}

theorem Redeclares.refl (scope : String) (g : Registry β) : g.Redeclares scope g :=
  ⟨rfl, rfl, rfl, rfl, rfl, fun _ => rfl⟩

theorem Redeclares.owns (h : g.Redeclares scope g') (howns : g.owns scope = true) : g'.owns scope = true := by
  rw [owns_iff, h.scopes howns]
  exact owns_iff.1 howns

theorem Redeclares.trans (h : g.Redeclares scope g') (h' : g'.Redeclares scope g'') :
    g.Redeclares scope g'' where
  unit := h'.unit.trans h.unit
  inSession := h'.inSession.trans h.inSession
  frozen := h'.frozen.trans h.frozen
  macros := h'.macros.trans h.macros
  unshared := h'.unshared.trans h.unshared
  scopes howns := (h'.scopes (h.owns howns)).trans (h.scopes howns)

theorem scopes_updateTable (g : Registry β) {f : Declarations → Declarations}
    (hf : ∀ d, d.scope = scope → (f d).scope = scope) : (g.updateTable scope f).scopes = g.scopes := by
  unfold scopes updateTable
  rw [List.map_map]
  refine List.map_congr_left fun d _ => ?_
  show (if d.scope == scope then f d else d).scope = d.scope
  split
  · rename_i hd
    rw [hf d (eq_of_beq hd), eq_of_beq hd]
  · rfl

theorem redeclares_updateTable (g : Registry β) {f : Declarations → Declarations}
    (hf : ∀ d, d.scope = scope → (f d).scope = scope) : g.Redeclares scope (g.updateTable scope f) :=
  ⟨rfl, rfl, rfl, rfl, rfl, fun _ => scopes_updateTable g hf⟩

theorem withTable_of_owns (h : g.owns scope = true) : g.withTable scope = g :=
  if_pos h

theorem redeclares_withTable (g : Registry β) (scope : String) : g.Redeclares scope (g.withTable scope) := by
  cases howns : g.owns scope with
  | true =>
    rw [withTable_of_owns howns]
    exact .refl scope g
  | false =>
    have hadded : g.withTable scope = { g with tables := g.tables ++ [{ scope }] } := by
      simp [withTable, howns]
    rw [hadded]
    exact ⟨rfl, rfl, rfl, rfl, rfl, fun h => by simp [howns] at h⟩

theorem macros_withTable (g : Registry β) (scope : String) : (g.withTable scope).macros = g.macros :=
  (redeclares_withTable g scope).macros

theorem macros_addMacro (g : Registry β) (m : Macro β) : (g.addMacro m).macros = g.macros ++ [m] :=
  macros_withTable _ _

end Registry

theorem Declarations.scope_of_addAlias {d d' : Declarations} {module : String} {short? previous : Option String}
    {c : Context} (h : d.addAlias module short? c = .ok (previous, d')) : d'.scope = d.scope := by
  unfold addAlias at h
  dsimp only at h
  split at h
  · cases h
  · cases h
    rfl

namespace Session

/-- The session `s'` has the declarations of a scope of registry `r` in another state. -/
structure Redeclares (r : Nat) (scope : String) (s s' : Session β) : Prop where
  published : s'.published = s.published
  count : s'.registries.length = s.registries.length
  others : ∀ q, q ≠ r → s'.registry q = s.registry q
  registry : (s.registry r).Redeclares scope (s'.registry r)

variable {r : Nat} {scope : String} {s s' s'' : Session β}

theorem Redeclares.refl (r : Nat) (scope : String) (s : Session β) : s.Redeclares r scope s :=
  ⟨rfl, rfl, fun _ _ => rfl, .refl ..⟩

theorem Redeclares.trans (h : s.Redeclares r scope s') (h' : s'.Redeclares r scope s'') :
    s.Redeclares r scope s'' where
  published := h'.published.trans h.published
  count := h'.count.trans h.count
  others q hq := (h'.others q hq).trans (h.others q hq)
  registry := h.registry.trans h'.registry

theorem redeclares_update (s : Session β) {f : Registry β → Registry β}
    (hf : (s.registry r).Redeclares scope (f (s.registry r))) : s.Redeclares r scope (s.update r f) := by
  rcases Nat.lt_or_ge r s.registries.length with hr | hr
  · refine ⟨rfl, List.length_modify .., fun q hq => registry_update_of_ne s f (Ne.symm hq), ?_⟩
    rw [registry_update_self s r f hr]
    exact hf
  · rw [update_of_le s f hr]
    exact .refl ..

theorem redeclares_openScope (h : s.openScope r scope = .ok s') : s.Redeclares r scope s' := by
  unfold openScope at h
  split at h
  · cases h
    exact .refl ..
  · rw [except_bind_eq_ok] at h
    obtain ⟨_, -, h⟩ := h
    cases h
    exact redeclares_update s (Registry.redeclares_withTable ..)

/-- The declarations of a scope are put in the place of its old ones. -/
theorem redeclares_putTable (s : Session β) {table : Declarations} (h : table.scope = scope) :
    s.Redeclares r scope (s.update r (·.updateTable scope fun _ => table)) :=
  redeclares_update s (Registry.redeclares_updateTable _ fun _ _ => h)

theorem redeclares_addDependency {module : String} {c : Context} {imported : Bool}
    (h : s.addDependency r scope module c imported = .ok s') : s.Redeclares r scope s' := by
  unfold addDependency at h
  rw [except_bind_eq_ok] at h
  obtain ⟨s₁, hopen, h⟩ := h
  cases h
  refine (redeclares_openScope hopen).trans (redeclares_update s₁ ?_)
  refine Registry.redeclares_updateTable _ fun d hd => ?_
  split
  · exact hd
  · exact hd

end Session

end MacroLang
