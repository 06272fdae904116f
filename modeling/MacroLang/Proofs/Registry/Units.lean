import MacroLang.Proofs.Registry.Operations

/-!
# A session with one more unit

While a unit is compiled, the session is what it was before, with one more registry (`Session.WithUnit`): nothing is
published, and the registries of other units stay as they are. Declarations and macros in a scope of the unit keep it
that way, and a new scope becomes the last one of the unit. At the end all scopes but the script's are published. If
none of them was published before, there is no conflict, and they are added in their order (`WithUnit.publish`). What
holds of all macros from before and of each one that is registered then holds of all (`Session.AllMacros`).
-/

namespace MacroLang

variable {β : Type}

namespace Registry

theorem scopes_withTable {g : Registry β} {scope : String} (h : g.owns scope = false) :
    (g.withTable scope).scopes = g.scopes ++ [scope] := by
  simp [withTable, h, scopes]

theorem scopes_addMacro {g : Registry β} {m : Macro β} (h : g.owns m.scope = true) :
    (g.addMacro m).scopes = g.scopes := by
  have howns : ({ g with macros := g.macros ++ [m] } : Registry β).owns m.scope = true := h
  rw [addMacro, withTable_of_owns howns]
  rfl

theorem unshared_withTable (g : Registry β) (scope : String) : (g.withTable scope).unshared = g.unshared :=
  (redeclares_withTable g scope).unshared

end Registry

namespace Session

theorem lookup_eq_none_iff {published : List (String × Nat)} {scope : String} :
    published.lookup scope = none ↔ scope ∉ published.map Prod.fst := by
  rw [List.lookup_eq_none_iff]
  constructor
  · intro h hmem
    obtain ⟨p, hp, rfl⟩ := List.mem_map.1 hmem
    simpa using h p hp
  · intro h p hp
    exact bne_iff_ne.2 fun heq => h (heq ▸ List.mem_map_of_mem hp)

theorem lookup_of_mem {published : List (String × Nat)} {scope : String} {r : Nat}
    (hnodup : (published.map Prod.fst).Nodup) (hmem : (scope, r) ∈ published) : published.lookup scope = some r := by
  induction published with
  | nil => cases hmem
  | cons p published ih =>
    obtain ⟨hp, hrest⟩ := List.nodup_cons.1 hnodup
    rcases List.mem_cons.1 hmem with rfl | hmem
    · exact List.lookup_cons_self
    · have hne : scope ≠ p.1 := ne_of_mem_of_not_mem (List.mem_map_of_mem hmem) hp
      rw [List.lookup_cons, beq_false_of_ne hne]
      exact ih hrest hmem

theorem isPublished_eq_false {s : Session β} {scope : String} :
    s.isPublished scope = false ↔ scope ∉ s.published.map Prod.fst := by
  rw [isPublished, Option.isSome_eq_false_iff, Option.isNone_iff_eq_none, publisher?, lookup_eq_none_iff]

/-- A new scope becomes the last one. -/
theorem scopes_openScope {s s' : Session β} {r : Nat} {scope : String} (hr : r < s.registries.length)
    (hnew : (s.registry r).owns scope = false) (h : s.openScope r scope = .ok s') :
    (s'.registry r).scopes = (s.registry r).scopes ++ [scope] := by
  unfold openScope at h
  rw [hnew, if_neg Bool.false_ne_true, except_bind_eq_ok] at h
  obtain ⟨_, -, h⟩ := h
  cases h
  rw [registry_update_self s r _ hr, Registry.scopes_withTable hnew]

/-- Scopes that were not published before are added in their order. -/
theorem foldl_addPublished (r : Nat) {names : List String} {published : List (String × Nat)} (hnodup : names.Nodup)
    (hfresh : ∀ n ∈ names, n ∉ published.map Prod.fst) :
    names.foldl (addPublished r) published = published ++ names.map (·, r) := by
  induction names generalizing published with
  | nil => simp
  | cons n names ih =>
    obtain ⟨hn, hnames⟩ := List.nodup_cons.1 hnodup
    have hadd : addPublished r published n = published ++ [(n, r)] := by
      rw [addPublished, lookup_eq_none_iff.2 (hfresh n List.mem_cons_self)]
      rfl
    rw [List.foldl_cons, hadd, ih hnames]
    · simp
    · intro k hk hmem
      rw [List.map_append, List.mem_append] at hmem
      rcases hmem with hold | hnew
      · exact hfresh k (List.mem_cons_of_mem _ hk) hold
      · cases List.mem_singleton.1 hnew
        exact hn hk

/-- All macros of a session fit. -/
def AllMacros (fits : Macro β → Prop) (s : Session β) : Prop :=
  ∀ r, ∀ m ∈ (s.registry r).macros, fits m

/-- The session `s` is `s₀` with one more unit, whose scopes are that of its script and those of some modules. The
macros of the unit fit. -/
structure WithUnit (s₀ : Session β) (script : String) (fits : Macro β → Prop) (modules : List String) (s : Session β) :
    Prop where
  published : s.published = s₀.published
  count : s.registries.length = s₀.registries.length + 1
  others : ∀ q < s₀.registries.length, s.registry q = s₀.registry q
  unshared : (s.registry s₀.registries.length).unshared = [script]
  scopes : (s.registry s₀.registries.length).scopes = script :: modules
  macros : ∀ m ∈ (s.registry s₀.registries.length).macros, fits m ∧ m.scope ∈ script :: modules

namespace WithUnit

variable {s₀ s s' : Session β} {script scope : String} {fits : Macro β → Prop} {modules : List String}

theorem owns_iff (h : s₀.WithUnit script fits modules s) :
    (s.registry s₀.registries.length).owns scope = true ↔ scope ∈ script :: modules := by
  rw [Registry.owns_iff, h.scopes]

/-- A macro of any registry is one of the unit or one from before. -/
theorem macros_of (h : s₀.WithUnit script fits modules s) {q : Nat} {m : Macro β} (hm : m ∈ (s.registry q).macros) :
    (fits m ∧ m.scope ∈ script :: modules) ∨ m ∈ (s₀.registry q).macros := by
  rcases Nat.lt_trichotomy q s₀.registries.length with hq | rfl | hq
  · exact .inr (h.others q hq ▸ hm)
  · exact .inl (h.macros m hm)
  · rw [registry_of_le s (by rw [h.count]; exact hq)] at hm
    cases hm

theorem allMacros (h : s₀.WithUnit script fits modules s) (h₀ : s₀.AllMacros fits) : s.AllMacros fits := by
  intro q m hm
  rcases h.macros_of hm with ⟨hfits, -⟩ | hold
  · exact hfits
  · exact h₀ q m hold

/-- The macros that the unit sees are its own and those that were published before. -/
theorem sees (h : s₀.WithUnit script fits modules s) {m : Macro β} (hm : s.Sees s₀.registries.length m) :
    (fits m ∧ m.scope ∈ script :: modules) ∨
      ∃ q, s₀.publisher? m.scope = some q ∧ m ∈ (s₀.registry q).macros := by
  rcases hm with hown | ⟨q, hq, hmem⟩
  · exact .inl (h.macros m hown)
  · rw [publisher?, h.published] at hq
    exact (h.macros_of hmem).imp_right fun hold => ⟨q, hq, hold⟩

/-- The registry of the unit may be changed. -/
theorem update (h : s₀.WithUnit script fits modules s) {f : Registry β → Registry β} {modules' : List String}
    (hunshared : ∀ g, (f g).unshared = g.unshared)
    (hscopes : (f (s.registry s₀.registries.length)).scopes = script :: modules')
    (hmacros : ∀ m ∈ (f (s.registry s₀.registries.length)).macros, fits m ∧ m.scope ∈ script :: modules') :
    s₀.WithUnit script fits modules' (s.update s₀.registries.length f) := by
  have hr : s₀.registries.length < s.registries.length := by
    rw [h.count]
    exact Nat.lt_succ_self _
  refine ⟨h.published, ?_, fun q hq => ?_, ?_, ?_, ?_⟩
  · rw [← h.count]
    exact List.length_modify ..
  · rw [registry_update_of_ne s f (Nat.ne_of_gt hq), h.others q hq]
  · rw [registry_update_self s _ f hr, hunshared, h.unshared]
  · rw [registry_update_self s _ f hr, hscopes]
  · rw [registry_update_self s _ f hr]
    exact hmacros

/-- Declarations may be made in a scope of the unit. -/
theorem redeclare (h : s₀.WithUnit script fits modules s) (hs : s.Redeclares s₀.registries.length scope s')
    (hscope : scope ∈ script :: modules) : s₀.WithUnit script fits modules s' where
  published := hs.published.trans h.published
  count := hs.count.trans h.count
  others q hq := (hs.others q (Nat.ne_of_lt hq)).trans (h.others q hq)
  unshared := hs.registry.unshared.trans h.unshared
  scopes := (hs.registry.scopes (h.owns_iff.2 hscope)).trans h.scopes
  macros m hm := h.macros m (hs.registry.macros ▸ hm)

theorem openScope (h : s₀.WithUnit script fits modules s) (hnew : scope ∉ script :: modules)
    (hopen : s.openScope s₀.registries.length scope = .ok s') : s₀.WithUnit script fits (modules ++ [scope]) s' := by
  have hs := redeclares_openScope hopen
  have howns : (s.registry s₀.registries.length).owns scope = false :=
    Bool.eq_false_iff.2 fun howns => hnew (h.owns_iff.1 howns)
  refine ⟨hs.published.trans h.published, hs.count.trans h.count, fun q hq => ?_, ?_, ?_, fun m hm => ?_⟩
  · exact (hs.others q (Nat.ne_of_lt hq)).trans (h.others q hq)
  · exact hs.registry.unshared.trans h.unshared
  · rw [scopes_openScope (by simp [h.count]) howns hopen, h.scopes]
    rfl
  · obtain ⟨hfits, hold⟩ := h.macros m (hs.registry.macros ▸ hm)
    exact ⟨hfits, List.mem_append_left [scope] hold⟩

theorem register (h : s₀.WithUnit script fits modules s) {m : Macro β} (hfits : fits m)
    (hscope : m.scope ∈ script :: modules) (hregister : s.register s₀.registries.length m = .ok s') :
    s₀.WithUnit script fits modules s' := by
  rw [(register_eq_ok hregister).2]
  refine h.update (fun g => Registry.unshared_withTable _ _) ?_ fun k hk => ?_
  · rw [Registry.scopes_addMacro (h.owns_iff.2 hscope), h.scopes]
  · rw [Registry.macros_addMacro, List.mem_append] at hk
    rcases hk with hold | hlast
    · exact h.macros k hold
    · exact List.mem_singleton.1 hlast ▸ ⟨hfits, hscope⟩

/-- All scopes but the script's are published, without a conflict. -/
theorem publish (h : s₀.WithUnit script fits modules s) (hfresh : ∀ n ∈ modules, n ∉ s₀.published.map Prod.fst)
    (hnodup : (script :: modules).Nodup) :
    ∃ s', s.publish s₀.registries.length = (s', .ok ()) ∧
      s'.published = s₀.published ++ modules.map (·, s₀.registries.length) ∧
      s'.registries.length = s₀.registries.length + 1 ∧
      (∀ q < s₀.registries.length, s'.registry q = s₀.registry q) ∧
      (s₀.AllMacros fits → s'.AllMacros fits) := by
  have hfrozen : s₀.WithUnit script fits modules (s.freeze s₀.registries.length) :=
    h.update (fun _ => rfl) h.scopes h.macros
  obtain ⟨hscript, hmodules⟩ := List.nodup_cons.1 hnodup
  have hshared : ((s.freeze s₀.registries.length).registry s₀.registries.length).sharedScopes = modules := by
    rw [Registry.sharedScopes, hfrozen.scopes, hfrozen.unshared]
    have hkept : modules.filter (fun scope => !(List.contains [script] scope)) = modules :=
      List.filter_eq_self.2 fun n hn => by simp [ne_of_mem_of_not_mem hn hscript]
    simp only [List.filter_cons, hkept]
    simp
  have hconflict : (s.freeze s₀.registries.length).conflict? s₀.registries.length modules = none := by
    refine List.findSome?_eq_none_iff.2 fun n hn => ?_
    rw [publisher?, hfrozen.published, lookup_eq_none_iff.2 (hfresh n hn)]
    rfl
  refine ⟨{ s.freeze s₀.registries.length with
    published := s₀.published ++ modules.map (·, s₀.registries.length) }, ?_, rfl, hfrozen.count, hfrozen.others,
    hfrozen.allMacros⟩
  rw [Session.publish]
  dsimp only
  rw [hshared, hconflict, hfrozen.published, foldl_addPublished _ hmodules hfresh]

end WithUnit

/-- The session with a registry for a new unit, before its script has a scope. -/
def newUnit (s : Session β) (unit script : String) : Session β :=
  (s.addRegistry { unit }).hideScope s.registries.length script

theorem registry_newUnit (s : Session β) (unit script : String) :
    (s.newUnit unit script).registry s.registries.length = { unit, unshared := [script] } := by
  rw [newUnit, hideScope, registry_update_self _ _ _ (by simp [addRegistry])]
  simp [addRegistry, registry]

theorem registry_newUnit_of_lt (s : Session β) (unit script : String) {q : Nat} (hq : q < s.registries.length) :
    (s.newUnit unit script).registry q = s.registry q := by
  rw [newUnit, hideScope, registry_update_of_ne _ _ (Nat.ne_of_gt hq)]
  simp [addRegistry, registry, List.getElem?_append_left hq]

theorem length_newUnit (s : Session β) (unit script : String) :
    (s.newUnit unit script).registries.length = s.registries.length + 1 := by
  simp [newUnit, hideScope, addRegistry, update]

/-- The new unit has no macros yet. -/
theorem mem_macros_of_newUnit {s : Session β} {unit script : String} {q : Nat} {m : Macro β}
    (hm : m ∈ ((s.newUnit unit script).registry q).macros) : m ∈ (s.registry q).macros := by
  rcases Nat.lt_trichotomy q s.registries.length with hq | rfl | hq
  · exact registry_newUnit_of_lt s unit script hq ▸ hm
  · rw [registry_newUnit] at hm
    cases hm
  · rw [registry_of_le _ (by rw [length_newUnit]; exact hq)] at hm
    cases hm

theorem allMacros_newUnit {s : Session β} {fits : Macro β → Prop} (h : s.AllMacros fits) (unit script : String) :
    (s.newUnit unit script).AllMacros fits :=
  fun q m hm => h q m (mem_macros_of_newUnit hm)

theorem withUnit_of_openScope {s s' : Session β} {unit script : String} (fits : Macro β → Prop)
    (h : (s.newUnit unit script).openScope s.registries.length script = .ok s') : s.WithUnit script fits [] s' := by
  have hs := redeclares_openScope h
  have hcount := s.length_newUnit unit script
  have howns : ((s.newUnit unit script).registry s.registries.length).owns script = false := by
    rw [registry_newUnit]
    rfl
  refine ⟨hs.published, hs.count.trans hcount, fun q hq => ?_, ?_, ?_, fun m hm => ?_⟩
  · rw [hs.others q (Nat.ne_of_lt hq), registry_newUnit_of_lt s unit script hq]
  · rw [hs.registry.unshared, registry_newUnit]
  · rw [scopes_openScope (by simp [hcount]) howns h, registry_newUnit]
    rfl
  · rw [hs.registry.macros, registry_newUnit] at hm
    cases hm

end Session

end MacroLang
