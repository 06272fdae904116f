import MacroLang.Build.Unit
import MacroLang.Proofs.Tree.Shape
import MacroLang.Proofs.TwoRuns

/-!
# What holds of all forms

A unit is compiled form by form: each is expanded, and then what came out of it is kept, registered as a macro or
compiled as a module. So what holds of expansions, of macro definitions and of modules holds of all the forms of a
scope, provided that code put together from such code has it as well (`Build.Laws`). This is how errors, the session and
the world are followed through a unit, and how two runs are compared.
-/

namespace MacroLang

/-- If the members of blocks are of a kind, then so are all forms that stand in blocks, however deep. -/
theorem forall_spliceBlocks {kind : Value → Prop}
    (hblock : ∀ args info, kind (.call "__block__" args info) → ∀ v ∈ args, kind v) (v : Value) :
    kind v → ∀ w ∈ spliceBlocks v, kind w := by
  have hall : ∀ vs : List Value, (∀ v ∈ vs, ∀ w ∈ spliceBlocks v, kind w) → ∀ w ∈ spliceBlocksAll vs, kind w := by
    intro vs h
    induction vs with
    | nil => exact List.forall_mem_nil _
    | cons v vs ih =>
      rw [List.forall_mem_cons] at h
      rw [spliceBlocksAll]
      exact List.forall_mem_append.2 ⟨h.1, ih h.2⟩
  induction v using Value.treeInduction with
  | call name args info ih =>
    intro h
    rw [spliceBlocks]
    split
    · rename_i hname
      rw [beq_iff_eq] at hname
      subst hname
      exact hall args fun v hv => ih v hv (hblock args info h v hv)
    · exact List.forall_mem_singleton.2 h
  | _ =>
    intro h
    rw [spliceBlocks]
    · exact List.forall_mem_singleton.2 h
    all_goals intros; contradiction

namespace Build

/-- The laws of a property that code has if it is put together from code that has it. -/
structure Laws (P : ⦃α : Type⦄ → Build α → Prop) : Prop where
  pure {α : Type} (a : α) : P (Pure.pure a : Build α)
  andThen {α γ : Type} {code : Build α} {next : α → Build γ} : P code → (∀ a, P (next a)) → P (code >>= next)

namespace Laws

variable {P : ⦃α : Type⦄ → Build α → Prop} {r : Nat} {x : Expander MacroBody} {scope : String}
  {onModule : List Value → Info → Build Unit}

theorem items (laws : Laws P) (hmodule : ∀ args info, P (onModule args info))
    (hdefine : ∀ form args info, P (defineMacro r scope form args info)) (vs : List Value) :
    P (items r onModule scope vs) := by
  have hitem : ∀ v, P (item r onModule scope v) := by
    intro v
    unfold item
    split
    · exact laws.andThen (hmodule _ _) fun _ => laws.pure _
    · exact laws.andThen (hdefine _ _ _) fun _ => laws.pure _
    · exact laws.andThen (hdefine _ _ _) fun _ => laws.pure _
    · exact laws.pure _
  induction vs with
  | nil => exact laws.pure _
  | cons v vs ih => exact laws.andThen (hitem v) fun _ => laws.andThen ih fun _ => laws.pure _

theorem forms (laws : Laws P) (hmodule : ∀ args info, P (onModule args info))
    (hdefine : ∀ form args info, P (defineMacro x.registry scope form args info))
    (hexpand : ∀ v, P (lift (x.expand scope v))) (vs : List Value) : P (forms x onModule scope vs) := by
  induction vs with
  | nil => exact laws.pure _
  | cons v vs ih =>
    refine laws.andThen (hexpand v) fun w => ?_
    exact laws.andThen (laws.items hmodule hdefine _) fun _ => laws.andThen ih fun _ => laws.pure _

end Laws

theorem laws_concurs (R : Building → Building → Prop) : Laws fun _ code => Concurs R code :=
  ⟨fun a => .pure a, fun h hnext => .andThen h hnext⟩

theorem laws_maintains (I : Building → Prop) (raises : Error → Prop) : Laws fun _ code => Maintains I raises code :=
  ⟨fun a => .pure a, fun h hnext => .andThen h hnext⟩

end Build

end MacroLang
