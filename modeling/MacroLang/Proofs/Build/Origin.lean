import MacroLang.Proofs.Build.Closure

/-!
# Compilation makes up no places

A node that is read carries the line and column at which its first token starts. From then on places are copied and
never made up: what takes trees apart, puts them together, quotes them or computes with them passes on the annotations
that it was given, or gives none. An objection is made at a node, and so at its place or at none. All of this holds
because it is a standard that values are from some places (`Standard.places`).

Main statement: `ensures_compile_offersFrom`.
-/

namespace MacroLang

variable {file : String} {P P' : Position → Prop}

/-! ## Places -/

/-- The annotations give one of the places, or none. -/
def Info.IsFrom (P : Position → Prop) (i : Info) : Prop :=
  (i.line = none ∧ i.column = none) ∨ ∃ p, P p ∧ i.line = p.info.line ∧ i.column = p.info.column

/-- The error is reported at one of the places, or at none, and in this file if a file is named already. -/
def Error.IsFrom (file : String) (P : Position → Prop) : Error → Prop
  | located _ info none => info.IsFrom P
  | located _ info (some name) => name = file ∧ info.IsFrom P
  | _ => True

theorem Info.isFrom_info {p : Position} (h : P p) : p.info.IsFrom P :=
  .inr ⟨p, h, rfl, rfl⟩

theorem Info.IsFrom.mono {i : Info} (h : i.IsFrom P) (himp : ∀ p, P p → P' p) : i.IsFrom P' := by
  rcases h with hnone | ⟨p, hp, hplace⟩
  · exact .inl hnone
  · exact .inr ⟨p, himp p hp, hplace⟩

/-- A located error that is put into the file is located in that file, at one of the places or at none. -/
theorem Error.IsFrom.of_inFile {e : Error} (h : e.IsFrom file P) {cause : Cause} {info : Info} {name : Option String}
    (he : e.inFile file = .located cause info name) : name = some file ∧ info.IsFrom P := by
  unfold Error.inFile at he
  split at he
  · cases he
    exact ⟨rfl, h⟩
  · rename_i hnamed
    subst he
    cases name with
    | none => exact (hnamed cause info rfl).elim
    | some other => exact ⟨congrArg some h.1, h.2⟩

/-- All nodes are from the places, and errors are reported there. -/
def Standard.places (file : String) (P : Position → Prop) : Standard where
  value v := ∀ i ∈ v.infos, i.IsFrom P
  info i := i.IsFrom P
  error e := e.IsFrom file P
  strict := False
  value_iff _ := ⟨fun h => ⟨False.elim, h⟩, fun h => h.2⟩
  info_none := .inl ⟨rfl, rfl⟩
  info_of_place := by
    intro i j h hline hcolumn
    unfold Info.IsFrom
    rw [hline, hcolumn]
    exact h
  routine h _ := h
  unlocated := by
    intro e h
    cases e with
    | located => cases h
    | _ => trivial
  fits _ h := .inr fun _ _ => h

/-! ## Compilation -/

/-- The functions of loaded modules and the macros of published scopes are from the places. In which file an error would
be reported is of no consequence to that. -/
def Compilation.OffersFrom (P : Position → Prop) (c : Compilation MacroBody) : Prop :=
  ∀ file, c.Offers (.places file P)

theorem Compilation.Offers.offersFrom {c : Compilation MacroBody} (h : c.Offers (.places file P)) : c.OffersFrom P :=
  fun _ => h.mono fun _ hv => hv

theorem mindsModules_offersFrom : MindsModules (Compilation.OffersFrom P) :=
  fun c w hc hw file => mindsWorld_meets.mindsModules c w (hc file) hw

/-- Let what a unit finds be from places at which, among others, the tokens of its source start. Then so is what it
leaves, whether or not it succeeds; and a located error is in the unit's file and at one of the places or at none. -/
theorem ensures_compile_offersFrom (o : Settings) (runScript : Bool) {source : String}
    (hP : ∀ p ∈ tokenStarts file source, P p) :
    Ensures (Compilation.OffersFrom P) (compile o file runScript source) (fun _ c => c.OffersFrom P)
      (fun e c => c.OffersFrom P ∧ ∀ cause info name, e = .located cause info name →
        name = some file ∧ info.IsFrom P) := by
  have hlenient : (Standard.places file P).Lenient := fun h _ => h
  have hread := (Standard.places file P).gives_readSource file source (fun _ _ h => ⟨rfl, h⟩)
    fun p hp => Info.isFrom_info (hP p hp)
  refine ensures_compile_of_forms fun c hc => ?_
  refine (ensures_compileForms_meets hlenient file runScript hread).weaken (fun _ h => h)
    (fun _ _ h => h.2.offers.offersFrom) (fun _ _ h => ⟨h.1.offers.offersFrom, ?_⟩) c ⟨rfl, hc file⟩
  exact fun _ _ _ he => h.2.of_inFile he

end MacroLang
