import MacroLang.Error
import MacroLang.Proofs.Code

/-!
# Kinds of errors

Four objections are made in one place each: the expander's, that macro calls were replaced too often, and that a macro
returned no tree; a quote's, that a placeholder holds no tree; and a session's, that two units publish one scope. All
other errors are routine (`Error.isRoutine`). Evaluation comes to common errors only (`Error.isCommon`), as a quote can
object to what it is given.
-/

namespace MacroLang

namespace Error

/-- The errors that a value is no tree where a macro or a placeholder has to give one. -/
def isMisfit : Error → Bool
  | located (.cannotUnquote ..) _ _ | located (.invalidResult ..) _ _ => true
  | _ => false

/-- Every error but those of the depth bound and of publication. -/
def isCommon : Error → Bool
  | located (.depthExceeded ..) _ _ | located (.scopeConflict ..) _ _ => false
  | _ => true

/-- Every common error but those of a value that is no tree. -/
def isRoutine (e : Error) : Bool :=
  e.isCommon && !e.isMisfit

/-- The error that two units publish one scope. -/
def isConflict : Error → Bool
  | located (.scopeConflict ..) _ _ => true
  | _ => false

/-- Whether the error can be put into a file: it is one on a node, or at no place in particular. -/
def isLocated : Error → Bool
  | located .. => true
  | _ => false

theorem isLocated_iff {e : Error} : e.isLocated = true ↔ ∃ cause info name, e = .located cause info name := by
  cases e <;> simp [isLocated]

theorem isCommon_of_isRoutine {e : Error} (h : e.isRoutine = true) : e.isCommon = true :=
  (Bool.and_eq_true_iff.1 h).1

theorem isMisfit_of_isRoutine {e : Error} (h : e.isRoutine = true) : e.isMisfit = false := by
  simpa using (Bool.and_eq_true_iff.1 h).2

theorem isConflict_of_isCommon {e : Error} (h : e.isCommon = true) : e.isConflict = false := by
  unfold isConflict
  split
  · cases h
  · rfl

/-- The error of a cause is common also if its message cannot be written. -/
theorem isCommon_on {cause : Cause} {info : Info} (h : (located cause info none).isCommon = true) :
    (cause.on info).isCommon = true := by
  unfold Cause.on
  split
  · exact h
  · rfl

theorem isConflict_inFile (e : Error) (file : String) : (e.inFile file).isConflict = e.isConflict := by
  unfold inFile
  split
  · rename_i cause info
    cases cause <;> rfl
  · rfl

theorem isMisfit_inFile (e : Error) (file : String) : (e.inFile file).isMisfit = e.isMisfit := by
  unfold inFile
  split
  · rename_i cause info
    cases cause <;> rfl
  · rfl

end Error

/-- If the outcome is an error, it is a common one. -/
abbrev Common {α : Type} (r : Except Error α) : Prop :=
  Raises (·.isCommon = true) r

/-- The code keeps `I`, also if it fails, and its errors are common. -/
abbrev Preserves {σ α : Type} (I : σ → Prop) (code : EStateM Error σ α) : Prop :=
  Maintains I (·.isCommon = true) code

end MacroLang
