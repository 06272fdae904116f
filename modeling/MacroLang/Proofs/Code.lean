/-!
# Code that may fail

Expansion, evaluation and building are code with a state that may end in an error. The first lemmas take the outcome of
code apart: what a sequence did is what its parts did, one after the other. `Ensures` says what code comes to from every
state of some kind, whether it succeeds or fails; `Maintains` that it keeps an invariant, and `Delivers` that its value
is of some kind, too. `Raises` and `Yields` say the same of an outcome for which there is no state.
-/

namespace MacroLang

variable {ε σ α γ : Type}

theorem bind_apply (code : EStateM ε σ α) (next : α → EStateM ε σ γ) (s : σ) :
    (code >>= next) s = match code s with
      | .ok a t => next a t
      | .error e t => .error e t :=
  rfl

theorem get_bind (next : σ → EStateM ε σ γ) (s : σ) : (get >>= next) s = next s s :=
  rfl

theorem bind_eq_ok {code : EStateM ε σ α} {next : α → EStateM ε σ γ} {s t : σ} {b : γ} :
    (code >>= next) s = .ok b t ↔ ∃ a u, code s = .ok a u ∧ next a u = .ok b t := by
  rw [bind_apply]
  cases code s with
  | ok a u => exact ⟨fun h => ⟨a, u, rfl, h⟩, fun ⟨_, _, rfl, h⟩ => h⟩
  | error e u => simp

theorem run'_eq_some {code : EStateM ε σ α} {s : σ} {a : α} :
    code.run' s = some a ↔ ∃ t, code s = .ok a t := by
  unfold EStateM.run' EStateM.run
  cases code s with
  | ok b t => simp
  | error e t => simp

theorem pure_eq_ok {a b : α} {s t : σ} :
    (pure a : EStateM ε σ α) s = .ok b t ↔ a = b ∧ s = t :=
  ⟨fun h => by cases h; exact ⟨rfl, rfl⟩, fun ⟨ha, hs⟩ => by rw [ha, hs]; rfl⟩

theorem ofExcept_eq_ok {r : Except ε α} {a : α} {s t : σ} :
    (ofExcept r : EStateM ε σ α) s = .ok a t ↔ r = .ok a ∧ s = t := by
  cases r with
  | ok b => exact pure_eq_ok.trans (and_congr_left' (by simp))
  | error e =>
    constructor
    · intro h; cases h
    · rintro ⟨h, _⟩; cases h

theorem ofExcept_ok (a : α) : (ofExcept (.ok a : Except ε α) : EStateM ε σ α) = pure a :=
  rfl

theorem except_bind_eq_ok {r : Except ε α} {next : α → Except ε γ} {b : γ} :
    (r >>= next) = .ok b ↔ ∃ a, r = .ok a ∧ next a = .ok b := by
  cases r with
  | ok a => exact ⟨fun h => ⟨a, rfl, h⟩, fun ⟨_, rfl, h⟩ => h⟩
  | error e => simp [bind, Except.bind]

theorem except_bind_eq_error {r : Except ε α} {next : α → Except ε γ} {e : ε} :
    (r >>= next) = .error e ↔ r = .error e ∨ ∃ a, r = .ok a ∧ next a = .error e := by
  cases r <;> simp [bind, Except.bind]

/-! ## Outcomes without a state -/

/-- If the outcome is an error, it is one of `raises`. -/
def Raises (raises : ε → Prop) (r : Except ε α) : Prop :=
  ∀ e, r = .error e → raises e

namespace Raises

variable {raises : ε → Prop}

theorem ok (a : α) : Raises raises (.ok a) :=
  nofun

theorem error {e : ε} (h : raises e) : Raises raises (.error e : Except ε α) := by
  rintro _ ⟨⟩
  exact h

theorem bind {r : Except ε α} {next : α → Except ε γ} (h : Raises raises r)
    (hnext : ∀ a, Raises raises (next a)) : Raises raises (r >>= next) := by
  cases r with
  | ok a => exact hnext a
  | error e => exact error (h e rfl)

theorem map {r : Except ε α} (f : α → γ) (h : Raises raises r) : Raises raises (f <$> r) := by
  cases r with
  | ok a => exact ok (f a)
  | error e => exact error (h e rfl)

theorem mono {raises' : ε → Prop} {r : Except ε α} (h : Raises raises r) (himp : ∀ e, raises e → raises' e) :
    Raises raises' r :=
  fun e he => himp e (h e he)

end Raises

/-- The outcome is a value with `Q`, or an error of `raises`. -/
def Yields (raises : ε → Prop) (Q : α → Prop) : Except ε α → Prop
  | .ok a => Q a
  | .error e => raises e

namespace Yields

variable {raises : ε → Prop} {Q : α → Prop} {R : γ → Prop} {r : Except ε α}

theorem of_ok {a : α} (h : Yields raises Q r) (hr : r = .ok a) : Q a := by
  subst hr
  exact h

theorem bind {next : α → Except ε γ} (h : Yields raises Q r) (hnext : ∀ a, Q a → Yields raises R (next a)) :
    Yields raises R (r >>= next) := by
  cases r with
  | ok a => exact hnext a h
  | error e => exact h

theorem map {f : α → γ} (h : Yields raises Q r) (hf : ∀ a, Q a → R (f a)) : Yields raises R (f <$> r) := by
  cases r with
  | ok a => exact hf a h
  | error e => exact h

/-- The value is known otherwise. -/
theorem of_raises (h : Raises raises r) (hok : ∀ a, r = .ok a → Q a) : Yields raises Q r := by
  cases r with
  | ok a => exact hok a rfl
  | error e => exact h e rfl

/-- An objection may be raised first. -/
theorem refuseIf {c : Prop} [Decidable c] {e : ε} (he : raises e) (h : Yields raises Q r) :
    Yields raises Q (if c then throw e >>= fun _ : PUnit => r else r) := by
  split
  · exact he
  · exact h

end Yields

theorem Yields.raises {raises : ε → Prop} {Q : α → Prop} {r : Except ε α} (h : Yields raises Q r) :
    Raises raises r := by
  rintro e rfl
  exact h

/-! ## What code comes to -/

/-- The outcome is a value and a state with `Q`, or an error and a state with `E`. -/
def Ends (Q : α → σ → Prop) (E : ε → σ → Prop) : EStateM.Result ε σ α → Prop
  | .ok a s => Q a s
  | .error e s => E e s

/-- From a state with `P`, the code ends in a value and a state with `Q` or in an error and a state with `E`. -/
def Ensures (P : σ → Prop) (code : EStateM ε σ α) (Q : α → σ → Prop) (E : ε → σ → Prop) : Prop :=
  ∀ s, P s → Ends Q E (code s)

/-- The code keeps `I`, also if it fails, and then the error is one of `raises`. -/
def Maintains (I : σ → Prop) (raises : ε → Prop) (code : EStateM ε σ α) : Prop :=
  Ensures I code (fun _ => I) (fun e s => I s ∧ raises e)

/-- If the value is of no consequence, another one may be made of it. -/
theorem Ends.map {P : σ → Prop} {E : ε → σ → Prop} {code : EStateM ε σ α} {s : σ}
    (h : Ends (fun _ => P) E (code s)) (f : α → γ) :
    Ends (fun _ => P) E ((code >>= fun a => Pure.pure (f a)) s) := by
  rw [bind_apply]
  cases hcode : code s with
  | ok a t => rw [hcode] at h; exact h
  | error e t => rw [hcode] at h; exact h

/-- The outcome with another value. -/
def mapValue (f : α → γ) : EStateM.Result ε σ α → EStateM.Result ε σ γ
  | .ok a s => .ok (f a) s
  | .error e s => .error e s

/-- The state that is left, with a value or with an error. -/
def finalState : EStateM.Result ε σ α → σ
  | .ok _ s => s
  | .error _ s => s

/-- The error that is raised, if there is one. -/
def finalError? : EStateM.Result ε σ α → Option ε
  | .ok _ _ => none
  | .error e _ => some e

theorem finalError?_eq_some {r : EStateM.Result ε σ α} {e : ε} : finalError? r = some e ↔ ∃ s, r = .error e s := by
  cases r with
  | ok a s => simp [finalError?]
  | error e' s => simp [finalError?]

namespace Ensures

variable {P P' : σ → Prop} {Q Q' : α → σ → Prop} {E E' : ε → σ → Prop} {code : EStateM ε σ α}

theorem of_ok (h : Ensures P code Q E) {s t : σ} {a : α} (hs : P s) (hcode : code s = .ok a t) : Q a t := by
  have ht := h s hs
  rwa [hcode] at ht

theorem of_error (h : Ensures P code Q E) {s t : σ} {e : ε} (hs : P s) (hcode : code s = .error e t) :
    E e t := by
  have ht := h s hs
  rwa [hcode] at ht

theorem weaken (h : Ensures P code Q E) (hP : ∀ s, P' s → P s) (hQ : ∀ a s, Q a s → Q' a s)
    (hE : ∀ e s, E e s → E' e s) : Ensures P' code Q' E' := by
  intro s hs
  have ht := h s (hP s hs)
  cases hcode : code s with
  | ok a t => rw [hcode] at ht; exact hQ a t ht
  | error e t => rw [hcode] at ht; exact hE e t ht

/-- What is known from the start and not of the state. -/
theorem given {p : Prop} (h : p → Ensures P code Q E) : Ensures (fun s => p ∧ P s) code Q E :=
  fun s hs => h hs.1 s hs.2

theorem pure {a : α} (h : ∀ s, P s → Q a s) : Ensures P (Pure.pure a : EStateM ε σ α) Q E :=
  h

theorem throw {e : ε} (h : ∀ s, P s → E e s) : Ensures P (MonadExcept.throw e : EStateM ε σ α) Q E :=
  h

theorem bind {R : γ → σ → Prop} {first : EStateM ε σ γ} {next : γ → EStateM ε σ α}
    (h : Ensures P first R E) (hnext : ∀ b, Ensures (R b) (next b) Q E) : Ensures P (first >>= next) Q E := by
  intro s hs
  have ht := h s hs
  rw [bind_apply]
  cases hfirst : first s with
  | ok b t => rw [hfirst] at ht; exact hnext b t ht
  | error e t => rw [hfirst] at ht; exact ht

theorem ofExcept {r : Except ε α} (hok : ∀ a, r = .ok a → ∀ s, P s → Q a s)
    (herror : ∀ e, r = .error e → ∀ s, P s → E e s) :
    Ensures P (MonadExcept.ofExcept r : EStateM ε σ α) Q E := by
  cases r with
  | ok a => exact hok a rfl
  | error e => exact herror e rfl

/-- An objection may be raised first. -/
theorem refuseIf {c : Prop} [Decidable c] {e : ε} {next : EStateM ε σ α} (he : ∀ s, P s → E e s)
    (h : ¬c → Ensures P next Q E) :
    Ensures P (if c then MonadExcept.throw e >>= fun _ : PUnit => next else next) Q E := by
  split
  · exact he
  · exact h (by assumption)

/-- The code may look at the state first. -/
theorem reading {next : σ → EStateM ε σ α} (h : ∀ s, P s → Ensures (· = s) (next s) Q E) :
    Ensures P (get >>= next) Q E :=
  fun s hs => h s hs s rfl

/-- What it sees there may be of no consequence. -/
theorem peeking {next : σ → EStateM ε σ α} (h : ∀ s, Ensures P (next s) Q E) : Ensures P (get >>= next) Q E :=
  fun s hs => h s s hs

theorem modify {f : σ → σ} {Q : PUnit → σ → Prop} (h : ∀ s, P s → Q ⟨⟩ (f s)) :
    Ensures P (modify f : EStateM ε σ PUnit) Q E :=
  h

end Ensures

namespace Maintains

variable {I : σ → Prop} {raises : ε → Prop} {code : EStateM ε σ α}

theorem trivial (code : EStateM ε σ α) : Maintains (fun _ => True) (fun _ => True) code := by
  intro s _
  cases code s with
  | ok a t => exact True.intro
  | error e t => exact ⟨True.intro, True.intro⟩

theorem pure (a : α) : Maintains I raises (Pure.pure a : EStateM ε σ α) :=
  fun _ h => h

theorem throw {e : ε} (h : raises e) : Maintains I raises (MonadExcept.throw e : EStateM ε σ α) :=
  fun _ hs => ⟨hs, h⟩

theorem mono {raises' : ε → Prop} (h : Maintains I raises code) (himp : ∀ e, raises e → raises' e) :
    Maintains I raises' code :=
  Ensures.weaken h (fun _ hs => hs) (fun _ _ hs => hs) fun e _ he => ⟨he.1, himp e he.2⟩

theorem andThen {next : α → EStateM ε σ γ} (h : Maintains I raises code)
    (hnext : ∀ a, Maintains I raises (next a)) : Maintains I raises (code >>= next) :=
  Ensures.bind h hnext

theorem ofExcept {r : Except ε α} (h : ∀ e, r = .error e → raises e) :
    Maintains I raises (MonadExcept.ofExcept r : EStateM ε σ α) :=
  Ensures.ofExcept (fun _ _ _ hs => hs) fun e he _ hs => ⟨hs, h e he⟩

theorem reading {next : σ → EStateM ε σ α} (h : ∀ s, I s → Maintains I raises (next s)) :
    Maintains I raises (get >>= next) :=
  fun s hs => h s hs s hs

/-- What holds at the end, with a value or with an error. -/
theorem finalState (h : Maintains I raises code) {s : σ} (hs : I s) : I (MacroLang.finalState (code s)) := by
  have ht := h s hs
  cases hcode : code s with
  | ok a t => rw [hcode] at ht; exact ht
  | error e t => rw [hcode] at ht; exact ht.1

theorem of_finalState (h : ∀ s, I s → I (MacroLang.finalState (code s))) : Maintains I (fun _ => True) code := by
  intro s hs
  have ht := h s hs
  cases hcode : code s with
  | ok a t => rw [hcode] at ht; exact ht
  | error e t => rw [hcode] at ht; exact ⟨ht, True.intro⟩

end Maintains

/-- From a state with `I` the code comes to a value with `Q`, or to an error of `raises`, and the state still has
`I`. -/
def Delivers (raises : ε → Prop) (I : σ → Prop) (Q : α → Prop) (code : EStateM ε σ α) : Prop :=
  Ensures I code (fun a s => Q a ∧ I s) (fun e s => I s ∧ raises e)

namespace Delivers

variable {raises : ε → Prop} {I : σ → Prop} {Q : α → Prop} {R : γ → Prop} {code : EStateM ε σ α}

theorem pure {a : α} (h : Q a) : Delivers raises I Q (Pure.pure a : EStateM ε σ α) :=
  fun _ hs => ⟨h, hs⟩

theorem throw {e : ε} (h : raises e) : Delivers raises I Q (MonadExcept.throw e : EStateM ε σ α) :=
  fun _ hs => ⟨hs, h⟩

theorem bind {next : α → EStateM ε σ γ} (h : Delivers raises I Q code)
    (hnext : ∀ a, Q a → Delivers raises I R (next a)) : Delivers raises I R (code >>= next) :=
  Ensures.bind h fun a => .given fun ha => hnext a ha

theorem ofExcept {r : Except ε α} (h : Yields raises Q r) :
    Delivers raises I Q (MonadExcept.ofExcept r : EStateM ε σ α) := by
  cases r with
  | ok a => exact pure h
  | error e => exact throw h

theorem reading {next : σ → EStateM ε σ α} (h : ∀ s, I s → Delivers raises I Q (next s)) :
    Delivers raises I Q (get >>= next) :=
  fun s hs => h s hs s hs

theorem modify {f : σ → σ} (h : ∀ s, I s → I (f s)) :
    Delivers raises I (fun _ => True) (modify f : EStateM ε σ PUnit) :=
  fun s hs => ⟨trivial, h s hs⟩

/-- An objection may be raised first. -/
theorem refuseIf {c : Prop} [Decidable c] {e : ε} (he : raises e) (h : Delivers raises I Q code) :
    Delivers raises I Q (if c then MonadExcept.throw e >>= fun _ : PUnit => code else code) :=
  Ensures.refuseIf (fun _ hs => ⟨hs, he⟩) fun _ => h

theorem map {f : α → γ} (h : Delivers raises I Q code) (hf : ∀ a, Q a → R (f a)) :
    Delivers raises I R (f <$> code) := by
  rw [map_eq_pure_bind]
  exact bind h fun a ha => pure (hf a ha)

theorem discard (h : Delivers raises I Q code) : Delivers raises I (fun _ => True) (Functor.discard code) :=
  h.map fun _ _ => trivial

theorem maintains (h : Delivers raises I Q code) : Maintains I raises code :=
  Ensures.weaken h (fun _ hs => hs) (fun _ _ hs => hs.2) fun _ _ hs => hs

end Delivers

theorem Maintains.delivers {I : σ → Prop} {raises : ε → Prop} {code : EStateM ε σ α} (h : Maintains I raises code) :
    Delivers raises I (fun _ => True) code :=
  Ensures.weaken h (fun _ hs => hs) (fun _ _ hs => ⟨True.intro, hs⟩) fun _ _ hs => hs

end MacroLang
