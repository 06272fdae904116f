import MacroLang.Proofs.Code

/-!
# Two runs of code

Two runs concur if they end in the same value or in the same error, and in states that are related (`Concur`). Code to
which related states are the same runs alike from each of them (`Concurs`), and code that is put together from such code
is such code again. Of two runs that have the same end (`SameEnd`), those that fail may leave anything behind.
-/

namespace MacroLang

variable {ε σ α γ : Type}

/-- The same value or the same error, in related states. -/
inductive Concur (R : σ → σ → Prop) : EStateM.Result ε σ α → EStateM.Result ε σ α → Prop where
  | ok {a : α} {s s' : σ} : R s s' → Concur R (.ok a s) (.ok a s')
  | error {e : ε} {s s' : σ} : R s s' → Concur R (.error e s) (.error e s')

/-- Related states are the same to the code. -/
def Concurs (R : σ → σ → Prop) (code : EStateM ε σ α) : Prop :=
  ∀ ⦃s s' : σ⦄, R s s' → Concur R (code s) (code s')

namespace Concur

variable {R : σ → σ → Prop} {code code' : EStateM ε σ α} {next next' : α → EStateM ε σ γ} {s s' : σ}

theorem of_ok (h : Concur R (code s) (code' s')) {a : α} {t : σ} (hcode : code s = .ok a t) :
    ∃ t', code' s' = .ok a t' ∧ R t t' := by
  rw [hcode] at h
  generalize hr : code' s' = r at h
  cases h with
  | ok ht => exact ⟨_, rfl, ht⟩

theorem of_error (h : Concur R (code s) (code' s')) {e : ε} {t : σ} (hcode : code s = .error e t) :
    ∃ t', code' s' = .error e t' ∧ R t t' := by
  rw [hcode] at h
  generalize hr : code' s' = r at h
  cases h with
  | error ht => exact ⟨_, rfl, ht⟩

theorem mono {R' : σ → σ → Prop} {r r' : EStateM.Result ε σ α} (h : Concur R r r') (himp : ∀ s s', R s s' → R' s s') :
    Concur R' r r' := by
  cases h with
  | ok ht => exact .ok (himp _ _ ht)
  | error ht => exact .error (himp _ _ ht)

theorem refl (hrefl : ∀ s, R s s) (r : EStateM.Result ε σ α) : Concur R r r := by
  cases r with
  | ok a s => exact .ok (hrefl s)
  | error e s => exact .error (hrefl s)

theorem bind (h : Concur R (code s) (code' s')) (hnext : ∀ a t t', R t t' → Concur R (next a t) (next' a t')) :
    Concur R ((code >>= next) s) ((code' >>= next') s') := by
  rw [bind_apply, bind_apply]
  cases hcode : code s with
  | ok a t =>
    obtain ⟨t', hcode', ht⟩ := h.of_ok hcode
    rw [hcode']
    exact hnext a t t' ht
  | error e t =>
    obtain ⟨t', hcode', ht⟩ := h.of_error hcode
    rw [hcode']
    exact .error ht

end Concur

namespace Concurs

variable {R : σ → σ → Prop} {code : EStateM ε σ α} {next : α → EStateM ε σ γ}

theorem pure (a : α) : Concurs R (Pure.pure a : EStateM ε σ α) :=
  fun _ _ h => .ok h

theorem throw (e : ε) : Concurs R (MonadExcept.throw e : EStateM ε σ α) :=
  fun _ _ h => .error h

theorem ofExcept (r : Except ε α) : Concurs R (MonadExcept.ofExcept r : EStateM ε σ α) := by
  cases r with
  | ok a => exact .pure a
  | error e => exact .throw e

theorem andThen (h : Concurs R code) (hnext : ∀ a, Concurs R (next a)) : Concurs R (code >>= next) :=
  fun _ _ hs => (h hs).bind fun a _ _ ht => hnext a ht

theorem modify {f : σ → σ} (h : ∀ s s', R s s' → R (f s) (f s')) : Concurs R (modify f : EStateM ε σ PUnit) :=
  fun _ _ hs => .ok (h _ _ hs)

/-- The code may look at the state first, if it goes on in the same way with what it sees there. -/
theorem reading {next : σ → EStateM ε σ α} (h : ∀ s, Concurs R (next s)) (hsame : ∀ s s', R s s' → next s' = next s) :
    Concurs R (get >>= next) := by
  intro s s' hs
  show Concur R (next s s) (next s' s')
  rw [hsame s s' hs]
  exact h s hs

/-- An objection may be raised first. -/
theorem refuseIf {c : Prop} [Decidable c] {e : ε} {code : EStateM ε σ α} (h : Concurs R code) :
    Concurs R (if c then MonadExcept.throw e >>= fun _ : PUnit => code else code) := by
  split
  · exact .andThen (.throw e) fun _ => h
  · exact h

end Concurs

/-- The same value in related states, or an error on both sides: the same one, unless `loose` holds. -/
inductive SameEnd (R : σ → σ → Prop) (loose : Prop) : EStateM.Result ε σ α → EStateM.Result ε σ α → Prop where
  | ok {a : α} {s s' : σ} : R s s' → SameEnd R loose (.ok a s) (.ok a s')
  | error {e e' : ε} {s s' : σ} : e' = e ∨ loose → SameEnd R loose (.error e s) (.error e' s')

theorem Concur.sameEnd {R : σ → σ → Prop} {loose : Prop} {r r' : EStateM.Result ε σ α} (h : Concur R r r') :
    SameEnd R loose r r' := by
  cases h with
  | ok ht => exact .ok ht
  | error ht => exact .error (.inl rfl)

namespace SameEnd

variable {R : σ → σ → Prop} {loose : Prop}

theorem loosen {loose' : Prop} {r r' : EStateM.Result ε σ α} (h : SameEnd R loose r r') (himp : loose → loose') :
    SameEnd R loose' r r' := by
  cases h with
  | ok ht => exact .ok ht
  | error he => exact .error (he.imp_right himp)

theorem bind {code code' : EStateM ε σ α} {next next' : α → EStateM ε σ γ} {s s' : σ}
    (h : SameEnd R loose (code s) (code' s'))
    (hnext : ∀ a t t', R t t' → SameEnd R loose (next a t) (next' a t')) :
    SameEnd R loose ((code >>= next) s) ((code' >>= next') s') := by
  rw [bind_apply, bind_apply]
  generalize code s = r at h
  generalize code' s' = r' at h
  cases h with
  | ok ht => exact hnext _ _ _ ht
  | error he => exact .error he

/-- Each side may be exchanged for one that concurs with it. -/
theorem of_concur {r₀ r r' r₁ : EStateM.Result ε σ α} (h : SameEnd R loose r r') (hleft : Concur R r₀ r)
    (hright : Concur R r' r₁) (htrans : ∀ s t u, R s t → R t u → R s u) : SameEnd R loose r₀ r₁ := by
  cases h with
  | ok ht =>
    cases hleft with
    | ok hleft =>
      cases hright with
      | ok hright => exact .ok (htrans _ _ _ (htrans _ _ _ hleft ht) hright)
  | error he =>
    cases hleft with
    | error hleft =>
      cases hright with
      | error hright => exact .error he

end SameEnd

end MacroLang
