/-! Steps that may fail: what a chain of them says when it succeeds, and which faults it may end
in. -/

namespace Abacus

variable {ε α β : Type}

@[simp]
theorem ok_bind (a : α) (f : α → Except ε β) : (Except.ok a >>= f) = f a := rfl

@[simp]
theorem error_bind (e : ε) (f : α → Except ε β) : (Except.error e >>= f) = .error e := rfl

@[simp]
theorem pure_eq_ok (a : α) : (pure a : Except ε α) = .ok a := rfl

@[simp]
theorem map_ok (f : α → β) (a : α) : f <$> (Except.ok a : Except ε α) = .ok (f a) := rfl

@[simp]
theorem map_error (f : α → β) (e : ε) : f <$> (Except.error e : Except ε α) = .error e := rfl

theorem bind_eq_ok {x : Except ε α} {f : α → Except ε β} {b : β} :
    (x >>= f) = .ok b ↔ ∃ a, x = .ok a ∧ f a = .ok b := by
  cases x <;> simp

theorem map_eq_ok {x : Except ε α} {f : α → β} {b : β} :
    f <$> x = .ok b ↔ ∃ a, x = .ok a ∧ f a = b := by
  cases x <;> simp

/-- A value, or one of these faults. -/
inductive FailsOnly (P : ε → Prop) : Except ε α → Prop where
  | ok (a : α) : FailsOnly P (.ok a)
  | error {err : ε} (h : P err) : FailsOnly P (.error err)

namespace FailsOnly

variable {P Q : ε → Prop}

theorem of_error {err : ε} (h : FailsOnly P (.error err : Except ε α)) : P err := by
  cases h with
  | error h => exact h

theorem mono {x : Except ε α} (h : FailsOnly P x) (himp : ∀ err, P err → Q err) :
    FailsOnly Q x := by
  cases h with
  | ok a => exact ok a
  | error h => exact error (himp _ h)

theorem bind {x : Except ε α} {f : α → Except ε β} (hx : FailsOnly P x)
    (hf : ∀ a, x = .ok a → FailsOnly P (f a)) : FailsOnly P (x >>= f) := by
  cases hx with
  | ok a => exact hf a rfl
  | error h => exact error h

theorem map {x : Except ε α} (f : α → β) (hx : FailsOnly P x) : FailsOnly P (f <$> x) := by
  cases hx with
  | ok a => exact ok (f a)
  | error h => exact error h

theorem ite {c : Prop} [Decidable c] {x y : Except ε α} (hx : c → FailsOnly P x)
    (hy : FailsOnly P y) : FailsOnly P (if c then x else y) := by
  by_cases hc : c
  · rw [if_pos hc]
    exact hx hc
  · rw [if_neg hc]
    exact hy

end FailsOnly

end Abacus
