import Abacus.Proofs.Name.Registry
import Abacus.Session.Basic

/-! What an action answers and what state it leaves. Nothing is undone where a step is refused, so
that a refused action leaves the state as it was rests on the order of its steps: no step that may
be refused comes after one that writes. Only where an entry is taken out the write comes first, and
such a step is refused just when there was nothing to take out. -/

namespace Abacus

namespace Workspace

variable {w : Workspace} {name : Text}

theorem found_eq_ok {α : Type} {x? : Option α} {x : α} : found name x? = .ok x ↔ x? = some x := by
  cases x? <;> simp [found]

theorem checkUse_eq_ok : w.checkUse name = .ok () ↔ w.formulas.caller? (key name) = none := by
  unfold checkUse
  split <;> simp_all

theorem checkCircle_eq_ok {f : Formula} :
    w.checkCircle name f = .ok () ↔ w.formulas.leadsTo (key name) f.calls = false := by
  simp [checkCircle]

end Workspace

namespace Action

variable {σ α β : Type} {s next : σ}

theorem on_bind (action : Action σ α) (rest : α → Action σ β) (s : σ) :
    on (action >>= rest) s =
      match action.on s with
      | (.ok a, s) => (rest a).on s
      | (.error e, s) => (.error e, s) := by
  change (match action.on s with | (outcome, s) => ExceptT.bindCont rest outcome s) = _
  rcases action.on s with ⟨e | a, s⟩ <;> rfl

theorem on_check_bind (test : σ → Except RegistryError α) (rest : α → Action σ β) (s : σ) :
    on (check test >>= rest) s =
      match test s with
      | .ok a => (rest a).on s
      | .error e => (.error e, s) := by
  have hcheck : (check test).on s = (test s, s) := rfl
  rw [on_bind, hcheck]
  cases test s <;> rfl

theorem bind_eq_ok {action : Action σ α} {rest : α → Action σ β} {b : β} :
    on (action >>= rest) s = (.ok b, next) ↔
      ∃ a mid, action.on s = (.ok a, mid) ∧ (rest a).on mid = (.ok b, next) := by
  rw [on_bind]
  rcases action.on s with ⟨_ | a, mid⟩ <;> simp

/-- A test that comes first was passed, and the rest was done to the same state. -/
theorem check_bind_eq_ok {test : σ → Except RegistryError α} {rest : α → Action σ β} {b : β} :
    on (check test >>= rest) s = (.ok b, next) ↔
      ∃ a, test s = .ok a ∧ (rest a).on s = (.ok b, next) := by
  rw [on_check_bind]
  cases test s <;> simp

/-- The answer may be left out. -/
theorem on_bind_pure_snd (action : Action σ α) (s : σ) :
    (on (do let _ ← action) s).2 = (action.on s).2 := by
  rw [on_bind]
  rcases action.on s with ⟨_ | a, next⟩ <;> rfl

theorem take_eq_ok {write : σ → Option α × σ} {name : Text} {x : α} :
    on (modifyGet write >>= fun x? => check fun _ => Workspace.found name x?) s = (.ok x, next) ↔
      (write s).1 = some x ∧ (write s).2 = next := by
  change (Workspace.found name (write s).1, (write s).2) = (.ok x, next) ↔ _
  rw [Prod.mk.injEq, Workspace.found_eq_ok]

/-- Where the action is refused, the state is as it was. -/
def Atomic (action : Action σ α) : Prop := ∀ s e, (action.on s).1 = .error e → (action.on s).2 = s

namespace Atomic

variable {test : σ → Except RegistryError α} {action : Action σ α}

theorem modify (write : σ → σ) : Atomic (modify write : Action σ Unit) := by
  intro s e h
  cases h

theorem get_bind {rest : σ → Action σ β} (h : ∀ s, (rest s).Atomic) : Atomic (get >>= rest) :=
  fun s => h s s

theorem check_bind {rest : α → Action σ β} (h : ∀ a, (rest a).Atomic) :
    Atomic (check test >>= rest) := by
  intro s e he
  rw [on_check_bind] at he ⊢
  cases htest : test s with
  | ok a =>
    rw [htest] at he
    exact h a s e he
  | error e => rfl

/-- What comes after the last step that may be refused is free to write. -/
theorem bind (h : action.Atomic) {rest : α → Action σ β}
    (hrest : ∀ a s e, ((rest a).on s).1 ≠ .error e) : Atomic (action >>= rest) := by
  intro s e he
  have hstep := h s
  rw [on_bind] at he ⊢
  rcases hout : action.on s with ⟨e' | a, mid⟩
  · rw [hout] at hstep
    exact hstep e' rfl
  · rw [hout] at he
    exact absurd he (hrest a mid e)

theorem ignoring (h : action.Atomic) : Atomic (do let _ ← action) := h.bind fun _ _ _ => nofun

/-- The test after the write fails where nothing was there, and then the write changed nothing. -/
theorem take {write : σ → Option α × σ} {name : Text}
    (h : ∀ s, (write s).1 = none → (write s).2 = s) :
    Atomic (modifyGet write >>= fun x? => check fun _ => Workspace.found name x?) := by
  intro s e he
  refine h s ?_
  change Workspace.found name (write s).1 = .error e at he
  cases hx : (write s).1 with
  | none => rfl
  | some x =>
    rw [hx] at he
    cases he

end Atomic

end Action

namespace Workspace

theorem atomic_createVariable (name : Text) (value? : Option Float) :
    (createVariable name value?).Atomic :=
  .check_bind fun _ => .modify _

theorem atomic_updateVariable (name : Text) (value : Float) : (updateVariable name value).Atomic :=
  .check_bind fun _ => .modify _

theorem atomic_deleteVariable (name : Text) : (deleteVariable name).Atomic :=
  .take fun w h => by rw [Registry.erase_eq_self h]

theorem atomic_createFormula (name text : Text) : (createFormula name text).Atomic :=
  .check_bind fun _ => .check_bind fun _ => .modify _

theorem atomic_updateFormula (name text : Text) : (updateFormula name text).Atomic :=
  .check_bind fun _ => .check_bind fun _ => .check_bind fun _ => .check_bind fun _ => .modify _

theorem atomic_deleteFormula (name : Text) : (deleteFormula name).Atomic :=
  .check_bind fun _ => .check_bind fun _ => .take fun w h => by rw [Registry.erase_eq_self h]

theorem atomic_setVariable (name : Text) (value : Float) : (setVariable name value).Atomic := by
  refine .get_bind fun w => ?_
  split
  · exact atomic_updateVariable name value
  · exact atomic_createVariable name (some value)

theorem atomic_setFormula (name text : Text) : (setFormula name text).Atomic := by
  refine .get_bind fun w => ?_
  split
  · exact atomic_updateFormula name text
  · exact atomic_createFormula name text

end Workspace

end Abacus
