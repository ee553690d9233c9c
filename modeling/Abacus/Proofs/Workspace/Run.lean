import Mathlib.Data.List.Induction
import Abacus.Proofs.Workspace.Action

/-! The operations on a workspace as data, and what a sequence of them leads to. An operation that
is refused leaves the workspace as it was. -/

namespace Abacus

inductive Operation where
  | createVariable (name : Text) (value? : Option Float)
  | updateVariable (name : Text) (value : Float)
  | deleteVariable (name : Text)
  | clearVariables
  | createFormula (name text : Text)
  | updateFormula (name text : Text)
  | deleteFormula (name : Text)
  | clearFormulas
  | clear

namespace Workspace

def action : Operation → Action Workspace Unit
  | .createVariable name value? => createVariable name value?
  | .updateVariable name value => updateVariable name value
  | .deleteVariable name => do let _ ← deleteVariable name
  | .clearVariables => modify clearVariables
  | .createFormula name text => createFormula name text
  | .updateFormula name text => updateFormula name text
  | .deleteFormula name => do let _ ← deleteFormula name
  | .clearFormulas => modify clearFormulas
  | .clear => modify clear

def apply (w : Workspace) (op : Operation) : Except RegistryError Unit × Workspace :=
  (action op).on w

def after (w : Workspace) (op : Operation) : Workspace := (w.apply op).2

/-- The workspace that these operations lead to, one after the other, from an empty one. -/
def run (l : Library) (ops : List Operation) : Workspace := ops.foldl after (ofLibrary l)

theorem run_append_singleton (l : Library) (ops : List Operation) (op : Operation) :
    run l (ops ++ [op]) = (run l ops).after op := by
  simp [run]

theorem atomic_action (op : Operation) : (action op).Atomic := by
  cases op with
  | createVariable name value? => exact atomic_createVariable name value?
  | updateVariable name value => exact atomic_updateVariable name value
  | deleteVariable name => exact (atomic_deleteVariable name).ignoring
  | createFormula name text => exact atomic_createFormula name text
  | updateFormula name text => exact atomic_updateFormula name text
  | deleteFormula name => exact (atomic_deleteFormula name).ignoring
  | clearVariables | clearFormulas | clear => exact .modify _

theorem after_of_refused {w : Workspace} {op : Operation} {e : RegistryError}
    (h : (w.apply op).1 = .error e) : w.after op = w :=
  atomic_action op w e h

/-- What an operation that is not refused has found, and what it makes of the workspace. -/
inductive Step (w : Workspace) : Operation → Workspace → Prop where
  | createVariable {name k : Text} (value? : Option Float) (hk : w.newKey name = .ok k) :
    Step w (.createVariable name value?) { w with bindings := w.bindings.insert k ⟨k, value?⟩ }
  | updateVariable {name : Text} {x : Variable} (value : Float)
    (hx : w.variableNamed? name = some x) :
    Step w (.updateVariable name value)
      { w with bindings := w.bindings.insert (key name) { x with value? := some value } }
  | deleteVariable {name : Text} {x : Variable} (hx : w.variableNamed? name = some x) :
    Step w (.deleteVariable name) { w with bindings := w.bindings.erase (key name) }
  | clearVariables : Step w .clearVariables w.clearVariables
  | createFormula {name text k : Text} {f : Formula} (hk : w.newKey name = .ok k)
    (hf : w.define k text = .ok f) :
    Step w (.createFormula name text) { w with formulas := w.formulas.insert k f }
  | updateFormula {name text : Text} {former f : Formula}
    (hformer : w.formulaNamed? name = some former) (hf : w.define (key name) text = .ok f)
    (hcircle : w.formulas.leadsTo (key name) f.calls = false)
    (huse : f.arity = former.arity ∨ w.formulas.caller? (key name) = none) :
    Step w (.updateFormula name text) { w with formulas := w.formulas.insert (key name) f }
  | deleteFormula {name : Text} {f : Formula} (hf : w.formulaNamed? name = some f)
    (huse : w.formulas.caller? (key name) = none) :
    Step w (.deleteFormula name) { w with formulas := w.formulas.erase (key name) }
  | clearFormulas : Step w .clearFormulas w.clearFormulas
  | clear : Step w .clear w.clear

section

variable {w next : Workspace}

theorem step_of_apply {op : Operation} (h : w.apply op = (.ok (), next)) : w.Step op next := by
  cases op with
  | createVariable name value? =>
    obtain ⟨k, hk, hwrite⟩ := Action.check_bind_eq_ok.mp h
    cases hwrite
    exact .createVariable value? hk
  | updateVariable name value =>
    obtain ⟨x, hx, hwrite⟩ := Action.check_bind_eq_ok.mp h
    cases hwrite
    exact .updateVariable value (found_eq_ok.mp hx)
  | deleteVariable name =>
    obtain ⟨x, mid, hdelete, hnext⟩ := Action.bind_eq_ok.mp h
    cases hnext
    obtain ⟨hx, rfl⟩ := Action.take_eq_ok.mp hdelete
    exact .deleteVariable hx
  | createFormula name text =>
    obtain ⟨k, hk, h⟩ := Action.check_bind_eq_ok.mp h
    obtain ⟨f, hf, hwrite⟩ := Action.check_bind_eq_ok.mp h
    cases hwrite
    exact .createFormula hk hf
  | updateFormula name text =>
    obtain ⟨former, hformer, h⟩ := Action.check_bind_eq_ok.mp h
    obtain ⟨f, hf, h⟩ := Action.check_bind_eq_ok.mp h
    obtain ⟨_, hcircle, h⟩ := Action.check_bind_eq_ok.mp h
    obtain ⟨_, huse, hwrite⟩ := Action.check_bind_eq_ok.mp h
    cases hwrite
    refine .updateFormula (found_eq_ok.mp hformer) hf (checkCircle_eq_ok.mp hcircle) ?_
    split at huse
    · next harity => exact .inl harity
    · exact .inr (checkUse_eq_ok.mp huse)
  | deleteFormula name =>
    obtain ⟨f, mid, hdelete, hnext⟩ := Action.bind_eq_ok.mp h
    cases hnext
    obtain ⟨_, -, hdelete⟩ := Action.check_bind_eq_ok.mp hdelete
    obtain ⟨_, huse, hdelete⟩ := Action.check_bind_eq_ok.mp hdelete
    obtain ⟨hf, rfl⟩ := Action.take_eq_ok.mp hdelete
    exact .deleteFormula hf (checkUse_eq_ok.mp huse)
  | clearVariables | clearFormulas | clear =>
    cases h
    constructor

theorem after_eq_or_step (w : Workspace) (op : Operation) :
    w.after op = w ∨ w.Step op (w.after op) := by
  rcases h : w.apply op with ⟨e | _, next⟩
  · exact .inl (after_of_refused (by rw [h]))
  · rw [after, h]
    exact .inr (step_of_apply h)

/-- What holds at first and is kept by every operation that is not refused holds after every run. -/
theorem run_induction {P : Workspace → Prop} {l : Library} (start : P (ofLibrary l))
    (step : ∀ w op next, P w → w.Step op next → P next) (ops : List Operation) : P (run l ops) := by
  induction ops using List.reverseRecOn with
  | nil => exact start
  | append_singleton ops op ih =>
    rw [run_append_singleton]
    rcases after_eq_or_step (run l ops) op with hsame | hstep
    · rw [hsame]
      exact ih
    · exact step _ op _ ih hstep

end

end Workspace

end Abacus
