import Mathlib.Data.List.Induction
import Abacus.Proofs.Workspace.Action

/-! What a calculator is asked as data, and what it answers to one request after the other. A change
that is refused leaves the calculator as it was. -/

namespace Abacus

inductive Request where
  | read (text : Text)
  | calculate (text : Text)
  | calculateFormula (name : Text)
  | setVariable (name : Text) (value : Float)
  | deleteVariable (name : Text)
  | setFormula (name text : Text)
  | deleteFormula (name : Text)
  | clear
  | configure (settings : Settings)

inductive Answer where
  | tree (outcome : Except ReadError Expr)
  | number (outcome : Except Failure Float)
  | change (outcome : Except RegistryError Unit)

namespace Calculator

variable {σ : Type} {action : Action Workspace Unit}

theorem atomic_onWorkspace (h : action.Atomic) :
    (onWorkspace action : Action (Calculator σ) Unit).Atomic := by
  intro s e he
  have hsame : (action.on s.workspace).2 = s.workspace := h s.workspace e he
  change { s with workspace := (action.on s.workspace).2 } = s
  rw [hsame]

variable [TreeStore σ]

theorem atomic_redefining (h : action.Atomic) :
    (redefining action : Action (Calculator σ) Unit).Atomic :=
  (atomic_onWorkspace h).bind fun _ _ _ => nofun

def changed (s : Calculator σ) (action : Action (Calculator σ) Unit) : Answer × Calculator σ :=
  (action.on s).map .change id

def respond (s : Calculator σ) : Request → Answer × Calculator σ
  | .read text => (s.read text).map .tree id
  | .calculate text => (s.calculate text).map .number id
  | .calculateFormula name => (.number (s.calculateFormula name), s)
  | .setVariable name value => s.changed (setVariable name value)
  | .deleteVariable name => s.changed (deleteVariable name)
  | .setFormula name text => s.changed (setFormula name text)
  | .deleteFormula name => s.changed (deleteFormula name)
  | .clear => s.changed (modify clear)
  | .configure settings => s.changed (modify fun s => { s with settings := settings })

/-- The answers to some requests, and what the calculator is after them. -/
def respondAll (s : Calculator σ) : List Request → List Answer × Calculator σ
  | [] => ([], s)
  | r :: rest =>
    let (answer, next) := s.respond r
    (next.respondAll rest).map (answer :: ·) id

theorem respond_of_refused {s : Calculator σ} {r : Request} {e : RegistryError}
    (h : (s.respond r).1 = .change (.error e)) : (s.respond r).2 = s := by
  have hchanged {action : Action (Calculator σ) Unit} (hatomic : action.Atomic)
      (h : (s.changed action).1 = .change (.error e)) : (s.changed action).2 = s :=
    hatomic s e (Answer.change.inj h)
  cases r with
  | read text | calculate text | calculateFormula name => cases h
  | setVariable name value =>
    exact hchanged (atomic_onWorkspace (Workspace.atomic_setVariable name value)) h
  | deleteVariable name =>
    exact hchanged (atomic_onWorkspace (Workspace.atomic_deleteVariable name).ignoring) h
  | setFormula name text =>
    exact hchanged (atomic_redefining (Workspace.atomic_setFormula name text)) h
  | deleteFormula name =>
    exact hchanged (atomic_redefining (Workspace.atomic_deleteFormula name).ignoring) h
  | clear => cases h
  | configure settings => cases h

end Calculator

end Abacus
