import Abacus.Evaluation.Basic
import Abacus.Expr.Reading

/-! Why a registry refuses a change. -/

namespace Abacus

inductive RegistryError where
  | invalidName (name : Text)
  | reserved (name : Text)
  | alreadyExists (name : Text)
  | notFound (name : Text)
  | inUse (name caller : Text)
  | recursive (name : Text)
  | unreadable (e : ReadError)

namespace RegistryError

open ReadError (quoted)

def message : RegistryError → Text
  | invalidName name => quoted name ++ " is not a valid name".toList
  | reserved name => quoted name ++ " is a reserved name".toList
  | alreadyExists name => quoted name ++ " already exists".toList
  | notFound name => quoted name ++ " does not exist".toList
  | inUse name caller => quoted name ++ " is called by ".toList ++ quoted caller
  | recursive name => quoted name ++ " would end up calling itself".toList
  | unreadable e => e.message

end RegistryError

/-! Variables and formulas under names of one's own, beside a library of functions. A name means one
thing, a formula calls only what is there, and no formula calls itself. -/

/-- What is done to a state, one step after the other. A step that is refused ends it and nothing is
undone: what was written before that step stays written. -/
abbrev Action (σ α : Type) := ExceptT RegistryError (StateM σ) α

namespace Action

variable {σ α : Type}

/-- The answer, and the state that is left. -/
def on (action : Action σ α) (s : σ) : Except RegistryError α × σ :=
  StateT.run (ExceptT.run action) s

def check (test : σ → Except RegistryError α) : Action σ α := fun s => (test s, s)

end Action

structure Workspace where
  library : Library
  bindings : Registry Variable
  formulas : Registry Formula

namespace Workspace

open Abacus.Action (check)

def ofLibrary (l : Library) : Workspace := ⟨l, .empty, .empty⟩

def vocabulary (w : Workspace) : Vocabulary := ⟨w.library, w.formulas⟩

/-- What a name is registered under. -/
def key (name : Text) : Text := lowercase (trim name)

def newKey (w : Workspace) (name : Text) : Except RegistryError Text :=
  if !isIdentifier (key name) then .error (.invalidName (key name))
  else if w.vocabulary.isReserved (key name) then .error (.reserved (key name))
  else if w.bindings.contains (key name) || w.formulas.contains (key name) then
    .error (.alreadyExists (key name))
  else .ok (key name)

def variableNamed? (w : Workspace) (name : Text) : Option Variable := w.bindings.find? (key name)

def formulaNamed? (w : Workspace) (name : Text) : Option Formula := w.formulas.find? (key name)

/-- The variables as an evaluation reads them, in the order of their names. -/
def scope (w : Workspace) : List Variable := w.bindings.values

/-- What was found under the name. -/
def found {α : Type} (name : Text) : Option α → Except RegistryError α
  | some x => .ok x
  | none => .error (.notFound (key name))

def createVariable (name : Text) (value? : Option Float) : Action Workspace Unit := do
  let name ← check (·.newKey name)
  modify fun w => { w with bindings := w.bindings.insert name ⟨name, value?⟩ }

def updateVariable (name : Text) (value : Float) : Action Workspace Unit := do
  let x ← check fun w => found name (w.variableNamed? name)
  modify fun w =>
    { w with bindings := w.bindings.insert (key name) { x with value? := some value } }

/-- Whether there was a variable is seen only after it was taken out. -/
def deleteVariable (name : Text) : Action Workspace Variable := do
  let x? ← modifyGet fun w =>
    (w.variableNamed? name, { w with bindings := w.bindings.erase (key name) })
  check fun _ => found name x?

/-- A formula may not have its own name as a parameter. -/
def define (w : Workspace) (name text : Text) : Except RegistryError Formula :=
  match Expr.read w.vocabulary text with
  | .error e => .error (.unreadable e)
  | .ok root =>
    if root.freeVariables.contains name then .error (.recursive name) else .ok ⟨name, some root⟩

/-- No call of the formula leads back to the name that it is to have. -/
def checkCircle (w : Workspace) (name : Text) (f : Formula) : Except RegistryError Unit :=
  if w.formulas.leadsTo (key name) f.calls then .error (.recursive (key name)) else .ok ()

/-- No other formula calls the one of this name. -/
def checkUse (w : Workspace) (name : Text) : Except RegistryError Unit :=
  match w.formulas.caller? (key name) with
  | some caller => .error (.inUse (key name) caller)
  | none => .ok ()

def createFormula (name text : Text) : Action Workspace Unit := do
  let name ← check (·.newKey name)
  let f ← check (·.define name text)
  modify fun w => { w with formulas := w.formulas.insert name f }

/-- The callers of a formula rely on the number of its parameters. -/
def updateFormula (name text : Text) : Action Workspace Unit := do
  let former ← check fun w => found name (w.formulaNamed? name)
  let f ← check (·.define (key name) text)
  check (·.checkCircle name f)
  check fun w => if f.arity = former.arity then .ok () else w.checkUse name
  modify fun w => { w with formulas := w.formulas.insert (key name) f }

def deleteFormula (name : Text) : Action Workspace Formula := do
  let _ ← check fun w => found name (w.formulaNamed? name)
  check (·.checkUse name)
  let f? ← modifyGet fun w =>
    (w.formulaNamed? name, { w with formulas := w.formulas.erase (key name) })
  check fun _ => found name f?

def clearVariables (w : Workspace) : Workspace := { w with bindings := .empty }

def clearFormulas (w : Workspace) : Workspace := { w with formulas := .empty }

def clear (w : Workspace) : Workspace := w.clearVariables.clearFormulas

end Workspace

end Abacus
