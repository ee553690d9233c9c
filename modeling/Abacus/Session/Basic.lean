import Abacus.Workspace.Basic

/-! Where a session keeps the trees of the texts that it has read. -/

namespace Abacus

/-- Looking for a tree may change which one is forgotten next. -/
class TreeStore (σ : Type) where
  ofCapacity : Nat → σ
  capacity : σ → Nat
  size : σ → Nat
  find : σ → Text → Option Expr × σ
  insert : σ → Text → Expr → σ
  clear : σ → σ

/-- The trees of the texts that were read last; the entry used last comes first. -/
structure Cache where
  capacity : Nat
  entries : List (Text × Expr)
  fits : entries.length ≤ capacity

namespace Cache

def ofCapacity (n : Nat) : Cache := ⟨n, [], Nat.zero_le n⟩

/-- Puts an entry first; beyond the capacity the last one is forgotten. -/
def insert (c : Cache) (text : Text) (e : Expr) : Cache where
  capacity := c.capacity
  entries := ((text, e) :: c.entries.filter fun entry => entry.1 != text).take c.capacity
  fits := List.length_take_le ..

/-- A text that is found becomes the one used last. -/
def find (c : Cache) (text : Text) : Option Expr × Cache :=
  match c.entries.lookup text with
  | some e => (some e, c.insert text e)
  | none => (none, c)

def clear (c : Cache) : Cache := ofCapacity c.capacity

instance : TreeStore Cache where
  ofCapacity := ofCapacity
  capacity := capacity
  size c := c.entries.length
  find := find
  insert := insert
  clear := clear

end Cache

/-! A session with a calculator: a workspace, settings, and a store of trees that were read. How a
text is read depends on the formulas that there are, so the store is emptied when they change. -/

inductive Failure where
  | reading (e : ReadError)
  | evaluation (e : EvalError)
  | registry (e : RegistryError)

namespace Failure

def message : Failure → Text
  | reading e => e.message
  | evaluation e => e.message
  | registry e => e.message

end Failure

namespace Workspace

/-- Creates the variable, or updates its value where it is there already. -/
def setVariable (name : Text) (value : Float) : Action Workspace Unit := do
  if ((← get).variableNamed? name).isSome then updateVariable name value
    else createVariable name (some value)

/-- Creates the formula, or defines it anew where it is there already. -/
def setFormula (name text : Text) : Action Workspace Unit := do
  if ((← get).formulaNamed? name).isSome then updateFormula name text else createFormula name text

end Workspace

structure Calculator (σ : Type) where
  workspace : Workspace
  settings : Settings
  cache : σ

namespace Calculator

open TreeStore (find insert)

variable {σ : Type} [TreeStore σ]

/-- There is room for one tree at least. -/
def ofCapacity (n : Nat) : Calculator σ := ⟨.ofLibrary .full, {}, TreeStore.ofCapacity (max 1 n)⟩

/-- A text that cannot be read is not kept. -/
def read (s : Calculator σ) (text : Text) : Except ReadError Expr × Calculator σ :=
  match find s.cache text with
  | (some e, cache) => (.ok e, { s with cache := cache })
  | (none, cache) =>
    match Expr.read s.workspace.vocabulary text with
    | .ok e => (.ok e, { s with cache := insert cache text e })
    | .error e => (.error e, { s with cache := cache })

/-- The variables of the workspace have their values. -/
def evaluate (s : Calculator σ) (f : Formula) : Except Failure Float :=
  (f.evaluate s.settings s.workspace.formulas s.workspace.scope).mapError .evaluation

def calculate (s : Calculator σ) (text : Text) : Except Failure Float × Calculator σ :=
  match s.read text with
  | (.ok e, s) => (s.evaluate (.ofExpr e), s)
  | (.error e, s) => (.error (.reading e), s)

def calculateFormula (s : Calculator σ) (name : Text) : Except Failure Float :=
  match s.workspace.formulaNamed? name with
  | some f => s.evaluate f
  | none => .error (.registry (.notFound (Workspace.key name)))

def onWorkspace (action : Action Workspace Unit) : Action (Calculator σ) Unit := fun s =>
  (action.on s.workspace).map id fun w => { s with workspace := w }

/-- The trees that are kept were read with the former formulas. -/
def redefining (action : Action Workspace Unit) : Action (Calculator σ) Unit := do
  onWorkspace action
  modify fun s => { s with cache := TreeStore.clear s.cache }

def setVariable (name : Text) (value : Float) : Action (Calculator σ) Unit :=
  onWorkspace (Workspace.setVariable name value)

def deleteVariable (name : Text) : Action (Calculator σ) Unit :=
  onWorkspace do let _ ← Workspace.deleteVariable name

def setFormula (name text : Text) : Action (Calculator σ) Unit :=
  redefining (Workspace.setFormula name text)

def deleteFormula (name : Text) : Action (Calculator σ) Unit :=
  redefining do let _ ← Workspace.deleteFormula name

def clear (s : Calculator σ) : Calculator σ :=
  { s with workspace := s.workspace.clear, cache := TreeStore.clear s.cache }

end Calculator

/-- A calculator that forgets the tree that was not used for longest. -/
abbrev Session := Calculator Cache

namespace Session

def ofCapacity (n : Nat) : Session := Calculator.ofCapacity n

def standard : Session := ofCapacity 128

end Session

/-- The value of a text with the full library, no formulas and the given variables. -/
def evaluateText (s : Settings) (scope : List Variable) (text : Text) : Except Failure Float :=
  match Expr.read .standard text with
  | .error e => .error (.reading e)
  | .ok e => (e.evaluate s .empty scope).mapError .evaluation

end Abacus
