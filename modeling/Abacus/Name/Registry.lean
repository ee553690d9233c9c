import Abacus.Expr.Basic
import Abacus.Text.Lowercase

/-! Formulas under names of one's own, which of them call which, and what a name means beside a
library. -/

namespace Abacus

/-! Entries under names, kept in the order of the names. -/

structure Registry (α : Type) where
  entries : List (Text × α)

namespace Registry

variable {α : Type}

def empty : Registry α := ⟨[]⟩

def find? (r : Registry α) (name : Text) : Option α := r.entries.lookup name

def contains (r : Registry α) (name : Text) : Bool := (r.find? name).isSome

/-- In place of what stood under the name, or before the first larger name. -/
def insertEntry (name : Text) (value : α) : List (Text × α) → List (Text × α)
  | [] => [(name, value)]
  | (k, v) :: rest =>
    if name = k then (name, value) :: rest
    else if name < k then (name, value) :: (k, v) :: rest
    else (k, v) :: insertEntry name value rest

def insert (r : Registry α) (name : Text) (value : α) : Registry α :=
  ⟨insertEntry name value r.entries⟩

def erase (r : Registry α) (name : Text) : Registry α := ⟨r.entries.filter fun e => e.1 != name⟩

def names (r : Registry α) : List Text := r.entries.map (·.1)

def values (r : Registry α) : List α := r.entries.map (·.2)

/-- Taking out a name that is there leaves fewer entries. -/
theorem length_erase_lt {r : Registry α} {name : Text} {v : α} (h : r.find? name = some v) :
    (r.erase name).entries.length < r.entries.length := by
  obtain ⟨entries⟩ := r
  simp only [find?, erase] at h ⊢
  induction entries with
  | nil => simp at h
  | cons e rest ih =>
    obtain ⟨k, w⟩ := e
    by_cases hk : name = k
    · subst hk
      simpa using Nat.lt_succ_of_le (List.length_filter_le _ rest)
    · have hk' : (name == k) = false := by simpa using hk
      have hk'' : (k != name) = true := by simpa using fun h => hk h.symm
      simp only [List.lookup_cons, hk'] at h
      simpa [List.filter_cons, hk''] using ih h

end Registry

/-! A formula has a name, which may be empty, and a tree once it has been set. -/

structure Formula where
  name : Text
  root? : Option Expr

namespace Formula

/-- Without name and tree. -/
def blank : Formula := ⟨[], none⟩

def named (name : Text) : Formula := ⟨lowercase name, none⟩

def ofExpr (e : Expr) : Formula := ⟨[], some e⟩

/-- The parameters of a call, in order. -/
def freeVariables (f : Formula) : List Text := (f.root?.map Expr.freeVariables).getD []

def arity (f : Formula) : Nat := f.freeVariables.length

def calls (f : Formula) : List Text := (f.root?.map Expr.calls).getD []

def render (f : Formula) : Text := (f.root?.map Expr.render).getD []

end Formula

/-! Which registered formulas call which others. -/

namespace Registry

/-- Whether one of the names is the target or leads to it by calls. A formula that has been looked
into is left out of the registry from then on. -/
def leadsTo (formulas : Registry Formula) (target : Text) : List Text → Bool
  | [] => false
  | name :: pending =>
    if name = target then true
    else
      match _found : formulas.find? name with
      | none => leadsTo formulas target pending
      | some f => leadsTo (formulas.erase name) target (f.calls ++ pending)
termination_by pending => (formulas.entries.length, pending.length)
decreasing_by
  · exact Prod.Lex.right _ (Nat.lt_succ_self _)
  · exact Prod.Lex.left _ _ (length_erase_lt _found)

/-- The first other formula that calls this one. -/
def caller? (formulas : Registry Formula) (name : Text) : Option Text :=
  (formulas.entries.find? fun e => e.1 != name && e.2.calls.contains name).map (·.1)

end Registry

/-! What a name means while a formula is read and evaluated: a member of the library, or a formula
of one's own. -/

structure Vocabulary where
  library : Library
  formulas : Registry Formula

namespace Vocabulary

def ofLibrary (l : Library) : Vocabulary := ⟨l, .empty⟩

def standard : Vocabulary := ofLibrary .full

/-- A constant or a member of the library; such a name is not free for variables and formulas. -/
def isReserved (v : Vocabulary) (name : Text) : Bool :=
  (Constant.ofName? name).isSome || (v.library.find? name).isSome

/-- A name that stands before a list of arguments. -/
def isCallable (v : Vocabulary) (name : Text) : Bool :=
  (v.library.find? name).isSome || v.formulas.contains name

def arity? (v : Vocabulary) (name : Text) : Option Arity :=
  match v.library.find? name with
  | some c => some c.arity
  | none => (v.formulas.find? name).map fun f => .exactly f.arity

end Vocabulary

end Abacus
