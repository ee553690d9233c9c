import Mathlib.Logic.Function.Basic
import Abacus.Proofs.Expr.Variables

/-! Other names for the variables of a tree. A renaming of the free places changes no binding as
long as a new name is none of the variables, so the index of a series may be called differently, and
the tree around it has the same free names as before. -/

namespace Abacus

namespace Expr

mutual

/-- Gives the free places of the variables other names. In the body of a series the index keeps its
name. -/
def rename (names : Text → Text) : Expr → Expr
  | number value => number value
  | constant c => constant c
  | identifier name => identifier (names name)
  | negate operand => negate (operand.rename names)
  | factorial operand => factorial (operand.rename names)
  | binary op left right => binary op (left.rename names) (right.rename names)
  | function f args => function f (renameAll names args)
  | series k index [] => series k index []
  | series k index (body :: limits) =>
    series k index (body.rename (Function.update names index index) :: renameAll names limits)
  | call name args => call name (renameAll names args)

def renameAll (names : Text → Text) : List Expr → List Expr
  | [] => []
  | e :: rest => e.rename names :: renameAll names rest

end

/-- A series under another index, which also takes the places in the body where the index stood. -/
def reindex (k : Series) (index new : Text) : List Expr → Expr
  | [] => series k new []
  | body :: limits => series k new (body.rename (Function.update id index new) :: limits)

end Expr

section Environments

variable {α : Type} {absent : α} {names : Text → Text} {vars : List Text} {env env' : Text → α}

/-- What each variable stands for, its new name stands for afterwards. A name that stands for
nothing is kept, and no new name is among the variables. -/
structure Renames (absent : α) (names : Text → Text) (vars : List Text) (env env' : Text → α) :
    Prop where
  eq_of_mem : ∀ name ∈ vars, env' (names name) = env name
  kept : ∀ name ∈ vars, env name = absent → names name = name
  fresh : ∀ name ∈ vars, names name = name ∨ names name ∉ vars

theorem Renames.ne_of_ne (h : Renames absent names vars env env') {index name : Text}
    (hindex : index ∈ vars) (hname : name ∈ vars) (hne : name ≠ index) : names name ≠ index := by
  intro he
  rcases h.fresh name hname with hkept | hnew
  · exact hne (hkept.symm.trans he)
  · exact hnew (he ▸ hindex)

theorem Renames.under (h : Renames absent names vars env env') {index : Text}
    (hindex : index ∈ vars) (x : α) :
    Renames absent (Function.update names index index) vars (Function.update env index x)
      (Function.update env' index x) where
  eq_of_mem name hname := by
    by_cases hne : name = index
    · simp [hne]
    · rw [Function.update_of_ne hne, Function.update_of_ne (h.ne_of_ne hindex hname hne),
        Function.update_of_ne hne, h.eq_of_mem name hname]
  kept name hname habsent := by
    by_cases hne : name = index
    · rw [hne, Function.update_self]
    · rw [Function.update_of_ne hne] at habsent ⊢
      exact h.kept name hname habsent
  fresh name hname := by
    by_cases hne : name = index
    · exact .inl (by rw [hne, Function.update_self])
    · rw [Function.update_of_ne hne]
      exact h.fresh name hname

theorem Renames.binder {new : Text} (hnew : new ∉ vars) (env : Text → α) (index : Text) {x : α}
    (hx : x ≠ absent) :
    Renames absent (Function.update id index new) vars (Function.update env index x)
      (Function.update env new x) where
  eq_of_mem name hname := by
    by_cases hne : name = index
    · simp [hne]
    · have hnew' : name ≠ new := ne_of_mem_of_not_mem hname hnew
      rw [Function.update_of_ne hne, Function.update_of_ne hne, id, Function.update_of_ne hnew']
  kept name _ habsent := by
    by_cases hne : name = index
    · rw [hne, Function.update_self] at habsent
      exact absurd habsent hx
    · exact Function.update_of_ne hne ..
  fresh name _ := by
    by_cases hne : name = index
    · exact .inr (by rwa [hne, Function.update_self])
    · exact .inl (Function.update_of_ne hne ..)

end Environments

theorem mem_cons_eq_update (index : Text) (bound : List Text) :
    (· ∈ index :: bound) = Function.update (· ∈ bound) index True := by
  funext name
  by_cases hne : name = index
  · simp [hne]
  · simp [hne, Function.update_of_ne]

namespace Expr

mutual

/-- What is free stays free under its name. -/
theorem freeOccurrences_rename :
    ∀ (e : Expr) {names : Text → Text} {vars bound bound' : List Text}, e.variableNames ⊆ vars →
    Renames False names vars (· ∈ bound) (· ∈ bound') →
    (e.rename names).freeOccurrences bound' = e.freeOccurrences bound
  | number _, _, _, _, _, _, _ | constant _, _, _, _, _, _, _ => by
    simp only [rename, freeOccurrences]
  | identifier name, _, vars, bound, _, hvars, h => by
    have hname : name ∈ vars := hvars (by simp [variableNames])
    simp only [rename, freeOccurrences, h.eq_of_mem name hname]
    split
    · rfl
    · next hfree => rw [h.kept name hname (eq_false hfree)]
  | negate operand, _, _, _, _, hvars, h | factorial operand, _, _, _, _, hvars, h => by
    simp only [variableNames] at hvars
    simp only [rename, freeOccurrences, freeOccurrences_rename operand hvars h]
  | binary _ left right, _, _, _, _, hvars, h => by
    simp only [variableNames, List.append_subset] at hvars
    simp only [rename, freeOccurrences, freeOccurrences_rename left hvars.1 h,
      freeOccurrences_rename right hvars.2 h]
  | function _ args, _, _, _, _, hvars, h | call _ args, _, _, _, _, hvars, h => by
    simp only [variableNames] at hvars
    simp only [rename, freeOccurrences, freeOccurrencesAll_renameAll args hvars h]
  | series _ _ [], _, _, _, _, _, _ => by simp only [rename, freeOccurrences]
  | series _ index (body :: limits), _, _, _, _, hvars, h => by
    simp only [variableNames, variableNamesAll, List.cons_subset, List.append_subset] at hvars
    obtain ⟨hindex, hbody, hlimits⟩ := hvars
    have hunder := h.under hindex True
    rw [← mem_cons_eq_update, ← mem_cons_eq_update] at hunder
    simp only [rename, freeOccurrences, freeOccurrences_rename body hbody hunder,
      freeOccurrencesAll_renameAll limits hlimits h]

theorem freeOccurrencesAll_renameAll :
    ∀ (es : List Expr) {names : Text → Text} {vars bound bound' : List Text},
    variableNamesAll es ⊆ vars → Renames False names vars (· ∈ bound) (· ∈ bound') →
      freeOccurrencesAll bound' (renameAll names es) = freeOccurrencesAll bound es
  | [], _, _, _, _, _, _ => by simp only [renameAll, freeOccurrencesAll]
  | e :: rest, _, _, _, _, hvars, h => by
    simp only [variableNamesAll, List.append_subset] at hvars
    simp only [renameAll, freeOccurrencesAll, freeOccurrences_rename e hvars.1 h,
      freeOccurrencesAll_renameAll rest hvars.2 h]

end

/-- The limits are outside, so only the body has to be free of the new name. -/
theorem freeOccurrences_reindex {args : List Expr} {new : Text}
    (hnew : ∀ body ∈ args.head?, new ∉ body.variableNames) (k : Series) (index : Text)
    (bound : List Text) :
    (reindex k index new args).freeOccurrences bound =
      (series k index args).freeOccurrences bound := by
  cases args with
  | nil => rfl
  | cons body limits =>
    have hbinder := Renames.binder (hnew body rfl) (· ∈ bound) index true_ne_false
    rw [← mem_cons_eq_update, ← mem_cons_eq_update] at hbinder
    simp only [reindex, freeOccurrences, freeOccurrences_rename body (List.Subset.refl _) hbinder]

mutual

theorem callOccurrences_rename (names : Text → Text) :
    ∀ e : Expr, (e.rename names).callOccurrences = e.callOccurrences
  | number _ | constant _ | identifier _ => rfl
  | negate operand | factorial operand => callOccurrences_rename names operand
  | binary _ left right => by
    simp only [rename, callOccurrences, callOccurrences_rename names left,
      callOccurrences_rename names right]
  | function _ args => callOccurrencesAll_renameAll names args
  | series _ _ [] => rfl
  | series _ index (body :: limits) => by
    simp only [rename, callOccurrences, callOccurrencesAll, callOccurrences_rename _ body,
      callOccurrencesAll_renameAll names limits]
  | call name args => congrArg (name :: ·) (callOccurrencesAll_renameAll names args)

theorem callOccurrencesAll_renameAll (names : Text → Text) :
    ∀ es : List Expr, callOccurrencesAll (renameAll names es) = callOccurrencesAll es
  | [] => rfl
  | e :: rest => by
    simp only [renameAll, callOccurrencesAll, callOccurrences_rename names e,
      callOccurrencesAll_renameAll names rest]

end

theorem callOccurrences_reindex (k : Series) (index new : Text) (args : List Expr) :
    (reindex k index new args).callOccurrences = (series k index args).callOccurrences := by
  cases args with
  | nil => rfl
  | cons body limits =>
    simp only [reindex, callOccurrences, callOccurrencesAll, callOccurrences_rename]

theorem freeOccurrencesAll_append (bound : List Text) (es es' : List Expr) :
    freeOccurrencesAll bound (es ++ es') =
      freeOccurrencesAll bound es ++ freeOccurrencesAll bound es' := by
  induction es with
  | nil => rfl
  | cons e rest ih => simp only [List.cons_append, freeOccurrencesAll, ih, List.append_assoc]

/-- A tree with one place left open, which may be an argument among others. -/
inductive Context where
  | hole
  | negate (inner : Context)
  | factorial (inner : Context)
  | binaryLeft (op : Operator) (inner : Context) (right : Expr)
  | binaryRight (op : Operator) (left : Expr) (inner : Context)
  | function (f : Function) (before : List Expr) (inner : Context) (after : List Expr)
  | series (k : Series) (index : Text) (before : List Expr) (inner : Context) (after : List Expr)
  | call (name : Text) (before : List Expr) (inner : Context) (after : List Expr)

namespace Context

/-- The tree with this one in the open place. -/
def plug (e : Expr) : Context → Expr
  | hole => e
  | negate inner => .negate (inner.plug e)
  | factorial inner => .factorial (inner.plug e)
  | binaryLeft op inner right => .binary op (inner.plug e) right
  | binaryRight op left inner => .binary op left (inner.plug e)
  | function f before inner after => .function f (before ++ inner.plug e :: after)
  | series k index before inner after => .series k index (before ++ inner.plug e :: after)
  | call name before inner after => .call name (before ++ inner.plug e :: after)

/-- Trees that cannot be told apart by their free names may stand for each other at every place. -/
theorem freeOccurrences_plug {e e' : Expr}
    (h : ∀ bound, e'.freeOccurrences bound = e.freeOccurrences bound) (c : Context) :
    ∀ bound, (c.plug e').freeOccurrences bound = (c.plug e).freeOccurrences bound := by
  induction c with
  | hole => exact h
  | negate inner ih | factorial inner ih => exact ih
  | binaryLeft op inner right ih | binaryRight op left inner ih =>
    intro bound
    simp only [plug, freeOccurrences, ih]
  | function f before inner after ih | call name before inner after ih =>
    intro bound
    simp only [plug, freeOccurrences, freeOccurrencesAll_append, freeOccurrencesAll, ih]
  | series k index before inner after ih =>
    intro bound
    cases before with
    | nil => simp only [plug, List.nil_append, freeOccurrences, ih]
    | cons body limits =>
      simp only [plug, List.cons_append, freeOccurrences, freeOccurrencesAll_append,
        freeOccurrencesAll, ih]

end Context

end Expr

end Abacus
