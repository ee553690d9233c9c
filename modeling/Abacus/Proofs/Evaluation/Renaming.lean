import Abacus.Proofs.Evaluation.Alike
import Abacus.Proofs.Evaluation.Safety
import Abacus.Proofs.Expr.Renaming

/-! The value of a tree whose variables have other names. The scopes may be different ones as long
as each new name has there what the former name has here, which a series keeps up at every position
of its index. -/

namespace Abacus

theorem Variable.valueOf?_cons_eq_update (index : Text) (value? : Option Float)
    (scope : List Variable) :
    valueOf? (⟨index, value?⟩ :: scope) = Function.update (valueOf? scope) index value? := by
  funext name
  rw [valueOf?_cons]
  by_cases hne : name = index
  · simp [hne]
  · rw [if_neg (Ne.symm hne), Function.update_of_ne hne]

namespace Expr

variable {s : Settings} {callees : Callees}

mutual

/-- A name that is missed is kept, so faults are the same too. -/
theorem valueIn_rename :
    ∀ (e : Expr) {names : Text → Text} {vars : List Text} {scope other : List Variable},
    e.variableNames ⊆ vars →
    Renames none names vars (Variable.valueOf? scope) (Variable.valueOf? other) →
      (e.rename names).valueIn s callees other = e.valueIn s callees scope
  | number _, _, _, _, _, _, _ | constant _, _, _, _, _, _, _ => by simp only [rename, valueIn]
  | identifier name, _, vars, scope, _, hvars, h => by
    have hname : name ∈ vars := hvars (by simp [variableNames])
    simp only [rename, valueIn, h.eq_of_mem name hname]
    cases hvalue : Variable.valueOf? scope name with
    | some value => rfl
    | none => rw [h.kept name hname hvalue]
  | negate operand, _, _, _, _, hvars, h | factorial operand, _, _, _, _, hvars, h => by
    simp only [variableNames] at hvars
    simp only [rename, valueIn, valueIn_rename operand hvars h]
  | binary _ left right, _, _, _, _, hvars, h => by
    simp only [variableNames, List.append_subset] at hvars
    simp only [rename, valueIn, valueIn_rename left hvars.1 h, valueIn_rename right hvars.2 h]
  | function _ args, _, _, _, _, hvars, h | call _ args, _, _, _, _, hvars, h => by
    simp only [variableNames] at hvars
    simp only [rename, valueIn, valuesIn_renameAll args hvars h]
  | series _ _ [], _, _, _, _, _, _ => by simp only [rename, valueIn]
  | series _ index (body :: limits), names, vars, scope, other, hvars, h => by
    simp only [variableNames, variableNamesAll, List.cons_subset, List.append_subset] at hvars
    obtain ⟨hindex, hbody, hlimits⟩ := hvars
    have hposition (position : Float) : (body.rename (Function.update names index index)).valueIn s
        callees (⟨index, some position⟩ :: other) =
          body.valueIn s callees (⟨index, some position⟩ :: scope) := by
      have hunder := h.under hindex (some position)
      rw [← Variable.valueOf?_cons_eq_update, ← Variable.valueOf?_cons_eq_update] at hunder
      exact valueIn_rename body hbody hunder
    simp only [rename, valueIn, hposition, valuesIn_renameAll limits hlimits h]

theorem valuesIn_renameAll :
    ∀ (es : List Expr) {names : Text → Text} {vars : List Text} {scope other : List Variable},
    variableNamesAll es ⊆ vars →
    Renames none names vars (Variable.valueOf? scope) (Variable.valueOf? other) →
      valuesIn s callees other (renameAll names es) = valuesIn s callees scope es
  | [], _, _, _, _, _, _ => by simp only [renameAll, valuesIn]
  | e :: rest, _, _, _, _, hvars, h => by
    simp only [variableNamesAll, List.append_subset] at hvars
    simp only [renameAll, valuesIn, valueIn_rename e hvars.1 h, valuesIn_renameAll rest hvars.2 h]

end

theorem alike_reindex {args : List Expr} {new : Text}
    (hnew : ∀ body ∈ args.head?, new ∉ body.variableNames) (k : Series) (index : Text) :
    Alike (series k index args) (reindex k index new args) := by
  have hnames : SameNames (series k index args) (reindex k index new args) :=
    ⟨freeOccurrences_reindex hnew k index, callOccurrences_reindex k index new args,
      fun _ => by cases args <;> simp [reindex]⟩
  refine ⟨hnames, fun s callees scope => ?_⟩
  cases args with
  | nil => rfl
  | cons body limits =>
    have hposition (position : Float) : (body.rename (Function.update id index new)).valueIn s
        callees (⟨new, some position⟩ :: scope) =
          body.valueIn s callees (⟨index, some position⟩ :: scope) := by
      have hbinder := Renames.binder (hnew body rfl) (Variable.valueOf? scope) index
        (Option.some_ne_none position)
      rw [← Variable.valueOf?_cons_eq_update, ← Variable.valueOf?_cons_eq_update] at hbinder
      exact valueIn_rename body (List.Subset.refl _) hbinder
    simp only [reindex, valueIn, hposition]

theorem forall₂_alike_middle {e e' : Expr} (h : Alike e e') (before after : List Expr) :
    List.Forall₂ Alike (before ++ e :: after) (before ++ e' :: after) := by
  have hrefl (es : List Expr) : List.Forall₂ Alike es es := List.forall₂_same.mpr fun x _ => .refl x
  exact List.rel_append (hrefl before) (.cons h (hrefl after))

theorem Context.alike_plug {e e' : Expr} (h : Alike e e') (c : Context) :
    Alike (c.plug e) (c.plug e') := by
  induction c with
  | hole => exact h
  | negate inner ih => exact ih.negate
  | factorial inner ih => exact ih.factorial
  | binaryLeft op inner right ih => exact .binary op ih (.refl right)
  | binaryRight op left inner ih => exact .binary op (.refl left) ih
  | function f before inner after ih => exact .function f (forall₂_alike_middle ih before after)
  | series k index before inner after ih =>
    cases before with
    | nil => exact .series k index ih (List.forall₂_same.mpr fun x _ => .refl x)
    | cons body limits => exact .series k index (.refl body) (forall₂_alike_middle ih limits after)
  | call name before inner after ih => exact .call name (forall₂_alike_middle ih before after)

end Expr

/-- The index of a series anywhere in a tree may have every name that is no variable of its body:
the tree has the same free names, and in every workspace the same value or the same fault. -/
theorem Workspace.evaluate_reindex (l : Library) (ops : List Operation) (c : Expr.Context)
    (k : Series) (index : Text) {args : List Expr} {new : Text}
    (hnew : ∀ body ∈ args.head?, new ∉ body.variableNames) :
    (c.plug (.reindex k index new args)).freeVariables =
      (c.plug (.series k index args)).freeVariables ∧
      ∀ (s : Settings) (scope : List Variable),
        (c.plug (.reindex k index new args)).evaluate s (run l ops).formulas scope =
        (c.plug (.series k index args)).evaluate s (run l ops).formulas scope := by
  constructor
  · exact congrArg List.eraseDups
      (c.freeOccurrences_plug (Expr.freeOccurrences_reindex hnew k index) [])
  · intro s scope
    exact (c.alike_plug (Expr.alike_reindex hnew k index)).value s _ scope

/-- `f(sum(i*product(i,1,i),j,i))`, where the product has an index `i` of its own in the body only:
with `j` for the outer index its upper limit is `j`, and the limits of the sum keep their names. -/
theorem Workspace.evaluate_reindex_nested :
    let formulas := (run .full [.createFormula "f".toList "j+i".toList]).formulas
    let i : Expr := .identifier "i".toList
    let j : Expr := .identifier "j".toList
    let body (outer : Expr) : Expr :=
      .binary .multiply outer (.series .product "i".toList [i, .number 1, outer])
    let tree (index : Text) (outer : Expr) : Expr :=
      .call "f".toList [i, .series .sum index [body outer, j, i]]
    (tree "j".toList j).freeVariables = ["i".toList, "j".toList] ∧
      ∀ scope : List Variable,
        (tree "j".toList j).evaluate {} formulas scope =
          (tree "i".toList i).evaluate {} formulas scope := by
  intro formulas i j body tree
  have hnew : ∀ e ∈ [body i, j, i].head?, "j".toList ∉ e.variableNames := by
    intro e he
    cases he
    decide
  obtain ⟨hfree, hvalue⟩ := evaluate_reindex .full [.createFormula "f".toList "j+i".toList]
    (.call "f".toList [i] .hole []) .sum "i".toList hnew
  exact ⟨hfree.trans (by rfl), hvalue {}⟩

end Abacus
