import Abacus.Proofs.Evaluation.FreeNames
import Abacus.Proofs.Evaluation.Substitution
import Abacus.Proofs.Expr.Variables
import Abacus.Proofs.Reading.Parameters
import Abacus.Proofs.Session.Transparency

/-! Calling a formula with its own parameters. The variables of a workspace have the names that they
are registered under, so a parameter has one value as an argument and at its places in the formula,
and the call has the value of the formula. -/

namespace Abacus

theorem Registry.lookup_zip_map {α : Type} {names : List Text} {name : Text} (h : name ∈ names)
    (value : Text → α) : (names.zip (names.map value)).lookup name = some (value name) := by
  induction names with
  | nil => cases h
  | cons p names ih =>
    rw [List.map_cons, List.zip_cons_cons, lookup_cons]
    by_cases hp : name = p
    · rw [if_pos hp, hp]
    · rw [if_neg hp, ih (List.mem_of_ne_of_mem hp h)]

namespace Workspace

variable {w : Workspace} {name : Text} {f : Formula}

theorem key_of_isIdentifier (h : isIdentifier name = true) : key name = name := by
  have hcanonical := (isWord_of_isIdentifier h).2.2
  have hblank : ∀ c ∈ name, isBlank c = false := fun c hc => (hcanonical c hc).1.not_blank
  have hstart {t : Text} (ht : ∀ c ∈ t, isBlank c = false) : t.dropWhile isBlank = t := by
    cases t with
    | nil => rfl
    | cons c t => rw [List.dropWhile_cons, ht c List.mem_cons_self, if_neg Bool.false_ne_true]
  rw [key, trim, hstart hblank, hstart (by simpa using hblank), List.reverse_reverse,
    lowercase_eq_self fun c hc => ⟨(hcanonical c hc).1.small, (hcanonical c hc).2⟩]

namespace WellFormed

variable (h : w.WellFormed)
include h

theorem valueOf?_scope (name : Text) :
    Variable.valueOf? w.scope name = (w.bindings.find? name).bind Variable.value? := by
  have hnames : ∀ e ∈ w.bindings.entries, e.2.name = e.1 := fun e he =>
    (h.binding (h.orderedBindings.mem_iff.mp he)).2
  have hfind : Variable.find? w.scope name = w.bindings.find? name := by
    simp only [Variable.find?, scope, Registry.values, Registry.find?]
    generalize w.bindings.entries = entries at hnames
    induction entries with
    | nil => rfl
    | cons e rest ih =>
      obtain ⟨hfirst, hrest⟩ := List.forall_mem_cons.mp hnames
      rw [List.map_cons, List.find?_cons, Registry.lookup_cons, hfirst]
      by_cases hname : name = e.1
      · simp [hname]
      · rw [if_neg hname, beq_eq_false_iff_ne.mpr (Ne.symm hname)]
        exact ih hrest
  rw [Variable.valueOf?, hfind]

/-- Where the parameters of a formula have values, the formula may as well be called with them. -/
theorem evaluate_call_of_parameters (hf : w.formulas.find? name = some f) (s : Settings)
    (scope : List Variable)
    (hvalued : ∀ p ∈ f.freeVariables, ∃ x, Variable.valueOf? scope p = some x) :
    (Expr.call name (f.freeVariables.map .identifier)).evaluate s w.formulas scope =
      f.evaluate s w.formulas scope := by
  obtain ⟨root, hroot, -⟩ := h.answered hf
  have hfree : f.freeVariables = root.freeVariables := by simp [Formula.freeVariables, hroot]
  rw [hfree] at hvalued ⊢
  let value (p : Text) : Float := (Variable.valueOf? scope p).getD 0
  have hvalue : ∀ p ∈ root.freeVariables, Variable.valueOf? scope p = some (value p) := by
    intro p hp
    obtain ⟨x, hx⟩ := hvalued p hp
    simp [value, hx]
  have hcallee := Registry.callees_eq h.acyclic h.registered_of_calls s hf
  have hargs : Expr.valuesIn s (w.formulas.callees s) scope (root.freeVariables.map .identifier) =
      .ok (root.freeVariables.map value) := by
    rw [Expr.valuesIn_eq_ok, List.forall₂_map_left_iff, List.forall₂_map_right_iff,
      List.forall₂_same]
    exact fun p hp => by simp only [Expr.valueIn, hvalue p hp]
  simp only [Expr.evaluate, Expr.valueIn, hcallee, hargs, ok_bind, Formula.valueFor,
    Formula.evaluate, Formula.root, hroot, List.length_map, if_pos]
  refine Expr.valueIn_agree root [] _ scope (fun p hp => ?_) fun _ hp => by cases hp
  have hp' := Expr.mem_freeVariables.mpr hp
  rw [Variable.valueOf?_zipWith, Registry.lookup_zip_map hp' value, hvalue p hp']

theorem isVariable {x : Variable} (hx : w.bindings.find? name = some x) :
    IsVariable w.vocabulary name := by
  obtain ⟨hname, -⟩ := h.binding hx
  refine ⟨hname.identifier, ?_, hname.notConstant⟩
  simp [Vocabulary.isCallable, vocabulary, Registry.contains, hname.notInLibrary, h.apart hx]

end WellFormed

theorem exists_op_of_setVariable (w : Workspace) (name : Text) (value : Float) :
    ∃ op : Operation, ((setVariable name value).on w).2 = w.after op := by
  change ∃ op, ((if (w.variableNamed? name).isSome then updateVariable name value
    else createVariable name (some value)).on w).2 = w.after op
  split
  · exact ⟨.updateVariable name value, rfl⟩
  · exact ⟨.createVariable name (some value), rfl⟩

theorem exists_op_of_setFormula (w : Workspace) (name text : Text) :
    ∃ op : Operation, ((setFormula name text).on w).2 = w.after op := by
  change ∃ op,
    ((if (w.formulaNamed? name).isSome then updateFormula name text
      else createFormula name text).on w).2 =
    w.after op
  split
  · exact ⟨.updateFormula name text, rfl⟩
  · exact ⟨.createFormula name text, rfl⟩

end Workspace

namespace Calculator

variable {σ : Type} [TreeStore σ] {s : Calculator σ}

theorem workspace_of_redefining (s : Calculator σ) (action : Action Workspace Unit) :
    ((redefining action).on s).2.workspace = (action.on s.workspace).2 := by
  have hwritten : ((onWorkspace action).on s).2.workspace = (action.on s.workspace).2 := rfl
  rw [redefining, Action.on_bind, ← hwritten]
  rcases (onWorkspace action).on s with ⟨_ | _, next⟩ <;> rfl

/-- What a request does to the workspace can be done by operations on it. -/
theorem workspace_of_respond (s : Calculator σ) (r : Request) :
    ∃ ops : List Operation, (s.respond r).2.workspace = ops.foldl Workspace.after s.workspace := by
  have hread (text : Text) : (s.read text).2.workspace = s.workspace :=
    congrArg (fun other : Calculator Forgetful => other.workspace) (bare_of_read s text)
  cases r with
  | read text => exact ⟨[], hread text⟩
  | calculate text => exact ⟨[], (congrArg workspace (calculate_snd s text)).trans (hread text)⟩
  | calculateFormula name => exact ⟨[], rfl⟩
  | setVariable name value =>
    obtain ⟨op, hop⟩ := Workspace.exists_op_of_setVariable s.workspace name value
    exact ⟨[op], hop⟩
  | deleteVariable name => exact ⟨[.deleteVariable name], rfl⟩
  | setFormula name text =>
    obtain ⟨op, hop⟩ := Workspace.exists_op_of_setFormula s.workspace name text
    exact ⟨[op], (workspace_of_redefining s _).trans hop⟩
  | deleteFormula name =>
    exact ⟨[.deleteFormula name],
      workspace_of_redefining s (do let _ ← Workspace.deleteFormula name)⟩
  | clear => exact ⟨[.clear], rfl⟩
  | configure settings => exact ⟨[], rfl⟩

theorem workspace_of_respondAll (s : Calculator σ) (requests : List Request) :
    ∃ ops : List Operation, (s.respondAll requests).2.workspace =
      ops.foldl Workspace.after s.workspace := by
  induction requests generalizing s with
  | nil => exact ⟨[], rfl⟩
  | cons r rest ih =>
    obtain ⟨first, hfirst⟩ := workspace_of_respond s r
    obtain ⟨others, hothers⟩ := ih (s.respond r).2
    exact ⟨first ++ others, by rw [List.foldl_append, ← hfirst]; exact hothers⟩

theorem wellFormed_respondAll (n : Nat) (requests : List Request) :
    ((ofCapacity n : Calculator σ).respondAll requests).2.workspace.WellFormed := by
  obtain ⟨ops, hops⟩ := workspace_of_respondAll (ofCapacity n : Calculator σ) requests
  rw [hops]
  exact Workspace.wellFormed_run .full ops

/-- A text that can be read has the value of its tree, whether the tree was kept or not. -/
theorem Fresh.calculate_eq (h : s.Fresh) {text : Text} {e : Expr}
    (hread : Expr.read s.workspace.vocabulary text = .ok e) :
    (s.calculate text).1 = s.evaluate (.ofExpr e) := by
  have hbare : (s.calculate text).1 = (s.bare.calculate text).1 :=
    congrArg Prod.fst (h.calculate_map_bare text)
  rw [hbare, calculate, read_bare, hread]
  rfl

/-- After all requests, a formula whose parameters are variables with values has the same outcome by
its name and by a call with its parameters, of which there may be none. -/
theorem calculate_call_of_parameters (σ : Type) [TreeStore σ] [LawfulTreeStore σ] (n : Nat)
    (requests : List Request) {name : Text} {f : Formula}
    (hf : ((ofCapacity n : Calculator σ).respondAll requests).2.workspace.formulas.find? name =
      some f)
    (hvalued : ∀ p ∈ f.freeVariables, ∃ x value,
      ((ofCapacity n : Calculator σ).respondAll requests).2.workspace.bindings.find? p = some x ∧
      x.value? = some value) :
    let s := ((ofCapacity n : Calculator σ).respondAll requests).2
    (s.calculate (name ++ '(' :: (joinWith [','] f.freeVariables ++ [')']))).1 =
      s.calculateFormula name := by
  intro s
  have hw : s.workspace.WellFormed := wellFormed_respondAll n requests
  have hfresh : s.Fresh := (fresh_ofCapacity n).respondAll requests
  obtain ⟨hname, -⟩ := hw.formula hf
  have hread : Expr.read s.workspace.vocabulary
      (name ++ '(' :: (joinWith [','] f.freeVariables ++ [')'])) =
        .ok (.call name (f.freeVariables.map .identifier)) := by
    refine read_call_of_names hw.identified hname.notInLibrary hf rfl fun p hp => ?_
    obtain ⟨x, value, hx, -⟩ := hvalued p hp
    exact hw.isVariable hx
  have hcall := hw.evaluate_call_of_parameters hf s.settings s.workspace.scope fun p hp => by
    obtain ⟨x, value, hx, hvalue⟩ := hvalued p hp
    exact ⟨value, by rw [hw.valueOf?_scope, hx]; exact hvalue⟩
  have hnamed : s.workspace.formulaNamed? name = some f := by
    rw [Workspace.formulaNamed?, Workspace.key_of_isIdentifier hname.identifier]
    exact hf
  calc (s.calculate (name ++ '(' :: (joinWith [','] f.freeVariables ++ [')']))).1
      = s.evaluate (.ofExpr (.call name (f.freeVariables.map .identifier))) :=
    hfresh.calculate_eq hread
    _ = s.evaluate f := congrArg (Except.mapError Failure.evaluation) hcall
    _ = s.calculateFormula name := by rw [calculateFormula, hnamed]

/-- The second parameter is called `_`, which is no text that can be read by itself. -/
theorem calculate_call_of_parameters_underscore :
    let s := ((ofCapacity 1 : Session).respondAll [.setVariable "_".toList 2,
      .setVariable "x".toList 3, .setFormula "f".toList "2*x-_".toList]).2
    let root : Expr := .binary .add (.binary .multiply (.number 2) (.identifier "x".toList))
      (.negate (.identifier "_".toList))
    s.workspace.formulas.find? "f".toList = some ⟨"f".toList, some root⟩ ∧
    root.freeVariables = ["x".toList, "_".toList] ∧
      (s.calculate "f(x,_)".toList).1 = s.calculateFormula "f".toList := by
  intro s root
  have hf : s.workspace.formulas.find? "f".toList = some ⟨"f".toList, some root⟩ := by
    with_unfolding_all rfl
  have hfree : root.freeVariables = ["x".toList, "_".toList] := by rfl
  refine ⟨hf, hfree, calculate_call_of_parameters Cache 1 _ hf fun p hp => ?_⟩
  have hp' : p ∈ ["x".toList, "_".toList] := hfree ▸ hp
  rcases List.mem_pair.mp hp' with rfl | rfl
  · exact ⟨⟨"x".toList, some 3⟩, 3, by with_unfolding_all rfl, rfl⟩
  · exact ⟨⟨"_".toList, some 2⟩, 2, by with_unfolding_all rfl, rfl⟩

end Calculator

end Abacus
