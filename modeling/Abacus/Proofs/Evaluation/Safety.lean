import Mathlib.Data.List.Forall2
import Abacus.Proofs.Evaluation.Faults
import Abacus.Proofs.Evaluation.Recursion
import Abacus.Proofs.Expr.Legible
import Abacus.Proofs.Workspace.WellFormed

/-! What can go wrong when a tree is evaluated in the workspace that it was read in: an operation
that is not defined for its numbers, a series whose limits or step are unsuitable, or a free
variable of the tree that has no value. The parameters of a formula have values in every call, so no
name of a called formula is ever missed. -/

namespace Abacus

/-- A call of the name with so many arguments finds a formula that takes them, and nothing is
missing in it. -/
def Callees.Answer (callees : Callees) (name : Text) (count : Nat) : Prop :=
  ∃ value, callees name = some value ∧
    ∀ args : List Float, args.length = count → Sound (fun _ => False) (value args)

namespace Variable

theorem valueOf?_cons (x : Variable) (scope : List Variable) (name : Text) :
    valueOf? (x :: scope) name = if x.name = name then x.value? else valueOf? scope name := by
  unfold valueOf? find?
  by_cases h : x.name = name
  · simp [h]
  · simp [h]

theorem valueOf?_eq_none_iff {scope : List Variable} {name : Text} :
    valueOf? scope name = none ↔ find? scope name = none ∨ ∃ x,
      find? scope name = some x ∧ x.value? = none := by
  unfold valueOf?
  cases find? scope name <;> simp

theorem isSome_valueOf?_zipWith {names : List Text} {args : List Float}
    (hlen : names.length = args.length) {name : Text} (h : name ∈ names) :
    valueOf? (List.zipWith (fun p x => ⟨p, some x⟩) names args) name ≠ none := by
  induction names generalizing args with
  | nil => cases h
  | cons p names ih =>
    obtain ⟨x, args, rfl⟩ := List.exists_cons_of_length_eq_add_one hlen.symm
    rw [List.zipWith_cons_cons, valueOf?_cons]
    by_cases hp : p = name
    · simp [hp]
    · rw [if_neg hp]
      rcases List.mem_cons.mp h with rfl | hmem
      · exact absurd rfl hp
      · exact ih (by simpa using hlen) hmem

end Variable

namespace Expr

variable {s : Settings} {callees : Callees} {missing : Text → Prop}

theorem valuesIn_eq_ok {scope : List Variable} {es : List Expr} {values : List Float} :
    valuesIn s callees scope es = .ok values ↔
      List.Forall₂ (fun e x => e.valueIn s callees scope = .ok x) es values := by
  induction es generalizing values with
  | nil => simp [valuesIn, eq_comm]
  | cons e rest ih =>
    simp only [valuesIn, bind_eq_ok, pure_eq_ok, Except.ok.injEq, List.forall₂_cons_left_iff]
    constructor
    · rintro ⟨x, hx, xs, hxs, rfl⟩
      exact ⟨x, xs, hx, ih.mp hxs, rfl⟩
    · rintro ⟨x, xs, hx, hxs, rfl⟩
      exact ⟨x, hx, xs, ih.mpr hxs, rfl⟩

theorem length_of_valuesIn {scope : List Variable} {es : List Expr} {values : List Float}
    (h : valuesIn s callees scope es = .ok values) : values.length = es.length :=
  (valuesIn_eq_ok.mp h).length_eq.symm

mutual

/-- In a tree whose calls are answered only free names without value are missed. -/
theorem sound_valueIn : ∀ (e : Expr) (bound : List Text) (scope : List Variable), e.Counted →
    (∀ site ∈ e.callSites, callees.Answer site.1 site.2) →
    (∀ name ∈ e.freeOccurrences bound, Variable.valueOf? scope name = none → missing name) →
    (∀ name ∈ bound, Variable.valueOf? scope name ≠ none) →
    Sound missing (e.valueIn s callees scope)
  | number _, _, _, _, _, _, _ => .ok _
  | constant _, _, _, _, _, _, _ => .ok _
  | identifier name, bound, scope, _, _, hfree, hbound => by
    simp only [valueIn]
    split
    · exact .ok _
    · next hnone =>
      have hnot : name ∉ bound := fun hmem => hbound name hmem hnone
      exact .noValue (hfree name (by simp [freeOccurrences, hnot]) hnone)
  | negate operand, bound, scope, hc, ha, hfree, hbound => by
    simp only [valueIn]
    exact .map _ (sound_valueIn operand bound scope hc ha hfree hbound)
  | factorial operand, bound, scope, hc, ha, hfree, hbound => by
    simp only [valueIn]
    exact .bind (sound_valueIn operand bound scope hc ha hfree hbound) fun _ _ => .factorial s _
  | binary op left right, bound, scope, hc, ha, hfree, hbound => by
    simp only [callSites, freeOccurrences, List.mem_append] at ha hfree
    have hleft := sound_valueIn left bound scope hc.1 (fun site h => ha site (.inl h))
      (fun name h => hfree name (.inl h)) hbound
    have hright := sound_valueIn right bound scope hc.2 (fun site h => ha site (.inr h))
      (fun name h => hfree name (.inr h)) hbound
    simp only [valueIn]
    exact .bind hleft fun _ _ => .bind hright fun _ _ => .operator s op _ _
  | function f args, bound, scope, hc, ha, hfree, hbound => by
    simp only [valueIn]
    refine .bind (sound_valuesIn args bound scope hc.2 ha hfree hbound) fun values hvalues =>
      .function s f ?_
    rw [length_of_valuesIn hvalues]
    exact hc.1
  | series k index [], _, _, hc, _, _, _ => by cases hc.1
  | series k index (body :: limits), bound, scope, hc, ha, hfree, hbound => by
    obtain ⟨hcount, hcbody, hclimits⟩ := hc
    simp only [callSites, callSitesAll, freeOccurrences, List.mem_append] at ha hfree
    have hlimits := sound_valuesIn limits bound scope hclimits (fun site h => ha site (.inr h))
      (fun name h => hfree name (.inr h)) hbound
    have hbody (position : Float) :
        Sound missing (body.valueIn s callees (⟨index, some position⟩ :: scope)) := by
      refine sound_valueIn body (index :: bound) _ hcbody (fun site h => ha site (.inl h)) ?_ ?_
      · intro name hname hnone
        rw [Variable.valueOf?_cons] at hnone
        split at hnone
        · cases hnone
        · exact hfree name (.inl hname) hnone
      · intro name hname
        rw [Variable.valueOf?_cons]
        split
        · simp
        · next hne => exact hbound name (List.mem_of_ne_of_mem (fun he => hne he.symm) hname)
    simp only [valueIn]
    refine .bind hlimits fun values hvalues => ?_
    split
    · exact .accumulate hbody ..
    · exact .accumulate hbody ..
    · next htwo hthree =>
      have hlen := length_of_valuesIn hvalues
      have hboth := Bool.and_eq_true_iff.mp hcount
      have hleast : 4 ≤ limits.length + 2 := of_decide_eq_true hboth.1
      have hmost : limits.length + 2 ≤ 5 := of_decide_eq_true hboth.2
      match values with
      | [] | [_] | _ :: _ :: _ :: _ :: _ => simp at hlen; omega
      | [first, last] => exact absurd rfl (htwo first last)
      | [first, last, step] => exact absurd rfl (hthree first last step)
  | call name args, bound, scope, hc, ha, hfree, hbound => by
    simp only [callSites, List.mem_cons, forall_eq_or_imp] at ha
    obtain ⟨⟨value, hvalue, hsound⟩, hargs⟩ := ha
    simp only [valueIn, hvalue]
    refine .bind (sound_valuesIn args bound scope hc hargs hfree hbound) fun values hvalues => ?_
    exact (hsound values (length_of_valuesIn hvalues)).mono fun _ h => h.elim

theorem sound_valuesIn :
    ∀ (es : List Expr) (bound : List Text) (scope : List Variable), AllCounted es →
    (∀ site ∈ callSitesAll es, callees.Answer site.1 site.2) →
    (∀ name ∈ freeOccurrencesAll bound es, Variable.valueOf? scope name = none → missing name) →
    (∀ name ∈ bound, Variable.valueOf? scope name ≠ none) →
    Sound missing (valuesIn s callees scope es)
  | [], _, _, _, _, _, _ => .ok _
  | e :: rest, bound, scope, hc, ha, hfree, hbound => by
    simp only [callSitesAll, freeOccurrencesAll, List.mem_append] at ha hfree
    have hfirst := sound_valueIn e bound scope hc.1 (fun site h => ha site (.inl h))
      (fun name h => hfree name (.inl h)) hbound
    have hrest := sound_valuesIn rest bound scope hc.2 (fun site h => ha site (.inr h))
      (fun name h => hfree name (.inr h)) hbound
    simp only [valuesIn]
    exact .bind hfirst fun _ _ => .bind hrest fun _ _ => .ok _

end

end Expr

namespace Formula

theorem sound_valueFor {s : Settings} {callees : Callees} {f : Formula} {root : Expr}
    (hroot : f.root? = some root) (hcounted : root.Counted)
    (hanswer : ∀ site ∈ root.callSites, callees.Answer site.1 site.2) (name : Text)
    {args : List Float} (hargs : args.length = f.arity) :
    Sound (fun _ => False) (f.valueFor s callees name args) := by
  have hlen : root.freeVariables.length = args.length := by
    simp [hargs, arity, freeVariables, hroot]
  simp only [valueFor, Formula.root, hroot, ok_bind, if_pos hlen]
  refine Expr.sound_valueIn root [] _ hcounted hanswer ?_ (fun _ h => by cases h)
  intro free hfree hnone
  have hmem : free ∈ root.freeVariables := by simpa [Expr.freeVariables] using hfree
  exact Variable.isSome_valueOf?_zipWith hlen hmem hnone

end Formula

namespace Workspace

theorem answer_of_run (l : Library) (ops : List Operation) (s : Settings) {name : Text}
    {f : Formula} (hf : (run l ops).formulas.find? name = some f) :
    ((run l ops).formulas.callees s).Answer name f.arity := by
  have hw := wellFormed_run l ops
  refine Registry.call_induction
    (P := fun part name => ∀ f, (run l ops).formulas.find? name = some f →
      (part.callees s).Answer name f.arity)
    hw.acyclic hw.registered_of_calls ?_ hf f hf
  intro part name f hf hpart ih g hg
  obtain rfl : f = g := Option.some.inj (hf.symm.trans hg)
  obtain ⟨root, hroot, hans⟩ := hw.answered hf
  have hcounted : root.Counted := stored_of_run (fun _ _ _ _ _ => Expr.counted_of_read) ops hf hroot
  refine ⟨_, Registry.callees_of_find? hpart, fun args hargs => ?_⟩
  refine Formula.sound_valueFor hroot hcounted (fun site hsite => ?_) name hargs
  obtain ⟨callee, hcallee, hn⟩ := hans site hsite
  have hcall : site.1 ∈ f.calls := by
    simpa [Formula.calls, hroot] using Expr.mem_calls.mpr ⟨site.2, hsite⟩
  exact hn ▸ ih site.1 hcall callee hcallee

/-- Evaluation in the workspace that a text was read in goes no deeper into calls than there are
formulas, and fails for reasons of its numbers only or because a free variable of the text has no
value. -/
theorem evaluate_of_read (l : Library) (ops : List Operation) {text : Text} {e : Expr}
    (h : Expr.read (run l ops).vocabulary text = .ok e) (s : Settings) (scope : List Variable) :
    (∀ beyond : Callees, e.evaluate s (run l ops).formulas scope =
      e.valueIn s ((run l ops).formulas.calleesTo s beyond (run l ops).formulas.entries.length)
        scope) ∧
    ∀ err, e.evaluate s (run l ops).formulas scope = .error err → ¬ err.IsStructural ∧
      ∀ name, err = .noValue name → name ∈ e.freeVariables ∧
        (Variable.find? scope name = none ∨
          ∃ x, Variable.find? scope name = some x ∧ x.value? = none) := by
  have hw := wellFormed_run l ops
  have hans := answers_of_read h
  constructor
  · intro beyond
    refine Expr.valueIn_congr e scope fun name hname => ?_
    obtain ⟨n, hn⟩ := Expr.mem_calls.mp (by simpa [Expr.calls] using hname)
    obtain ⟨f, hf, -⟩ := hans _ hn
    exact (Registry.calleesTo_eq_callees hw.acyclic hw.registered_of_calls s beyond hf
      (Nat.le_refl _)).symm
  · intro err herr
    have hsound : Sound (fun name => name ∈ e.freeVariables ∧ Variable.valueOf? scope name = none)
        (e.evaluate s (run l ops).formulas scope) := by
      refine Expr.sound_valueIn e [] scope (Expr.counted_of_read h) (fun site hsite => ?_) ?_
        (fun _ h => by cases h)
      · obtain ⟨f, hf, hn⟩ := hans site hsite
        exact hn ▸ answer_of_run l ops s hf
      · exact fun name hname hnone => ⟨by simpa [Expr.freeVariables] using hname, hnone⟩
    rw [herr] at hsound
    cases hsound with
    | error harises =>
      refine ⟨harises.1, fun name hname => ?_⟩
      obtain ⟨hfree, hnone⟩ := harises.2 name hname
      exact ⟨hfree, Variable.valueOf?_eq_none_iff.mp hnone⟩

/-- The argument of a call has no value: its name is missed, and not the parameter of the
formula. -/
theorem evaluate_of_read_argument :
    Expr.read (run .full [.createFormula "f".toList "x".toList]).vocabulary "f(y)".toList =
      .ok (.call "f".toList [.identifier "y".toList]) ∧
    (Expr.call "f".toList [.identifier "y".toList]).evaluate {}
      (run .full [.createFormula "f".toList "x".toList]).formulas [] =
        .error (.noValue "y".toList) ∧
    "y".toList ∈ (Expr.call "f".toList [.identifier "y".toList]).freeVariables := by
  have hread : Expr.read (run .full [.createFormula "f".toList "x".toList]).vocabulary
      "f(y)".toList = .ok (.call "f".toList [.identifier "y".toList]) := by with_unfolding_all rfl
  have herr : (Expr.call "f".toList [.identifier "y".toList]).evaluate {}
      (run .full [.createFormula "f".toList "x".toList]).formulas [] =
        .error (.noValue "y".toList) := by
    with_unfolding_all rfl
  obtain ⟨-, hfault⟩ := evaluate_of_read .full [.createFormula "f".toList "x".toList] hread {} []
  exact ⟨hread, herr, ((hfault _ herr).2 _ rfl).1⟩

end Workspace

end Abacus
