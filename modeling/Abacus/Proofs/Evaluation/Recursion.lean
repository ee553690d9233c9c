import Abacus.Evaluation.Basic
import Abacus.Proofs.Expr.CallSites
import Abacus.Proofs.Workspace.CallGraph

/-! Evaluation goes from a call into the formula that is called. A tree is evaluated with the
formulas that it calls and with no others, so where no formula calls itself it makes no difference
that a formula is left out while it is evaluated, and calls are never nested deeper than there are
formulas. -/

namespace Abacus

namespace Expr

variable {s : Settings} {callees other : Callees}

mutual

theorem valueIn_congr : ∀ (e : Expr) (scope : List Variable),
    (∀ name ∈ e.callOccurrences, callees name = other name) →
      e.valueIn s callees scope = e.valueIn s other scope
  | number _, _, _ | constant _, _, _ => by simp only [valueIn]
  | identifier _, _, _ => by simp only [valueIn]
  | negate operand, scope, h => by simp only [valueIn, valueIn_congr operand scope h]
  | factorial operand, scope, h => by simp only [valueIn, valueIn_congr operand scope h]
  | binary op left right, scope, h => by
    simp only [callOccurrences, List.mem_append] at h
    simp only [valueIn, valueIn_congr left scope fun name hn => h name (.inl hn),
      valueIn_congr right scope fun name hn => h name (.inr hn)]
  | function f args, scope, h => by simp only [valueIn, valuesIn_congr args scope h]
  | series k index [], _, _ => by simp only [valueIn]
  | series k index (body :: limits), scope, h => by
    simp only [callOccurrences, callOccurrencesAll, List.mem_append] at h
    have hbody (position : Float) :=
      valueIn_congr body (⟨index, some position⟩ :: scope) fun name hn => h name (.inl hn)
    simp only [valueIn, hbody, valuesIn_congr limits scope fun name hn => h name (.inr hn)]
  | call name args, scope, h => by
    simp only [callOccurrences, List.mem_cons, forall_eq_or_imp] at h
    simp only [valueIn, h.1, valuesIn_congr args scope h.2]

theorem valuesIn_congr : ∀ (es : List Expr) (scope : List Variable),
    (∀ name ∈ callOccurrencesAll es, callees name = other name) →
      valuesIn s callees scope es = valuesIn s other scope es
  | [], _, _ => by simp only [valuesIn]
  | e :: rest, scope, h => by
    simp only [callOccurrencesAll, List.mem_append] at h
    simp only [valuesIn, valueIn_congr e scope fun name hn => h name (.inl hn),
      valuesIn_congr rest scope fun name hn => h name (.inr hn)]

end

end Expr

/-- The value of a call depends on the formulas that are called from there. -/
theorem Formula.valueFor_congr {s : Settings} {callees other : Callees} {f : Formula}
    (h : ∀ name ∈ f.calls, callees name = other name) (name : Text) :
    f.valueFor s callees name = f.valueFor s other name := by
  funext args
  cases hroot : f.root? with
  | none => simp [valueFor, root, hroot]
  | some root =>
    have hcalls : ∀ name ∈ root.callOccurrences, callees name = other name := by
      intro name hname
      exact h name (by simpa [calls, hroot, Expr.calls] using hname)
    simp only [valueFor, Formula.root, hroot, ok_bind]
    rw [Expr.valueIn_congr root _ hcalls]

namespace Registry

variable {formulas : Registry Formula}

/-- Calls nested up to a depth, every formula being evaluated with all others; what lies beyond the
depth is given. -/
def calleesTo (s : Settings) (formulas : Registry Formula) (beyond : Callees) : Nat → Callees
  | 0 => beyond
  | depth + 1 => fun name =>
    (formulas.find? name).map fun f => f.valueFor s (calleesTo s formulas beyond depth) name

theorem calleesTo_succ {s : Settings} {beyond : Callees} {depth : Nat} {name : Text} {f : Formula}
    (h : formulas.find? name = some f) :
    formulas.calleesTo s beyond (depth + 1) name =
      some (f.valueFor s (formulas.calleesTo s beyond depth) name) := by
  simp only [calleesTo, h, Option.map_some]

theorem callees_of_find? {s : Settings} {name : Text} {f : Formula}
    (h : formulas.find? name = some f) :
    formulas.callees s name = some (f.valueFor s ((formulas.erase name).callees s) name) := by
  rw [callees]
  split
  · next hnone => simp [h] at hnone
  · next g hg =>
    obtain rfl : f = g := Option.some.inj (h.symm.trans hg)
    rfl

theorem callees_of_not_found {s : Settings} {name : Text} (h : formulas.find? name = none) :
    formulas.callees s name = none := by
  rw [callees]
  split
  · rfl
  · next f hf => simp [h] at hf

variable (hac : formulas.Acyclic)
  (hreg : ∀ {a b}, formulas.Calls a b → ∃ f, formulas.find? b = some f)
include hac hreg

/-- There are no more calls one inside the other than there are formulas. -/
theorem calleesTo_eq_callees (s : Settings) (beyond : Callees) {name : Text} {f : Formula}
    (hf : formulas.find? name = some f) {depth : Nat} (hdepth : formulas.entries.length ≤ depth) :
    formulas.calleesTo s beyond depth name = formulas.callees s name := by
  refine call_induction (P := fun part name => ∀ depth, part.entries.length ≤ depth →
    formulas.calleesTo s beyond depth name = part.callees s name) hac hreg ?_ hf depth hdepth
  intro part name f hf hpart ih depth hdepth
  have hlt := length_erase_lt hpart
  obtain ⟨depth, rfl⟩ : ∃ n, depth = n + 1 := ⟨depth - 1, by omega⟩
  have hcalls : ∀ c ∈ f.calls, formulas.calleesTo s beyond depth c =
      (part.erase name).callees s c :=
    fun c hc => ih c hc depth (by omega)
  rw [callees_of_find? hpart, calleesTo_succ hf, Formula.valueFor_congr hcalls]

/-- While a formula is evaluated, the others have the value that they always have. -/
theorem callees_eq (s : Settings) {name : Text} {f : Formula} (hf : formulas.find? name = some f) :
    formulas.callees s name = some (f.valueFor s (formulas.callees s) name) := by
  have hdepth := calleesTo_eq_callees hac hreg s (fun _ => none) hf (Nat.le_succ _)
  have hcalls : ∀ c ∈ f.calls,
      formulas.calleesTo s (fun _ => none) formulas.entries.length c = formulas.callees s c := by
    intro c hc
    obtain ⟨g, hg⟩ := hreg ⟨f, hf, hc⟩
    exact calleesTo_eq_callees hac hreg s _ hg (Nat.le_refl _)
  rw [← hdepth, calleesTo_succ hf, Formula.valueFor_congr hcalls]

end Registry

end Abacus
