import Mathlib.Data.List.Basic
import Abacus.Proofs.Workspace.CallGraph

/-! Looking for a name by calls, depth first. What has been visited is left out from then on, on
whichever branch it was visited; the answer is still whether there is a chain of calls, also where
calls go in a circle or to names that are not registered. -/

namespace Abacus

namespace Registry

open Relation (ReflTransGen TransGen)

variable {formulas : Registry Formula} {name target : Text} {seen seen' : List Text}

/-- The entries whose names have not been visited. -/
def without (formulas : Registry Formula) (seen : List Text) : Registry Formula :=
  ⟨formulas.entries.filter fun e => !seen.contains e.1⟩

theorem without_nil (formulas : Registry Formula) : formulas.without [] = formulas := by
  simp [without]

theorem without_cons (formulas : Registry Formula) (name : Text) (seen : List Text) :
    formulas.without (name :: seen) = (formulas.without seen).erase name := by
  simp only [without, erase, List.filter_filter]
  congr 1
  refine List.filter_congr fun e _ => Bool.eq_iff_iff.mpr ?_
  simp

theorem find?_without (formulas : Registry Formula) (seen : List Text) (name : Text) :
    (formulas.without seen).find? name = if name ∈ seen then none else formulas.find? name := by
  induction seen with
  | nil => simp [without_nil]
  | cons k seen ih =>
    rw [without_cons, find?_erase, ih]
    by_cases hk : name = k <;> simp [hk]

theorem length_without_le (formulas : Registry Formula) (h : seen ⊆ seen') :
    (formulas.without seen').entries.length ≤ (formulas.without seen).entries.length := by
  refine (List.monotone_filter_right formulas.entries fun e he => ?_).length_le
  rw [Bool.not_eq_true', List.contains_eq_mem, decide_eq_false_iff_not] at he ⊢
  exact fun hs => he (h hs)

theorem length_without_lt {f : Formula} (hnew : name ∉ seen) (hf : formulas.find? name = some f)
    (h : name :: seen ⊆ seen') :
    (formulas.without seen').entries.length < (formulas.without seen).entries.length := by
  have hfind : (formulas.without seen).find? name = some f := by rw [find?_without, if_neg hnew, hf]
  have hlt := length_erase_lt hfind
  rw [← without_cons] at hlt
  exact Nat.lt_of_le_of_lt (length_without_le formulas h) hlt

/-- Whether one of the names is the target or leads to it, and the names visited by then. The calls
of a formula are followed before the names beside it. -/
def visit (formulas : Registry Formula) (target : Text) (seen : List Text) :
    List Text → { r : Bool × List Text // seen ⊆ r.2 }
  | [] => ⟨(false, seen), List.Subset.refl seen⟩
  | name :: siblings =>
    if name = target then ⟨(true, seen), List.Subset.refl seen⟩
    else if _known : name ∈ seen then visit formulas target seen siblings
    else
      match _found : formulas.find? name with
      | none =>
        let ⟨r, hr⟩ := visit formulas target (name :: seen) siblings
        ⟨r, fun _ h => hr (List.mem_cons_of_mem _ h)⟩
      | some f =>
        match visit formulas target (name :: seen) f.calls with
        | ⟨(true, after), hafter⟩ => ⟨(true, after), fun _ h => hafter (List.mem_cons_of_mem _ h)⟩
        | ⟨(false, after), hafter⟩ =>
          let ⟨r, hr⟩ := visit formulas target after siblings
          ⟨r, fun _ h => hr (hafter (List.mem_cons_of_mem _ h))⟩
termination_by names => ((formulas.without seen).entries.length, names.length)
decreasing_by
  · exact Prod.Lex.right _ (Nat.lt_succ_self _)
  · exact Prod.Lex.right' _ (length_without_le formulas (List.subset_cons_self _ _))
      (Nat.lt_succ_self _)
  · exact Prod.Lex.left _ _ (length_without_lt _known _found (List.Subset.refl _))
  · exact Prod.Lex.left _ _ (length_without_lt _known _found hafter)

section LeadsTo

variable {pending : List Text} {f : Formula}

theorem leadsTo_target : formulas.leadsTo target (target :: pending) = true := by
  rw [leadsTo, if_pos rfl]

theorem leadsTo_of_none (hne : name ≠ target) (h : formulas.find? name = none) :
    formulas.leadsTo target (name :: pending) = formulas.leadsTo target pending := by
  rw [leadsTo, if_neg hne]
  split
  · rfl
  · next hf => simp [h] at hf

theorem leadsTo_of_some (hne : name ≠ target) (h : formulas.find? name = some f) :
    formulas.leadsTo target (name :: pending) =
      (formulas.erase name).leadsTo target (f.calls ++ pending) := by
  rw [leadsTo, if_neg hne]
  split
  · next hf => simp [h] at hf
  · next g hg =>
    obtain rfl : f = g := Option.some.inj (h.symm.trans hg)
    rfl

end LeadsTo

/-- The names that stand behind others are looked for in what these leave unvisited. -/
theorem leadsTo_append (formulas : Registry Formula) (target : Text)
    (seen names pending : List Text) :
    (formulas.without seen).leadsTo target (names ++ pending) =
      ((formulas.visit target seen names).1.1 ||
        (formulas.without (formulas.visit target seen names).1.2).leadsTo target pending) := by
  fun_induction visit formulas target seen names generalizing pending with
  | case1 => simp
  | case2 => simp [leadsTo_target]
  | case3 seen name siblings hne hknown ih =>
    have hnone : (formulas.without seen).find? name = none := by rw [find?_without, if_pos hknown]
    rw [List.cons_append, leadsTo_of_none hne hnone, ih]
  | case4 seen name siblings hne hnew hnone r hr hvisit ih =>
    -- a name that is not registered is visited, and there is nothing to leave out
    have hnone' : (formulas.without seen).find? name = none := by
      rw [find?_without, if_neg hnew, hnone]
    rw [List.cons_append, leadsTo_of_none hne hnone', ← erase_eq_self hnone',
      ← without_cons, ih, hvisit]
  | case5 seen name siblings hne hnew f hf after hafter hvisit ih =>
    have hf' : (formulas.without seen).find? name = some f := by rw [find?_without, if_neg hnew, hf]
    rw [List.cons_append, leadsTo_of_some hne hf', ← without_cons, ih, hvisit]
    rfl
  | case6 seen name siblings hne hnew f hf after hafter hcalls r hr hvisit ihcalls ih =>
    have hf' : (formulas.without seen).find? name = some f := by rw [find?_without, if_neg hnew, hf]
    rw [List.cons_append, leadsTo_of_some hne hf', ← without_cons, ihcalls, hcalls,
      Bool.false_or, ih, hvisit]

theorem visit_iff (formulas : Registry Formula) (target : Text) (seen names : List Text) :
    (formulas.visit target seen names).1.1 = true ↔
      ∃ name ∈ names, ReflTransGen (formulas.without seen).Calls name target := by
  have hvisit := leadsTo_append formulas target seen names []
  rw [List.append_nil, leadsTo, Bool.or_false] at hvisit
  rw [← hvisit, leadsTo_iff]

/-- From a name on, with nothing visited before, the target is found just when the name is the
target or a chain of calls leads from it to the target, each of them a call of a registered
formula. -/
theorem leadsTo_iff_chain (formulas : Registry Formula) (name target : Text) :
    formulas.leadsTo target [name] = (formulas.visit target [] [name]).1.1 ∧
      (formulas.leadsTo target [name] = true ↔
        name = target ∨ TransGen formulas.Calls name target) := by
  have hreach : formulas.leadsTo target [name] = true ↔
      ReflTransGen formulas.Calls name target := by
    simpa using leadsTo_iff formulas target [name]
  constructor
  · rw [Bool.eq_iff_iff, hreach, visit_iff, without_nil]
    simp
  · rw [hreach, Relation.reflTransGen_iff_eq_or_transGen, eq_comm]

end Registry

end Abacus
