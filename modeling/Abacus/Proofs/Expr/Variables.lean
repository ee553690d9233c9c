import Abacus.Expr.Reading

/-! The variables of a tree: the names that stand for numbers in it, free or bound, and the indices
of its series. -/

namespace Abacus

namespace Expr

mutual

/-- The variables at each of their places, an index before the body of its series. -/
def variableNames : Expr → List Text
  | number _ | constant _ => []
  | identifier name => [name]
  | negate operand | factorial operand => operand.variableNames
  | binary _ left right => left.variableNames ++ right.variableNames
  | function _ args | call _ args => variableNamesAll args
  | series _ index args => index :: variableNamesAll args

def variableNamesAll : List Expr → List Text
  | [] => []
  | e :: rest => e.variableNames ++ variableNamesAll rest

end

theorem mem_variableNamesAll {es : List Expr} {name : Text} :
    name ∈ variableNamesAll es ↔ ∃ e ∈ es, name ∈ e.variableNames := by
  induction es with
  | nil => simp [variableNamesAll]
  | cons e rest ih => simp [variableNamesAll, ih]

theorem mem_freeVariables {e : Expr} {name : Text} :
    name ∈ e.freeVariables ↔ name ∈ e.freeOccurrences [] := by
  simp [freeVariables]

mutual

theorem freeOccurrences_subset :
    ∀ (e : Expr) (bound : List Text), e.freeOccurrences bound ⊆ e.variableNames
  | number _, _ | constant _, _ => by simp [freeOccurrences]
  | identifier name, bound => by
    by_cases h : name ∈ bound <;> simp [freeOccurrences, variableNames, h]
  | negate operand, bound | factorial operand, bound => by
    simpa only [freeOccurrences, variableNames] using freeOccurrences_subset operand bound
  | binary _ left right, bound => by
    simp only [freeOccurrences, variableNames]
    exact List.append_subset.mpr
      ⟨List.Subset.trans (freeOccurrences_subset left bound) (List.subset_append_left ..),
        List.Subset.trans (freeOccurrences_subset right bound) (List.subset_append_right ..)⟩
  | function _ args, bound | call _ args, bound => by
    simpa only [freeOccurrences, variableNames] using freeOccurrencesAll_subset args bound
  | series _ _ [], _ => by simp [freeOccurrences]
  | series _ index (body :: limits), bound => by
    simp only [freeOccurrences, variableNames, variableNamesAll]
    refine List.append_subset.mpr ⟨fun name h => ?_, fun name h => ?_⟩
    · exact List.mem_cons_of_mem
        _ (List.mem_append_left _ (freeOccurrences_subset body (index :: bound) h))
    · exact List.mem_cons_of_mem
        _ (List.mem_append_right _ (freeOccurrencesAll_subset limits bound h))

theorem freeOccurrencesAll_subset :
    ∀ (es : List Expr) (bound : List Text), freeOccurrencesAll bound es ⊆ variableNamesAll es
  | [], _ => by simp [freeOccurrencesAll]
  | e :: rest, bound => by
    simp only [freeOccurrencesAll, variableNamesAll]
    exact List.append_subset.mpr
      ⟨List.Subset.trans (freeOccurrences_subset e bound) (List.subset_append_left ..),
        List.Subset.trans (freeOccurrencesAll_subset rest bound) (List.subset_append_right ..)⟩

end

theorem variableNames_of_ofCall {v : Vocabulary} {name : Text} {args : List Expr} {e : Expr}
    (h : ofCall v name args = .ok e) : e.variableNames ⊆ variableNamesAll args := by
  unfold ofCall at h
  split at h
  · next c _ =>
    unfold ofCallable at h
    split at h
    · split at h
      · cases h
        simp [variableNames]
      · unfold ofSeries at h
        split at h <;> cases h
        next body index limits _ =>
        intro found hfound
        simp only [variableNames, variableNamesAll, List.mem_cons, List.mem_append,
          List.not_mem_nil, or_false] at hfound ⊢
        rcases hfound with hindex | hbody | hlimits
        · exact .inr (.inl hindex)
        · exact .inl hbody
        · exact .inr (.inr hlimits)
    · cases h
  · split at h
    · split at h <;> cases h
      simp [variableNames]
    · cases h

theorem variableNames_of_literal? {t : Text} {e : Expr} (h : literal? t = some e) :
    e.variableNames = [] := by
  unfold literal? at h
  split at h
  · obtain ⟨d, -, rfl⟩ := Option.map_eq_some_iff.mp h
    split <;> rfl
  · obtain ⟨d, -, rfl⟩ := Option.map_eq_some_iff.mp h
    rfl

end Expr

end Abacus
