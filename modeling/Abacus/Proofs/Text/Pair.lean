import Mathlib.Data.List.Chain
import Abacus.Text.Basic

/-! Replacing pairs one at a time, and texts without a pair as chains. -/

namespace Abacus

/-- What every single replacement keeps is kept by all of them together. -/
theorem replacePair_induction {P : Text → Prop} {a b : Char} {r : Text}
    (step : ∀ left right, P (left ++ a :: b :: right) → P (left ++ (r ++ right)))
    {t : Text} (h : P t) : P (replacePair a b r t) := by
  suffices hall : ∀ left, P (left ++ t) → P (left ++ replacePair a b r t) from hall [] h
  clear h
  fun_induction replacePair a b r t with
  | case1 x y rest hxy ih =>
    intro left hleft
    obtain ⟨rfl, rfl⟩ := hxy
    rw [← List.append_assoc]
    exact ih _ (by simpa using step left rest hleft)
  | case2 x y rest hxy ih =>
    intro left hleft
    have hnext := ih (left ++ [x]) (by simpa using hleft)
    simpa using hnext
  | case3 t => exact fun _ hleft => hleft

/-- What no single replacement brings about is not brought about by all of them together. -/
theorem of_replacePair {P : Text → Prop} {a b : Char} {r : Text}
    (step : ∀ left right, P (left ++ (r ++ right)) → P (left ++ a :: b :: right)) {t : Text}
    (h : P (replacePair a b r t)) : P t := by
  by_contra hnot
  exact replacePair_induction (P := fun t => ¬ P t)
    (fun left right hn hp => hn (step left right hp)) hnot h

theorem replacePair_cons {a b z : Char} {r : Text} (hz : z ≠ a) (t : Text) :
    replacePair a b r (z :: t) = z :: replacePair a b r t := by
  cases t with
  | nil => rfl
  | cons y rest => rw [replacePair_cons_cons, if_neg fun h => hz h.1]

theorem replacePair_split {a b z : Char} {r : Text} (ha : z ≠ a) (hb : z ≠ b) (left right : Text) :
    replacePair a b r (left ++ z :: right) =
      replacePair a b r left ++ z :: replacePair a b r right := by
  fun_induction replacePair a b r left with
  | case1 x y rest hxy ih =>
    rw [List.cons_append, List.cons_append, replacePair_cons_cons, if_pos hxy, ih,
      List.append_assoc]
  | case2 x y rest hxy ih =>
    rw [List.cons_append, List.cons_append, replacePair_cons_cons, if_neg hxy, ← List.cons_append,
      ih, List.cons_append]
  | case3 t ht =>
    cases t with
    | nil => exact replacePair_cons ha right
    | cons x t =>
      cases t with
      | nil =>
        rw [List.cons_append, List.nil_append, replacePair_cons_cons, if_neg fun h => hb h.2,
          replacePair_cons ha]
        rfl
      | cons y rest => exact absurd rfl (ht x y rest)

theorem replacePair_eq_self {a b : Char} {r t : Text} (hr : r.length < 2)
    (h : t.length ≤ (replacePair a b r t).length) : replacePair a b r t = t := by
  fun_induction replacePair a b r t with
  | case1 x y rest hxy ih =>
    have hle := length_replacePair_le a b r (by omega) rest
    simp only [List.length_append, List.length_cons] at h
    omega
  | case2 x y rest hxy ih => rw [ih (by simpa using h)]
  | case3 t => rfl

theorem hasPair_eq_false_iff {a b : Char} {t : Text} :
    hasPair a b t = false ↔ List.IsChain (fun x y => ¬ (x = a ∧ y = b)) t := by
  fun_induction hasPair a b t with
  | case1 x y rest ih => simp [ih]
  | case2 t ht =>
    cases t with
    | nil => simp
    | cons x t =>
      cases t with
      | nil => simp
      | cons y rest => exact absurd rfl (ht x y rest)

end Abacus
