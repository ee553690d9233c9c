import Mathlib
import Abacus.Proofs.Canonical.Adjacent
import Abacus.Proofs.Canonical.Scoped

/-! The rounds of tidying. A round that takes an empty group out leaves a text with fewer opening
parentheses, though it may be longer, and tidying begins again with it; so there are no more rounds
than there are opening parentheses. Within a round the signs collapse until no two of them do. -/

namespace Abacus

section Rounds

variable {v : Vocabulary} {t u w : Text}

/-- The text that tidying begins again with, if a round takes an empty group out. -/
def restart? (v : Vocabulary) (t : Text) : Option Text :=
  match settleSigns (lowercase (withoutBlanks t)) with
  | .error _ => none
  | .ok u => dropEmptyGroup? v [] u

theorem restart?_eq_some : restart? v t = some w ↔
    ∃ u, settleSigns (lowercase (withoutBlanks t)) = .ok u ∧ dropEmptyGroup? v [] u = some w := by
  rw [restart?]
  split
  · next e he => simp [he]
  · next u hu => simp [hu]

theorem count_lowercase_withoutBlanks (t : Text) :
    (lowercase (withoutBlanks t)).count '(' = t.count '(' := by
  rw [count_lowercase (by decide), withoutBlanks, List.count_filter (by decide)]

theorem count_restart? (h : restart? v t = some w) : w.count '(' < t.count '(' := by
  obtain ⟨u, hu, hw⟩ := restart?_eq_some.mp h
  calc w.count '(' < u.count '(' := count_dropEmptyGroup? hw
    _ = (lowercase (withoutBlanks t)).count '(' := count_settleSigns hu
    _ = t.count '(' := count_lowercase_withoutBlanks t

/-- The texts that tidying begins again with, in order. -/
def restarts (v : Vocabulary) (t : Text) : List Text :=
  match _again : restart? v t with
  | none => []
  | some w => w :: restarts v w
termination_by t.count '('
decreasing_by exact count_restart? _again

theorem canonical_of_restart? (h : restart? v t = some w) : ∀ c ∈ w, IsCanonical c := by
  obtain ⟨u, hu, hw⟩ := restart?_eq_some.mp h
  have hs := settleSigns_eq_ok hu
  have hupper : ∀ c ∈ u, c.isUpper = false := by
    rw [hs.result]
    exact dropPlus_forall (settled_forall (by decide) (lowercase_not_upper _))
  intro c hc
  have hmem := mem_of_dropEmptyGroup? hw c hc
  exact ⟨hs.allowed c hmem, hupper c hmem⟩

/-- A text that tidying begins again with is tidied like any other. -/
theorem tidy_of_restart? (h : restart? v t = some w) : tidy v w = tidy v t := by
  obtain ⟨u, hu, hw⟩ := restart?_eq_some.mp h
  have hsame := lowercase_withoutBlanks_eq_self (canonical_of_restart? h)
  rw [tidy, tidy, hsame, tidyFrom_eq v (lowercase (withoutBlanks t)), hu, ok_bind, hw]

theorem tidy_of_no_restart (h : restart? v t = none) :
    tidy v t = settleSigns (lowercase (withoutBlanks t)) >>= writeProducts v := by
  rw [tidy, tidyFrom_eq]
  cases hu : settleSigns (lowercase (withoutBlanks t)) with
  | error e => rfl
  | ok u =>
    simp only [restart?, hu] at h
    simp only [ok_bind, h]

theorem length_restarts_le (v : Vocabulary) (t : Text) : (restarts v t).length ≤ t.count '(' := by
  fun_induction restarts v t with
  | case1 => exact Nat.zero_le _
  | case2 t w h ih =>
    have hfewer := count_restart? h
    rw [List.length_cons]
    omega

theorem isChain_restarts (v : Vocabulary) (t : Text) :
    List.IsChain (fun u w => restart? v u = some w ∧ w.count '(' < u.count '(')
      (t :: restarts v t) := by
  fun_induction restarts v t with
  | case1 t => exact .singleton t
  | case2 t w h ih => exact .cons_cons ⟨h, count_restart? h⟩ ih

theorem tidy_of_restarts (v : Vocabulary) (t : Text) :
    ∀ u ∈ t :: restarts v t, tidy v u = tidy v t := by
  fun_induction restarts v t with
  | case1 t => simp
  | case2 t w h ih =>
    refine List.forall_mem_cons.mpr ⟨rfl, fun u hu => ?_⟩
    rw [ih u hu, tidy_of_restart? h]

theorem last_restart (v : Vocabulary) (t : Text) :
    ∀ u ∈ (t :: restarts v t).getLast?, restart? v u = none := by
  fun_induction restarts v t with
  | case1 t h => simpa using h
  | case2 t w h ih => rwa [List.getLast?_cons_cons]

end Rounds

section Collapsing

theorem collapseSigns_eq_iterate (t : Text) : ∃ n ≤ t.length, collapseSigns t = collapseOnce^[n] t ∧
    ∀ k < n, ∃ p ∈ collapsingPairs, hasPair p.1 p.2 (collapseOnce^[k] t) = true := by
  fun_induction collapseSigns t with
  | case1 t h ih =>
    obtain ⟨n, hn, hresult, hbefore⟩ := ih
    refine ⟨n + 1, by omega, by rw [hresult, Function.iterate_succ_apply], fun k hk => ?_⟩
    cases k with
    | zero => exact length_collapseOnce_lt_iff.mp h
    | succ k =>
      rw [Function.iterate_succ_apply]
      exact hbefore k (by omega)
  | case2 t h => exact ⟨0, Nat.zero_le _, rfl, fun k hk => absurd hk (Nat.not_lt_zero k)⟩

end Collapsing

/-- Tidying ends, whatever is typed and whatever the names mean. It begins again at most as often as
there are opening parentheses in what was typed, each time with fewer of them though perhaps with a
longer text, and the last of these texts is written out or refused. In every round the signs
collapse as long as there are two that do. -/
theorem tidy_rounds (v : Vocabulary) (t : Text) :
    (List.IsChain (fun u w => restart? v u = some w ∧ w.count '(' < u.count '(')
      (t :: restarts v t) ∧
      (restarts v t).length ≤ t.count '(' ∧
      ∀ u ∈ (t :: restarts v t).getLast?, restart? v u = none ∧
        tidy v t = settleSigns (lowercase (withoutBlanks u)) >>= writeProducts v) ∧
    (∃ u w, restart? .standard u = some w ∧ u.length < w.length) ∧
    ∀ u, (∀ p ∈ collapsingPairs, hasPair p.1 p.2 (collapseSigns u) = false) ∧
      ∃ n ≤ u.length, collapseSigns u = collapseOnce^[n] u ∧
        ∀ k < n, ∃ p ∈ collapsingPairs, hasPair p.1 p.2 (collapseOnce^[k] u) = true := by
  refine ⟨⟨isChain_restarts v t, length_restarts_le v t, fun u hu => ?_⟩, ?_, fun u => ?_⟩
  · have hlast := last_restart v t u hu
    rw [← tidy_of_restarts v t u (List.mem_of_getLast? hu)]
    exact ⟨hlast, tidy_of_no_restart hlast⟩
  · exact ⟨"2*.5*.5*.5()".toList, "2*0.5*0.5*0.5".toList, by with_unfolding_all rfl, by decide⟩
  · exact ⟨hasPair_collapseSigns u, collapseSigns_eq_iterate u⟩

end Abacus
