import Mathlib
import Abacus.Number.Basic
import Abacus.Proofs.Number.Nearest

/-! Whatever was asked for before, a factorial is the number nearest to the exact one: the product
that the table carries on is always that of the last entry. -/

namespace Abacus

namespace FactorialTable

/-- There is an entry for every number up to the one whose exact factorial is carried on. -/
structure Exact (t : FactorialTable) : Prop where
  started : 0 < t.values.size
  bounded : t.values.size ≤ limit + 1
  last : t.last = (t.values.size - 1).factorial
  entries : ∀ i (h : i < t.values.size), t.values[i] = .ofNat i.factorial

variable {t : FactorialTable} {n : ℕ}

theorem exact_start : start.Exact where
  started := by decide
  bounded := by decide
  last := rfl
  entries i h := by
    obtain rfl : i = 0 := Nat.lt_one_iff.mp h
    rfl

theorem Exact.grow (h : t.Exact) (hsize : t.values.size ≤ limit) : t.grow.Exact := by
  have hlast : t.last * t.values.size = t.values.size.factorial := by
    rw [h.last, mul_comm]
    exact Nat.mul_factorial_pred h.started.ne'
  refine ⟨?_, ?_, ?_, fun i hi => ?_⟩
  · simp [FactorialTable.grow]
  · simpa [FactorialTable.grow] using hsize
  · simpa [FactorialTable.grow] using hlast
  · simp only [FactorialTable.grow, Array.size_push, Array.getElem_push] at hi ⊢
    split
    · next hold => exact h.entries i hold
    · obtain rfl : i = t.values.size := by omega
      rw [hlast]

theorem Exact.upTo (h : t.Exact) (hn : n ≤ limit) :
    (t.upTo n).Exact ∧ n < (t.upTo n).values.size := by
  fun_induction FactorialTable.upTo t n with
  | case1 t hsize ih => exact ih (h.grow (hsize.trans hn))
  | case2 t hsize => exact ⟨h, not_le.mp hsize⟩

/-- An answer is what the table would hold for the number. -/
theorem Exact.lookup (h : t.Exact) (n : ℕ) :
    (t.lookup n).1 = (if limit < n then 1 / 0 else .ofNat n.factorial) ∧ (t.lookup n).2.Exact := by
  unfold FactorialTable.lookup
  split
  · exact ⟨rfl, h⟩
  · next hn =>
    obtain ⟨hexact, hsize⟩ := h.upTo (not_lt.mp hn)
    refine ⟨?_, hexact⟩
    dsimp only
    rw [Array.getElem?_eq_getElem hsize, Option.getD_some, hexact.entries n hsize]

/-- The answers to requests one after the other, and the table afterwards. -/
def lookupAll (t : FactorialTable) : List ℕ → List Float × FactorialTable
  | [] => ([], t)
  | n :: requests =>
    ((t.lookup n).1 :: ((t.lookup n).2.lookupAll requests).1, ((t.lookup n).2.lookupAll requests).2)

end FactorialTable

open FactorialTable

theorem factorial_eq (n : ℕ) : factorial n = if limit < n then 1 / 0 else .ofNat n.factorial :=
  ((exact_start.upTo le_rfl).1.lookup n).1

theorem factorial_lt {n : ℕ} (h : n ≤ limit) : n.factorial < 2 ^ 1023 :=
  (Nat.factorial_le h).trans_lt (by decide +kernel)

theorem FactorialTable.Exact.lookupAll {t : FactorialTable} (h : t.Exact) (requests : List ℕ) :
    (t.lookupAll requests).1 = requests.map factorial ∧ (t.lookupAll requests).2.Exact := by
  induction requests generalizing t with
  | nil => exact ⟨rfl, h⟩
  | cons n requests ih =>
    obtain ⟨hanswer, hafter⟩ := h.lookup n
    obtain ⟨hanswers, hexact⟩ := ih hafter
    refine ⟨?_, hexact⟩
    rw [FactorialTable.lookupAll, List.map_cons, hanswers, hanswer, factorial_eq]

/-- The answers do not depend on the requests before: up to 170 each is the number nearest to the
exact factorial, beyond that it is infinite. After any requests the table holds the number nearest
to each factorial, and the exact last one. -/
theorem lookupAll_start (requests : List ℕ) :
    (start.lookupAll requests).1 = requests.map factorial ∧
      (∀ n, (n ≤ 170 → IsNearest (factorial n) n.factorial) ∧ (170 < n → factorial n = 1 / 0)) ∧
      let t := (start.lookupAll requests).2
      0 < t.values.size ∧ t.last = (t.values.size - 1).factorial ∧
        ∀ i (h : i < t.values.size), IsNearest t.values[i] i.factorial := by
  obtain ⟨hanswers, hexact⟩ := exact_start.lookupAll requests
  refine ⟨hanswers, fun n => ⟨fun hn => ?_, fun hn => ?_⟩, hexact.started, hexact.last,
    fun i hi => ?_⟩
  · rw [factorial_eq, if_neg (show ¬ limit < n from not_lt.mpr hn)]
    exact isNearest_ofNat n.factorial_pos (factorial_lt hn)
  · rw [factorial_eq, if_pos (show limit < n from hn)]
  · have hbound := hexact.bounded
    rw [hexact.entries i hi]
    exact isNearest_ofNat i.factorial_pos (factorial_lt (by omega))

end Abacus
