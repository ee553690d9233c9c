import Abacus.Proofs.Name.Registry
import Abacus.Session.Basic

/-! What a calculator relies on where it keeps its trees: what is found under a text was put there
under this text, and there are never more trees than there is room for. The store that forgets the
tree not used for longest keeps to this, and so does one that forgets everything at once. -/

namespace Abacus

open TreeStore

class LawfulTreeStore (σ : Type) [TreeStore σ] : Prop where
  find_ofCapacity (n : Nat) (t : Text) : (find (ofCapacity n : σ) t).1 = none
  find_find {c : σ} {t u : Text} {e : Expr} :
    (find (find c t).2 u).1 = some e → (find c u).1 = some e
  find_insert {c : σ} {t u : Text} {e x : Expr} :
    (find (insert c t e) u).1 = some x → u = t ∧ x = e ∨ (find c u).1 = some x
  find_clear (c : σ) (t : Text) : (find (clear c) t).1 = none
  size_le (c : σ) : size c ≤ capacity c
  capacity_ofCapacity (n : Nat) : capacity (ofCapacity n : σ) = n
  capacity_find (c : σ) (t : Text) : capacity (find c t).2 = capacity c
  capacity_insert (c : σ) (t : Text) (e : Expr) : capacity (insert c t e) = capacity c
  capacity_clear (c : σ) : capacity (clear c) = capacity c

namespace Cache

variable {c : Cache} {t u : Text} {e x : Expr}

theorem find_fst (c : Cache) (t : Text) : (c.find t).1 = c.entries.lookup t := by
  unfold find
  split
  · next h => exact h.symm
  · next h => exact h.symm

/-- What stands under a text in a part of some entries stands there in all of them if the part
begins like them. -/
theorem lookup_take {entries : List (Text × Expr)} {n : Nat}
    (h : (entries.take n).lookup t = some e) : entries.lookup t = some e := by
  induction entries generalizing n with
  | nil => simp at h
  | cons entry rest ih =>
    obtain ⟨k, y⟩ := entry
    cases n with
    | zero => simp at h
    | succ n =>
      rw [List.take_succ_cons, Registry.lookup_cons] at h
      rw [Registry.lookup_cons]
      split
      · next hk => simpa [hk] using h
      · next hk =>
        rw [if_neg hk] at h
        exact ih h

theorem lookup_insert (h : (c.insert t e).entries.lookup u = some x) :
    u = t ∧ x = e ∨ c.entries.lookup u = some x := by
  have hall := lookup_take h
  rw [Registry.lookup_cons] at hall
  split at hall
  · next hu => exact .inl ⟨hu, (Option.some.inj hall).symm⟩
  · next hu =>
    have herase := Registry.find?_erase ⟨c.entries⟩ t u
    rw [if_neg hu] at herase
    exact .inr (herase.symm.trans hall)

theorem lookup_find (h : (c.find t).2.entries.lookup u = some x) : c.entries.lookup u = some x := by
  unfold find at h
  split at h
  · next e he =>
    rcases lookup_insert h with ⟨rfl, rfl⟩ | hold
    · exact he
    · exact hold
  · exact h

theorem capacity_find (c : Cache) (t : Text) : (c.find t).2.capacity = c.capacity := by
  unfold find
  split <;> rfl

instance : LawfulTreeStore Cache where
  find_ofCapacity n t := find_fst (.ofCapacity n) t
  find_find {c t u e} h :=
    (find_fst c u).trans (lookup_find ((find_fst (c.find t).2 u).symm.trans h))
  find_insert {c t u e x} h := by
    rcases lookup_insert ((find_fst (c.insert t e) u).symm.trans h) with hnew | hold
    · exact .inl hnew
    · exact .inr ((find_fst c u).trans hold)
  find_clear c t := find_fst c.clear t
  size_le c := c.fits
  capacity_ofCapacity _ := rfl
  capacity_find c t := capacity_find c t
  capacity_insert _ _ _ := rfl
  capacity_clear _ := rfl

end Cache

/-- The store of a calculator that keeps no tree. -/
structure Forgetful where
  capacity : Nat

namespace Forgetful

instance : TreeStore Forgetful where
  ofCapacity n := ⟨n⟩
  capacity := capacity
  size _ := 0
  find c _ := (none, c)
  insert c _ _ := c
  clear c := c

instance : LawfulTreeStore Forgetful where
  find_ofCapacity _ _ := rfl
  find_find h := h
  find_insert h := .inr h
  find_clear _ _ := rfl
  size_le _ := Nat.zero_le _
  capacity_ofCapacity _ := rfl
  capacity_find _ _ := rfl
  capacity_insert _ _ _ := rfl
  capacity_clear _ := rfl

end Forgetful

end Abacus
