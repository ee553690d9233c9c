import Mathlib.Data.List.Basic
import Abacus.Name.Registry

/-! What is found under a name after an entry was put in or taken out. In a registry whose names
ascend the entries are exactly what can be found. -/

namespace Abacus

namespace Registry

variable {α : Type}

/-- The names ascend, so each of them stands there once. -/
def Ordered (r : Registry α) : Prop := r.entries.Pairwise fun a b => a.1 < b.1

theorem lt_of_not_lt {a b : Text} (hne : a ≠ b) (h : ¬ a < b) : b < a :=
  Decidable.byContradiction fun hba =>
    hne (List.le_antisymm (List.not_lt.mp hba) (List.not_lt.mp h))

theorem lookup_cons (name k : Text) (x : α) (rest : List (Text × α)) :
    List.lookup name ((k, x) :: rest) = if name = k then some x else List.lookup name rest := by
  rw [List.lookup_cons]
  by_cases h : name = k
  · simp [h]
  · rw [beq_eq_false_iff_ne.mpr h, if_neg h]

@[simp]
theorem find?_empty (name : Text) : (empty : Registry α).find? name = none := rfl

theorem ordered_empty : (empty : Registry α).Ordered := List.Pairwise.nil

theorem find?_insert (r : Registry α) (k name : Text) (x : α) :
    (r.insert k x).find? name = if name = k then some x else r.find? name := by
  obtain ⟨entries⟩ := r
  simp only [insert, find?]
  induction entries with
  | nil => simp only [insertEntry, lookup_cons, List.lookup_nil]
  | cons e rest ih =>
    obtain ⟨l, y⟩ := e
    simp only [insertEntry]
    split
    · next hk => simp only [lookup_cons, hk]; split <;> rfl
    · next hk =>
      split
      · simp only [lookup_cons]
      · simp only [lookup_cons, ih]
        by_cases hl : name = l
        · rw [if_pos hl, if_neg fun h => hk (h.symm.trans hl), if_pos hl]
        · simp only [if_neg hl]

theorem find?_erase (r : Registry α) (k name : Text) :
    (r.erase k).find? name = if name = k then none else r.find? name := by
  obtain ⟨entries⟩ := r
  simp only [erase, find?]
  induction entries with
  | nil => simp
  | cons e rest ih =>
    obtain ⟨l, y⟩ := e
    by_cases hl : l = k
    · have hf : ((l, y) :: rest).filter (fun e => e.1 != k) = rest.filter fun e => e.1 != k := by
        simp [hl]
      rw [hf, ih, lookup_cons, hl]
      split <;> rfl
    · have hf : ((l, y) :: rest).filter (fun e => e.1 != k) =
          (l, y) :: rest.filter fun e => e.1 != k := by simp [hl]
      rw [hf, lookup_cons, lookup_cons, ih]
      by_cases hn : name = l
      · rw [if_pos hn, if_neg fun h => hl (hn.symm.trans h), if_pos hn]
      · simp only [if_neg hn]

theorem erase_eq_self {r : Registry α} {name : Text} (h : r.find? name = none) :
    r.erase name = r := by
  obtain ⟨entries⟩ := r
  simp only [find?, erase, List.lookup_eq_none_iff] at h ⊢
  congr 1
  refine List.filter_eq_self.mpr fun e he => ?_
  simpa [bne, BEq.comm] using h e he

theorem mem_insertEntry {k : Text} {x : α} {e : Text × α} {entries : List (Text × α)}
    (h : e ∈ insertEntry k x entries) : e = (k, x) ∨ e ∈ entries := by
  induction entries with
  | nil => simpa [insertEntry] using h
  | cons f rest ih =>
    obtain ⟨l, y⟩ := f
    simp only [insertEntry] at h
    split at h
    · exact (List.mem_cons.mp h).imp_right fun hm => List.mem_cons_of_mem _ hm
    · split at h
      · exact List.mem_cons.mp h
      · rcases List.mem_cons.mp h with rfl | hm
        · exact .inr List.mem_cons_self
        · exact (ih hm).imp_right fun hm => List.mem_cons_of_mem _ hm

theorem Ordered.insert {r : Registry α} (h : r.Ordered) (k : Text) (x : α) :
    (r.insert k x).Ordered := by
  obtain ⟨entries⟩ := r
  simp only [Ordered, Registry.insert] at h ⊢
  induction entries with
  | nil => simp [insertEntry]
  | cons e rest ih =>
    obtain ⟨l, y⟩ := e
    have hp := List.pairwise_cons.mp h
    simp only [insertEntry]
    split
    · next hk => exact List.pairwise_cons.mpr ⟨fun f hf => hk ▸ hp.1 f hf, hp.2⟩
    · next hk =>
      split
      · next hlt =>
        refine List.pairwise_cons.mpr ⟨fun f hf => ?_, h⟩
        rcases List.mem_cons.mp hf with rfl | hf
        · exact hlt
        · exact List.lt_trans hlt (hp.1 f hf)
      · next hlt =>
        refine List.pairwise_cons.mpr ⟨fun f hf => ?_, ih hp.2⟩
        rcases mem_insertEntry hf with rfl | hf
        · exact lt_of_not_lt hk hlt
        · exact hp.1 f hf

theorem Ordered.erase {r : Registry α} (h : r.Ordered) (k : Text) : (r.erase k).Ordered :=
  h.filter _

theorem Ordered.mem_iff {r : Registry α} (h : r.Ordered) {k : Text} {x : α} :
    (k, x) ∈ r.entries ↔ r.find? k = some x := by
  obtain ⟨entries⟩ := r
  simp only [Ordered, find?] at h ⊢
  induction entries with
  | nil => simp
  | cons e rest ih =>
    obtain ⟨l, y⟩ := e
    have hp := List.pairwise_cons.mp h
    rw [lookup_cons, List.mem_cons, ih hp.2]
    by_cases hk : k = l
    · subst l
      have hno : List.lookup k rest ≠ some x :=
        fun hm => List.lt_irrefl k (hp.1 _ ((ih hp.2).mpr hm))
      simp [hno, eq_comm]
    · simp [hk]

end Registry

end Abacus
