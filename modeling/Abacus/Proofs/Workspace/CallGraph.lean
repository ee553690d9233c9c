import Mathlib.Logic.Relation
import Abacus.Name.Registry
import Abacus.Proofs.Name.Registry

/-! The graph of calls of a registry. The search through pending names finds exactly what can be
reached by calls, and putting in a formula closes a circle just when one of the formulas that it
calls leads back to its name. -/

namespace Abacus

namespace Registry

open Relation (ReflTransGen TransGen)

variable {formulas : Registry Formula} {name target : Text} {f : Formula}

/-- The formula registered as `a` calls `b`, which need not be registered. -/
def Calls (formulas : Registry Formula) (a b : Text) : Prop :=
  ∃ f, formulas.find? a = some f ∧ b ∈ f.calls

/-- No formula calls itself, directly or through others. -/
def Acyclic (formulas : Registry Formula) : Prop := ∀ a, ¬ TransGen formulas.Calls a a

theorem calls_insert {a b : Text} :
    (formulas.insert name f).Calls a b ↔
      a = name ∧ b ∈ f.calls ∨ a ≠ name ∧ formulas.Calls a b := by
  simp only [Calls, find?_insert]
  by_cases h : a = name <;> simp [h]

theorem calls_erase {a b : Text} :
    (formulas.erase name).Calls a b ↔ a ≠ name ∧ formulas.Calls a b := by
  simp only [Calls, find?_erase]
  by_cases h : a = name <;> simp [h]

/-- A chain of calls either avoids a name or goes on from its last stay there. -/
theorem reach_avoiding {a : Text} (hne : name ≠ target) (h : ReflTransGen formulas.Calls a target) :
    ReflTransGen (formulas.erase name).Calls a target ∨
      ∃ b, formulas.Calls name b ∧ ReflTransGen (formulas.erase name).Calls b target := by
  induction h using ReflTransGen.head_induction_on with
  | refl => exact .inl .refl
  | @head a b hab _ ih =>
    rcases ih with ih | ih
    · by_cases ha : a = name
      · subst ha
        exact .inr ⟨b, hab, ih⟩
      · exact .inl (.head (calls_erase.mpr ⟨ha, hab⟩) ih)
    · exact .inr ih

theorem leadsTo_iff (formulas : Registry Formula) (target : Text) (pending : List Text) :
    formulas.leadsTo target pending = true ↔ ∃ name ∈ pending,
      ReflTransGen formulas.Calls name target := by
  fun_induction leadsTo formulas target pending with
  | case1 => simp
  | case2 formulas pending => exact ⟨fun _ => ⟨target, List.mem_cons_self, .refl⟩, fun _ => rfl⟩
  | case3 formulas name pending hne hnone ih =>
    have hno : ¬ ReflTransGen formulas.Calls name target := by
      intro h
      rcases h.cases_head with he | ⟨b, ⟨f, hf, -⟩, -⟩
      · exact hne he
      · simp [hnone] at hf
    simp [ih, hno]
  | case4 formulas name pending hne f hf ih =>
    rw [ih]
    have hmono {a : Text} (h : ReflTransGen (formulas.erase name).Calls a target) : ReflTransGen
        formulas.Calls a target := ReflTransGen.mono (fun _ _ hc => (calls_erase.mp hc).2) _ _ h
    constructor
    · rintro ⟨a, ha, h⟩
      rcases List.mem_append.mp ha with ha | ha
      · exact ⟨name, List.mem_cons_self, .head ⟨f, hf, ha⟩ (hmono h)⟩
      · exact ⟨a, List.mem_cons_of_mem _ ha, hmono h⟩
    · rintro ⟨a, ha, h⟩
      rcases reach_avoiding hne h with h' | ⟨b, ⟨g, hg, hb⟩, h'⟩
      · rcases List.mem_cons.mp ha with rfl | ha
        · -- the first call from the name itself is already one of the new pending names
          rcases h.cases_head with he | ⟨b, ⟨g, hg, hb⟩, -⟩
          · exact absurd he hne
          · rcases h'.cases_head with he | ⟨c, hc, -⟩
            · exact absurd he hne
            · exact absurd rfl (calls_erase.mp hc).1
        · exact ⟨a, List.mem_append_right _ ha, h'⟩
      · rw [hf] at hg
        cases hg
        exact ⟨b, List.mem_append_left _ hb, h'⟩

theorem acyclic_empty : (empty : Registry Formula).Acyclic := by
  intro a h
  obtain ⟨b, ⟨f, hf, -⟩, -⟩ := TransGen.head'_iff.mp h
  simp at hf

theorem Acyclic.erase (h : formulas.Acyclic) (name : Text) : (formulas.erase name).Acyclic :=
  fun a ha => h a (TransGen.mono (fun _ _ hc => (calls_erase.mp hc).2) _ _ ha)

/-- Up to its first arrival at the name, a chain of calls uses no call of the formula put in
there. -/
theorem reach_of_insert {a : Text} (h : ReflTransGen (formulas.insert name f).Calls a name) :
    ReflTransGen formulas.Calls a name := by
  induction h using ReflTransGen.head_induction_on with
  | refl => exact .refl
  | @head a b hab _ ih =>
    rcases calls_insert.mp hab with ⟨rfl, -⟩ | ⟨-, hc⟩
    · exact .refl
    · exact .head hc ih

theorem transGen_insert {a b : Text} (h : TransGen (formulas.insert name f).Calls a b) :
    TransGen formulas.Calls a b ∨
      ReflTransGen (formulas.insert name f).Calls a name ∧
        ∃ c ∈ f.calls, ReflTransGen (formulas.insert name f).Calls c b := by
  induction h with
  | single hab =>
    rcases calls_insert.mp hab with ⟨rfl, hf⟩ | ⟨-, hc⟩
    · exact .inr ⟨.refl, _, hf, .refl⟩
    · exact .inl (.single hc)
  | tail h hbc ih =>
    rcases ih with ih | ⟨ha, c, hc, hcb⟩
    · rcases calls_insert.mp hbc with ⟨rfl, hf⟩ | ⟨-, hc⟩
      · exact .inr ⟨h.to_reflTransGen, _, hf, .refl⟩
      · exact .inl (.tail ih hc)
    · exact .inr ⟨ha, c, hc, hcb.tail hbc⟩

theorem acyclic_insert_iff (h : formulas.Acyclic) :
    (formulas.insert name f).Acyclic ↔ ∀ c ∈ f.calls, ¬ ReflTransGen formulas.Calls c name := by
  constructor
  · intro hnew c hc hreach
    have hback : ReflTransGen (formulas.insert name f).Calls c name := by
      clear hc
      induction hreach using ReflTransGen.head_induction_on with
      | refl => exact .refl
      | @head a b hab _ ih =>
        by_cases ha : a = name
        · subst ha
          exact .refl
        · exact .head (calls_insert.mpr (.inr ⟨ha, hab⟩)) ih
    exact hnew name (.head' (calls_insert.mpr (.inl ⟨rfl, hc⟩)) hback)
  · intro hno a ha
    rcases transGen_insert ha with ha | ⟨han, c, hc, hca⟩
    · exact h a ha
    · exact hno c hc (reach_of_insert (hca.trans han))

/-- The formulas that a name leads to are in this part of the registry. -/
def Covers (formulas part : Registry Formula) (name : Text) : Prop :=
  ∀ a, ReflTransGen formulas.Calls name a → part.find? a = formulas.find? a

theorem Covers.erase {part : Registry Formula} (h : Covers formulas part name)
    (hac : formulas.Acyclic) (hcall : formulas.Calls name target) :
    Covers formulas (part.erase name) target := by
  intro a ha
  have hne : a ≠ name := by
    rintro rfl
    exact hac a (.head' hcall ha)
  rw [find?_erase, if_neg hne, h a (.head hcall ha)]

/-- What goes over to a name from the names that its formula calls, which may be looked for where
the name itself has been left out, holds of all registered names. -/
theorem call_induction {P : Registry Formula → Text → Prop} (hac : formulas.Acyclic)
    (hreg : ∀ {a b}, formulas.Calls a b → ∃ f, formulas.find? b = some f)
    (step : ∀ part name f, formulas.find? name = some f → part.find? name = some f →
      (∀ c ∈ f.calls, P (part.erase name) c) → P part name)
    {name : Text} {f : Formula} (hf : formulas.find? name = some f) : P formulas name := by
  suffices hpart : ∀ n part name f, part.entries.length = n → Covers formulas part name →
    formulas.find? name = some f → P part name from hpart _ formulas name f rfl (fun _ _ => rfl) hf
  intro n
  induction n using Nat.strongRecOn with
  | _ n ih =>
    rintro part name f rfl hcov hf
    have hpart : part.find? name = some f := (hcov name .refl).trans hf
    refine step part name f hf hpart fun c hc => ?_
    have hcall : formulas.Calls name c := ⟨f, hf, hc⟩
    obtain ⟨g, hg⟩ := hreg hcall
    exact ih _ (length_erase_lt hpart) (part.erase name) c g rfl (hcov.erase hac hcall) hg

theorem caller?_eq_none_iff (h : formulas.Ordered) :
    formulas.caller? name = none ↔ ∀ a, a ≠ name → ¬ formulas.Calls a name := by
  simp only [caller?, Option.map_eq_none_iff, List.find?_eq_none, Calls]
  constructor
  · rintro hno a ha ⟨g, hg, hc⟩
    exact hno (a, g) (h.mem_iff.mpr hg) (by simpa [ha] using hc)
  · rintro hno ⟨a, g⟩ hm hcall
    simp only [Bool.and_eq_true, bne_iff_ne, List.contains_iff_mem] at hcall
    exact hno a hcall.1 ⟨g, h.mem_iff.mp hm, hcall.2⟩

end Registry

end Abacus
