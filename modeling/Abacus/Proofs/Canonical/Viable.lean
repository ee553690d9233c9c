import Abacus.Proofs.Canonical.Regroup

/-! A factorial with nothing before it, and a group that ends with another sign, cannot be mended by
grouping: a text whose regrouped form has none of these had none before. -/

namespace Abacus

/-- A factorial comes after an operand or a factorial, and a group ends with one of these or at
once. -/
structure Viable (a b : Char) : Prop where
  factorial : b = '!' → a = ')' ∨ a = '!' ∨ isOperandCharacter a = true
  close : b = ')' → a = '(' ∨ a = ')' ∨ a = '!' ∨ isOperandCharacter a = true

theorem viable_of_ne {a b : Char} (hf : b ≠ '!') (hc : b ≠ ')') : Viable a b :=
  ⟨fun h => absurd h hf, fun h => absurd h hc⟩

theorem viable_close (b : Char) : Viable ')' b := ⟨fun _ => .inl rfl, fun _ => .inr (.inl rfl)⟩

theorem viable_factorial (b : Char) : Viable '!' b :=
  ⟨fun _ => .inr (.inl rfl), fun _ => .inr (.inr (.inl rfl))⟩

theorem viable_operand {a : Char} (h : isOperandCharacter a = true) (b : Char) : Viable a b :=
  ⟨fun _ => .inr (.inr h), fun _ => .inr (.inr (.inr h))⟩

theorem Viable.of_close {a : Char} (h : Viable a ')') (hne : a ≠ '(') (b : Char) : Viable a b := by
  rcases h.close rfl with rfl | rfl | rfl | hop
  · exact absurd rfl hne
  · exact viable_close b
  · exact viable_factorial b
  · exact viable_operand hop b

namespace Rules

def viable : Rules := following Viable

end Rules

section

variable {p q : Char} {opened : Bool} {held items rest g : List Item}

theorem Laid.ungroup (h : Laid .viable p (.group g :: rest) q) (hne : g ≠ []) :
    ∃ q', Laid .viable p (g ++ rest) q' ∧ (Viable q ')' → Viable q' ')') := by
  cases h with
  | @group _ m _ _ _ _ _ hinner hend h =>
    have hm : m ≠ '(' := by
      rcases hinner.ending_eq hne with rfl | hs
      · decide
      · exact ne_open_of_sign hs
    obtain ⟨m', hg, hm'⟩ := hinner.restart p fun c hc hv => by
      refine viable_of_ne ?_ hc
      rintro rfl
      rcases hv.factorial rfl with h | h | h <;> exact absurd h (by decide)
    rw [hm' hne] at hg
    obtain ⟨q', hrest, hq'⟩ := h.restart m fun c _ _ => hend.of_close hm c
    refine ⟨q', hg.append hrest, fun hq => ?_⟩
    by_cases he : rest = []
    · subst he
      cases hrest
      exact hend
    · rwa [hq' he]

theorem viable_of_enfoldFactorials (h : Laid .viable p (enfoldFactorials opened held items) q) :
    ∃ q', Laid .viable p (held ++ items) q' ∧ (Viable q ')' → Viable q' ')') := by
  fun_induction enfoldFactorials opened held items generalizing p q with
  | case1 opened held => exact ⟨q, by simpa using h, id⟩
  | case2 opened held c rest hc ih =>
    obtain ⟨m, hm, hmq⟩ := ih h
    obtain ⟨q', hq', hqm⟩ := Laid.ungroup (g := held ++ [.sign c]) hm (by simp)
    exact ⟨q', by simpa using hq', fun hq => hqm (hmq hq)⟩
  | case3 opened held c rest hc ih =>
    obtain ⟨m, hheld, hrest⟩ := h.exists_of_append
    cases hrest with
    | sign hs hf hrest =>
      obtain ⟨q', hq', hqq⟩ := ih hrest
      exact ⟨q', hheld.append (.sign hs hf hq'), hqq⟩
  | case4 opened held x rest hx ih =>
    obtain ⟨q', hq', hqq⟩ := ih h
    exact ⟨q', by simpa using hq', hqq⟩

theorem viable_of_enfoldPowers (h : Laid .viable p (enfoldPowers opened held items) q) :
    ∃ q', Laid .viable p (held ++ items) q' ∧ (Viable q ')' → Viable q' ')') := by
  fun_induction enfoldPowers opened held items generalizing p q with
  | case1 opened held => exact ⟨q, by simpa using h, id⟩
  | case2 opened held c rest hc ih =>
    obtain ⟨m, hm, hmq⟩ := ih h
    obtain ⟨q', hq', hqm⟩ :=
      Laid.ungroup (g := held ++ .sign c :: (exponentItems rest).1) hm (by simp)
    refine ⟨q', ?_, fun hq => hqm (hmq hq)⟩
    simpa [exponentItems_append] using hq'
  | case3 opened held c rest hc ih =>
    obtain ⟨m, hheld, hrest⟩ := h.exists_of_append
    cases hrest with
    | sign hs hf hrest =>
      obtain ⟨q', hq', hqq⟩ := ih hrest
      exact ⟨q', hheld.append (.sign hs hf hq'), hqq⟩
  | case4 opened held x rest hx ih =>
    obtain ⟨q', hq', hqq⟩ := ih h
    exact ⟨q', by simpa using hq', hqq⟩

theorem viable_of_enfoldNegatives {before : Option Char}
    (h : Laid .viable p (enfoldNegatives before items) q) :
    ∃ q', Laid .viable p items q' ∧ (Viable q ')' → Viable q' ')') := by
  fun_induction enfoldNegatives before items generalizing p q with
  | case1 before => exact ⟨q, h, id⟩
  | case2 before c rest hc ih =>
    obtain ⟨m, -, hm⟩ := h.exists_of_append
    obtain ⟨q₁, hq₁, hqq₁⟩ := hm.ungroup (by simp)
    cases hq₁ with
    | sign hs _ hterm =>
      obtain ⟨k, hk, hrest⟩ := hterm.exists_of_append
      obtain ⟨q₂, hq₂, hqq₂⟩ := ih hrest
      refine ⟨q₂, ?_, fun hq => hqq₂ (hqq₁ hq)⟩
      have happend := hk.append hq₂
      rw [termItems_append] at happend
      exact .sign hs (by rw [hc.1]; exact viable_of_ne (by decide) (by decide)) happend
  | case3 before c rest hc ih =>
    cases h with
    | sign hs hf hrest =>
      obtain ⟨q', hq', hqq⟩ := ih hrest
      exact ⟨q', .sign hs hf hq', hqq⟩
  | case4 before x rest hx ih =>
    cases h with
    | sign hs hf hrest => exact absurd rfl (hx _)
    | run hf ht hrest =>
      obtain ⟨q', hq', hqq⟩ := ih hrest
      exact ⟨q', .run hf ht hq', hqq⟩
    | group hf hg hinner hend hrest =>
      obtain ⟨q', hq', hqq⟩ := ih hrest
      exact ⟨q', .group hf hg hinner hend hq', hqq⟩
    | call hf hc hinner hend hrest =>
      obtain ⟨q', hq', hqq⟩ := ih hrest
      exact ⟨q', .call hf hc hinner hend hq', hqq⟩

/-- What is viable after a change in every level was viable before it. -/
theorem viable_of_deep {f : List Item → List Item} (hf : ∀ g, Level .viable (f g) → Level .viable g)
    {p₀ q₀ : Char} (hitems : Laid .loose p₀ items q₀) (h : Laid .viable p (deep f items) q) :
    Laid .viable p items q := by
  induction hitems generalizing p q with
  | nil => simpa using h
  | sign hs _ _ ih =>
    rw [deep_sign] at h
    cases h with
    | sign _ hfol hrest => exact .sign hs hfol (ih hrest)
  | run _ ht _ ih =>
    rw [deep_run] at h
    cases h with
    | run hfol _ hrest => exact .run hfol ht (ih hrest)
  | group _ _ _ _ _ ihinner ih =>
    rw [deep_group] at h
    cases h with
    | group hfol hg hinner hend hrest =>
      obtain ⟨m, hm, hmend⟩ := hf _ ⟨_, hinner, hend⟩
      exact .group hfol trivial (ihinner hm) hmend (ih hrest)
  | call _ hc _ _ _ ihinner ih =>
    rw [deep_call] at h
    cases h with
    | call hfol _ hinner hend hrest =>
      obtain ⟨m, hm, hmend⟩ := hf _ ⟨_, hinner, hend⟩
      exact .call hfol hc (ihinner hm) hmend (ih hrest)

section

variable (hitems : Loose items)
include hitems

theorem viable_of_apartFactorials (h : Level .viable (apartFactorials items)) :
    Level .viable items := by
  have hstep {opened : Bool} {g : List Item} (hg : Level .viable (enfoldFactorials opened [] g)) :
      Level .viable g := by
    obtain ⟨q, hq, hend⟩ := hg
    obtain ⟨q', hq', hqq⟩ := viable_of_enfoldFactorials hq
    exact ⟨q', by simpa using hq', hqq hend⟩
  obtain ⟨q, hq, hend⟩ := hstep h
  obtain ⟨q₀, hq₀⟩ := hitems
  exact ⟨q, viable_of_deep (fun _ => hstep) hq₀ hq, hend⟩

theorem viable_of_apartPowers (h : Level .viable (apartPowers items)) : Level .viable items := by
  have hstep {opened : Bool} {g : List Item} (hg : Level .viable (enfoldPowers opened [] g)) :
      Level .viable g := by
    obtain ⟨q, hq, hend⟩ := hg
    obtain ⟨q', hq', hqq⟩ := viable_of_enfoldPowers hq
    exact ⟨q', by simpa using hq', hqq hend⟩
  obtain ⟨q, hq, hend⟩ := hstep h
  obtain ⟨q₀, hq₀⟩ := hitems
  exact ⟨q, viable_of_deep (fun _ => hstep) hq₀ hq, hend⟩

theorem viable_of_apartNegatives (h : Level .viable (apartNegatives items)) :
    Level .viable items := by
  have hstep {before : Option Char} {g : List Item}
      (hg : Level .viable (enfoldNegatives before g)) : Level .viable g := by
    obtain ⟨q, hq, hend⟩ := hg
    obtain ⟨q', hq', hqq⟩ := viable_of_enfoldNegatives hq
    exact ⟨q', hq', hqq hend⟩
  obtain ⟨q, hq, hend⟩ := hstep h
  obtain ⟨q₀, hq₀⟩ := hitems
  exact ⟨q, viable_of_deep (fun _ => hstep) hq₀ hq, hend⟩

end

end

end Abacus
