import Abacus.Proofs.Canonical.Settling

/-! The search for an empty group goes over a layout level by level: it takes one out, or there is
none. -/

namespace Abacus

section Names

variable {v : Vocabulary} {name before : Text}

theorem isWordCharacter_iff {c : Char} :
    isWordCharacter c = true ↔ c.isDigit = true ∨ isNameStart c = true := by
  simp only [isWordCharacter, isNameStart, Char.isAlphanum, Bool.or_eq_true]
  tauto

theorem operand_of_wordCharacter {c : Char} (h : isWordCharacter c = true) :
    isOperandCharacter c = true :=
  isOperandCharacter_iff.mpr ((isWordCharacter_iff.mp h).imp_right .inr)

theorem not_wordCharacter {c : Char} (h : isOperandCharacter c = false) :
    isWordCharacter c = false := by
  by_contra hword
  rw [operand_of_wordCharacter (by simpa using hword)] at h
  cases h

theorem nameBefore_of_stop (hb : ∀ c ∈ before.head?, isOperandCharacter c = false) :
    nameBefore before = [] := by
  cases before with
  | nil => rfl
  | cons c before => simp [nameBefore, not_wordCharacter (hb c rfl)]

theorem wordCharacters_of_isIdentifier (h : isIdentifier name = true) :
    ∀ c ∈ name, isWordCharacter c = true := by
  have hchar {c : Char} (hc : c.isLower = true ∨ c.isDigit = true ∨ c = '_') :
      isWordCharacter c = true := by
    simp only [isWordCharacter, Char.isAlphanum, Char.isAlpha, Bool.or_eq_true, beq_iff_eq]
    tauto
  cases name with
  | nil => simp
  | cons d rest =>
    simp only [isIdentifier, Bool.and_eq_true, List.all_eq_true, Bool.or_eq_true, beq_iff_eq] at h
    intro c hc
    rcases List.mem_cons.mp hc with rfl | hc
    · exact hchar (h.1.imp_right .inr)
    · exact hchar (or_assoc.mp (h.2 c hc))

theorem IsCalled.nameBefore (hv : v.Identified) (h : IsCalled v name)
    (hb : ∀ c ∈ before.head?, isOperandCharacter c = false) :
    nameBefore (name.reverse ++ before) = name := by
  have hword := wordCharacters_of_isIdentifier (hv name h.2)
  have hstop : before.takeWhile isWordCharacter = [] := by
    cases before with
    | nil => rfl
    | cons c before => simp [not_wordCharacter (hb c rfl)]
  obtain ⟨c, rest, rfl, hc⟩ := h.1.first
  have hdigit : c.isDigit = false := by
    rw [← Bool.not_eq_true]
    intro hd
    rw [isNameStart_digit hd] at hc
    cases hc
  rw [Abacus.nameBefore, List.takeWhile_append_of_pos fun d hd => hword d (List.mem_reverse.mp hd),
    hstop, List.append_nil, List.reverse_reverse, List.dropWhile_cons_of_neg (by simp [hdigit])]

theorem Vocabulary.Identified.nil (hv : v.Identified) : v.isCallable [] = false := by
  rw [← Bool.not_eq_true]
  exact fun h => absurd (hv [] h) (by decide)

end Names

/-- No empty group stands in the level. -/
def Compact (items : List Item) : Prop := AfterNegatives items ∧ .group [] ∉ items

section

variable {v : Vocabulary} {before rest t : Text}

theorem dropEmptyGroup?_push {c : Char} (h : c ≠ '(' ∨ rest.head? ≠ some ')') :
    dropEmptyGroup? v before (c :: rest) = (dropEmptyGroup? v (c :: before) rest).map (c :: ·) := by
  rw [dropEmptyGroup?]
  rintro r rfl rfl
  simp at h

theorem dropEmptyGroup?_run (ht : ∀ c ∈ t, isOperandCharacter c = true) :
    dropEmptyGroup? v before (t ++ rest) =
      (dropEmptyGroup? v (t.reverse ++ before) rest).map (t ++ ·) := by
  induction t generalizing before with
  | nil => simp
  | cons c t ih =>
    rw [List.cons_append,
      dropEmptyGroup?_push (.inl (ne_open_of_operand (ht c List.mem_cons_self))), ih fun d hd =>
        ht d (List.mem_cons_of_mem _ hd), Option.map_map]
    simp [Function.comp_def]

theorem dropEmptyGroup?_call (h : v.isCallable (nameBefore before) = true) :
    dropEmptyGroup? v before ('(' :: ')' :: rest) =
      (dropEmptyGroup? v (')' :: '(' :: before) rest).map ('(' :: ')' :: ·) := by
  rw [dropEmptyGroup?, if_pos h]

theorem dropEmptyGroup?_group (h : v.isCallable (nameBefore before) = false) :
    dropEmptyGroup? v before ('(' :: ')' :: rest) = some rest := by
  rw [dropEmptyGroup?, if_neg (by simp [h])]

/-- Either an empty group goes, or the search goes on after the layout. -/
theorem Laid.dropEmptyGroup? {p q : Char} {items : List Item} (hv : v.Identified)
    (h : Laid (.leveled IsAtom (IsCalled v) AfterNegatives) p items q) (before : Text)
    (hb : p ≠ ')' → ∀ c ∈ before.head?, isOperandCharacter c = false) (after : Text) :
    (∃ others q', dropEmptyGroup? v before (textOf items ++ after) = some (textOf others ++ after) ∧
        Laid (.leveled IsAtom (IsCalled v) AfterNegatives) p others q' ∧ Thinned items others) ∨
      Laid (.leveled IsAtom (IsCalled v) Compact) p items q ∧ .group [] ∉ items ∧
        dropEmptyGroup? v before (textOf items ++ after) =
          (dropEmptyGroup? v ((textOf items).reverse ++ before) after).map (textOf items ++ ·) := by
  induction h generalizing before after with
  | nil => exact .inr ⟨.nil _, by simp, by simp⟩
  | @sign p c q rest hs hf hrest ih =>
    rw [textOf_sign, List.cons_append, dropEmptyGroup?_push (.inl (ne_open_of_sign hs))]
    rcases ih (c :: before) (fun _ => by simpa using not_operand_of_sign hs) after with
      ⟨others, q', htext, hlaid, hthin⟩ | ⟨hfull, hnot, htext⟩
    · exact .inl ⟨.sign c :: others, q', by simp [htext], .sign hs hf hlaid, hthin.cons _⟩
    · exact .inr ⟨.sign hs hf hfull, by simpa using hnot, by simp [htext, Function.comp_def]⟩
  | @run p q t rest hf ht hrest ih =>
    rw [textOf_run, List.append_assoc, dropEmptyGroup?_run ht.loose.2]
    rcases ih (t.reverse ++ before) (fun h => absurd rfl h) after with
      ⟨others, q', htext, hlaid, hthin⟩ | ⟨hfull, hnot, htext⟩
    · exact .inl ⟨.run t :: others, q', by simp [htext], .run hf ht hlaid, hthin.cons _⟩
    · exact .inr ⟨.run hf ht hfull, by simpa using hnot, by simp [htext, Function.comp_def]⟩
  | @group p m q inner rest hf hg hinner hend hrest ihinner ih =>
    simp only [textOf_group, List.cons_append, List.append_assoc]
    by_cases hne : inner = []
    · subst hne
      have hname := nameBefore_of_stop (hb (hf rfl).1)
      obtain ⟨q', hq', -⟩ := hrest.leveled_restart _ (hf rfl).1 (hf rfl).2
      refine .inl ⟨rest, q', ?_, hq', .erase [] rest (.inr rfl)⟩
      simp only [textOf_nil, List.nil_append]
      rw [dropEmptyGroup?_group (by rw [hname]; exact hv.nil)]
    · have hloose : Loose inner := hinner.toLoose (fun _ => IsAtom.loose) fun _ => IsCalled.loose
      obtain ⟨k, hk⟩ := hloose
      obtain ⟨c, r, hc, hclose⟩ := hk.textOf_eq_cons hne
      rw [dropEmptyGroup?_push (.inr (by rw [hc]; simpa using hclose))]
      rcases ihinner ('(' :: before) (fun _ => by simp [isOperandCharacter])
        (')' :: (textOf rest ++ after)) with
        ⟨others, q', htext, hlaid, hthin⟩ | ⟨hfull, hnot, htext⟩
      · exact .inl ⟨.group others :: rest, q, by simp [htext], .group hf (hg.thinned hthin) hlaid
          (fun h => absurd h (by decide)) hrest, .replace [] rest rfl rfl⟩
      · rw [htext, dropEmptyGroup?_push (.inl (by decide))]
        rcases ih (')' :: ((textOf inner).reverse ++ '(' :: before)) (fun h => absurd rfl h)
          after with ⟨others, q', htext', hlaid, hthin⟩ | ⟨hfull', hnot', htext'⟩
        · exact .inl ⟨.group inner :: others, q', by simp [htext'], .group hf hg hinner hend hlaid,
            hthin.cons _⟩
        · exact .inr ⟨.group hf ⟨hg, hnot⟩ hfull (fun h => absurd h (by decide)) hfull',
            by simpa [hnot'] using hne, by simp [htext', Function.comp_def]⟩
  | @call p m q name inner rest hf hc hinner hend hrest ihinner ih =>
    simp only [textOf_call, List.cons_append, List.append_assoc]
    rw [dropEmptyGroup?_run hc.1.loose.2]
    have hname : v.isCallable (nameBefore (name.reverse ++ before)) = true := by
      rw [hc.1.nameBefore hv (hb (hf rfl).1)]
      exact hc.1.2
    by_cases hne : inner = []
    · subst hne
      simp only [textOf_nil, List.nil_append]
      rw [dropEmptyGroup?_call hname]
      rcases ih (')' :: '(' :: (name.reverse ++ before)) (fun h => absurd rfl h) after with
        ⟨others, q', htext, hlaid, hthin⟩ | ⟨hfull, hnot, htext⟩
      · exact .inl ⟨.call name [] :: others, q', by simp [htext], .call hf hc hinner hend hlaid,
          hthin.cons _⟩
      · exact .inr ⟨.call hf ⟨hc.1, hc.2, by simp⟩ (.nil _) (fun h => absurd h (by decide)) hfull,
          by simpa using hnot, by simp [htext, Function.comp_def]⟩
    · have hloose : Loose inner := hinner.toLoose (fun _ => IsAtom.loose) fun _ => IsCalled.loose
      obtain ⟨k, hk⟩ := hloose
      obtain ⟨c, r, hc', hclose⟩ := hk.textOf_eq_cons hne
      rw [dropEmptyGroup?_push (.inr (by rw [hc']; simpa using hclose))]
      rcases ihinner ('(' :: (name.reverse ++ before)) (fun _ => by simp [isOperandCharacter])
        (')' :: (textOf rest ++ after)) with ⟨others, q', htext, hlaid, hthin⟩ | ⟨hfull,
          hnot, htext⟩
      · exact .inl ⟨.call name others :: rest, q, by simp [htext],
          .call hf ⟨hc.1, hc.2.thinned hthin⟩ hlaid (fun h => absurd h (by decide)) hrest,
          .replace [] rest rfl rfl⟩
      · rw [htext, dropEmptyGroup?_push (.inl (by decide))]
        rcases ih (')' :: ((textOf inner).reverse ++ '(' :: (name.reverse ++ before)))
          (fun h => absurd rfl h)
          after with ⟨others, q', htext', hlaid, hthin⟩ | ⟨hfull', hnot', htext'⟩
        · exact .inl ⟨.call name inner :: others, q', by simp [htext'],
            .call hf hc hinner hend hlaid, hthin.cons _⟩
        · exact .inr ⟨.call hf ⟨hc.1, hc.2, hnot⟩ hfull (fun h => absurd h (by decide)) hfull',
            by simpa using hnot', by simp [htext', Function.comp_def]⟩

end

end Abacus
