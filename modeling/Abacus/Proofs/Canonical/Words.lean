import Abacus.Proofs.Canonical.Shape
import Abacus.Proofs.Canonical.Tidying

/-! What writing out the products makes of a text: its runs are numbers and words, only callable
words stand before a group, and points come after digits. -/

namespace Abacus

/-- Digits with at most one point, which does not come first. -/
structure IsNumber (t : Text) : Prop where
  digits : ∀ c ∈ t, c.isDigit = true ∨ c = '.'
  first : ∃ c rest, t = c :: rest ∧ c.isDigit = true
  point : t.count '.' ≤ 1

/-- Letters, digits, underscores, and points after digits; a digit does not come first. -/
structure IsWord (t : Text) : Prop where
  first : ∃ c rest, t = c :: rest ∧ isNameStart c = true
  characters : ∀ c ∈ t, isOperandCharacter c = true
  points : List.IsChain (fun a b => b = '.' → a.isDigit = true) t

def IsAtom (t : Text) : Prop := IsNumber t ∨ IsWord t

def IsCalled (v : Vocabulary) (t : Text) : Prop := IsWord t ∧ v.isCallable t = true

section Characters

variable {c : Char}

theorem isOperandCharacter_iff :
    isOperandCharacter c = true ↔ c.isDigit = true ∨ c = '.' ∨ isNameStart c = true := by
  simp only [isOperandCharacter, isNameStart, Char.isAlphanum, Bool.or_eq_true, beq_iff_eq]
  tauto

theorem not_operand_iff :
    isOperandCharacter c = false ↔ ¬ (c.isDigit = true ∨ c = '.') ∧ ¬ isNameStart c = true := by
  rw [← Bool.not_eq_true, isOperandCharacter_iff, ← or_assoc, not_or]

theorem isNameStart_digit (h : c.isDigit = true) : isNameStart c = false := by
  have hbounds : 48 ≤ c.toNat ∧ c.toNat ≤ 57 := by
    simpa [Char.isDigit, UInt32.le_iff_toNat_le] using h
  have hupper : c.isUpper = false := by
    simp [Char.isUpper, UInt32.le_iff_toNat_le]
    omega
  have hlower : c.isLower = false := by
    simp [Char.isLower, UInt32.le_iff_toNat_le]
    omega
  have hne : c ≠ '_' := by
    rintro rfl
    exact absurd h (by decide)
  simp [isNameStart, Char.isAlpha, hupper, hlower, hne]

theorem isDigit_of_nameStart (h : isNameStart c = true) : ¬ c.isDigit = true := by
  intro hd
  rw [isNameStart_digit hd] at h
  cases h

theorem ne_of_digit {d : Char} (h : c.isDigit = true) (hd : d.isDigit = false) : c ≠ d := by
  rintro rfl
  rw [h] at hd
  cases hd

theorem ne_of_nameStart {d : Char} (h : isNameStart c = true) (hd : isNameStart d = false) :
    c ≠ d := by
  rintro rfl
  rw [h] at hd
  cases hd

theorem IsNumber.operand {t : Text} (h : IsNumber t) :
    ∀ c ∈ t, isOperandCharacter c = true := fun c hc => by
  rcases h.digits c hc with hd | rfl
  · exact isOperandCharacter_iff.mpr (.inl hd)
  · rfl

theorem IsAtom.loose {t : Text} (h : IsAtom t) : Rules.loose.run t := by
  rcases h with h | h
  · obtain ⟨c, rest, rfl, -⟩ := h.first
    exact ⟨by simp, h.operand⟩
  · obtain ⟨c, rest, rfl, -⟩ := h.first
    exact ⟨by simp, h.characters⟩

theorem IsCalled.loose {v : Vocabulary} {t : Text} (h : IsCalled v t) : Rules.loose.run t :=
  IsAtom.loose (.inr h.1)

end Characters

/-- A point comes after a digit, and no number begins after a group or a factorial. -/
def Pointed (a b : Char) : Prop :=
  (b = '.' → a.isDigit = true) ∧ (b.isDigit = true → a ≠ ')' ∧ a ≠ '!')

/-- A point comes after a digit, and nothing that is an operand begins after a group or a
factorial. -/
def Knit (a b : Char) : Prop := (b = '.' → a.isDigit = true) ∧ Closed a b

theorem isChain_separateNumbers {a : Char} {within : Within}
    (h : within ≠ .neither → a ≠ ')' ∧ a ≠ '!') (t : Text) :
    List.IsChain Pointed (a :: separateNumbers (some a) within t) := by
  have hstar (x : Char) : Pointed x '*' :=
    ⟨fun h => absurd h (by decide), fun h => absurd h (by decide)⟩
  have hzero {x : Char} (hx : x ≠ ')' ∧ x ≠ '!') : Pointed x '0' :=
    ⟨fun h => absurd h (by decide), fun _ => hx⟩
  have hpoint : Pointed '0' '.' := ⟨fun _ => by decide, fun h => absurd h (by decide)⟩
  induction t generalizing a within with
  | nil => simp [separateNumbers]
  | cons c rest ih =>
    simp only [separateNumbers]
    split
    · next hd =>
      have hdot : c ≠ '.' := ne_of_digit hd (by decide)
      have hne : c ≠ ')' ∧ c ≠ '!' := ⟨ne_of_digit hd (by decide), ne_of_digit hd (by decide)⟩
      split
      · next hw =>
          exact .cons_cons ⟨fun h => absurd h hdot, fun _ => h (by simp [hw])⟩ (ih fun _ => hne)
      · split
        · exact .cons_cons (hstar a)
            (.cons_cons ⟨fun h => absurd h hdot, fun _ => by decide⟩ (ih fun _ => hne))
        · next hw hg =>
          refine .cons_cons ⟨fun h => absurd h hdot, fun _ => ?_⟩ (ih fun _ => hne)
          by_cases hn : within = .neither
          · simpa [endsGroup, hn] using hg
          · exact h hn
    · next hd =>
      split
      · next hp =>
        subst hp
        split
        · exact .cons_cons (hstar a)
            (.cons_cons (hzero (by decide)) (.cons_cons hpoint (ih fun _ => by decide)))
        · next hg =>
          split
          · next ha =>
            exact .cons_cons ⟨fun _ => by simpa using ha, fun h => absurd h (by decide)⟩
              (ih fun _ => by decide)
          · exact .cons_cons (hzero (by simpa [endsGroup] using hg))
              (.cons_cons hpoint (ih fun _ => by decide))
      · next hp =>
        have hplain (x : Char) : Pointed x c := ⟨fun h => absurd h hp, fun h => absurd h hd⟩
        split
        · split
          · exact .cons_cons (hstar a) (.cons_cons (hplain _) (ih fun h => absurd rfl h))
          · exact .cons_cons (hplain _) (ih fun h => absurd rfl h)
        · split
          · next hs =>
            exact .cons_cons (hplain _)
              (ih fun _ => ⟨ne_of_nameStart hs (by decide), ne_of_nameStart hs (by decide)⟩)
          · exact .cons_cons (hplain _) (ih fun h => absurd rfl h)

theorem knit_star (a : Char) : Knit a '*' := ⟨fun h => absurd h (by decide), fun _ => by decide⟩

theorem knit_of_star {c : Char} (h : c ≠ '.') : Knit '*' c :=
  ⟨fun hc => absurd hc h, fun hc => absurd hc (by decide)⟩

/-- Some groups and words get a product sign before them. -/
inductive Starred : Text → Text → Prop
  | nil : Starred [] []
  | keep {c : Char} {t u : Text} (h : Starred t u) : Starred (c :: t) (c :: u)
  | star {c : Char} {t u : Text} (hc : c = '(' ∨ isNameStart c = true) (h : Starred t u) :
    Starred (c :: t) ('*' :: c :: u)

theorem starred_separateGroups (previous : Option Char) (t : Text) :
    Starred t (separateGroups previous t) := by
  fun_induction separateGroups previous t with
  | case1 => exact .nil
  | case2 previous c rest hc ih => exact .star hc.1 ih
  | case3 previous c rest hc ih => exact .keep ih

section

variable {v : Vocabulary} {word : Text} {inNumber : Bool} {t u : Text}

theorem starred_separateWords (h : separateWords v word inNumber t = .ok u) : Starred t u := by
  fun_induction separateWords v word inNumber t generalizing u
  case case1 | case10 => cases h
  case case2 =>
    obtain rfl : [] = u := by simpa using h
    exact .nil
  case case5 hs _ ih =>
    obtain ⟨w, hw, rfl⟩ := map_eq_ok.mp h
    exact .star (.inr hs) (ih hw)
  case case7 hc ih =>
    obtain ⟨w, hw, rfl⟩ := map_eq_ok.mp h
    exact .star (.inl hc.1) (ih hw)
  case case11 ih =>
    obtain ⟨w, hw, rfl⟩ := map_eq_ok.mp h
    exact .star (.inl rfl) (ih hw)
  all_goals
    next ih =>
      obtain ⟨w, hw, rfl⟩ := map_eq_ok.mp h
      exact .keep (ih hw)

theorem separateWords_self (h : separateWords v word inNumber t = .ok u) :
    separateWords v word inNumber u = .ok u := by
  fun_induction separateWords v word inNumber t generalizing u
  case case1 | case10 => cases h
  case case2 word _ hc =>
    obtain rfl : [] = u := by simpa using h
    simpa [separateWords] using hc
  case case3 hc ih =>
    obtain ⟨w, hw, rfl⟩ := map_eq_ok.mp h
    simp [separateWords, hc, ih hw]
  case case4 hc hw' ih =>
    obtain ⟨w, hw, rfl⟩ := map_eq_ok.mp h
    simp [separateWords, hc, hw', ih hw]
  case case5 hd hs hc ih =>
    obtain ⟨w, hw, rfl⟩ := map_eq_ok.mp h
    obtain ⟨rfl, -⟩ := hc
    simp [separateWords, hd, hs, ih hw, show isNameStart '*' = false by decide]
  case case6 hd hs hc ih =>
    obtain ⟨w, hw, rfl⟩ := map_eq_ok.mp h
    simp [separateWords, hd, hs, hc, ih hw]
  case case7 hd hs hc ih =>
    obtain ⟨w, hw, rfl⟩ := map_eq_ok.mp h
    simp [separateWords, hd, hs, ih hw, show isNameStart '*' = false by decide]
  case case8 hd hs hc ih =>
    obtain ⟨w, hw, rfl⟩ := map_eq_ok.mp h
    simp [separateWords, hd, hs, hc, ih hw]
  case case9 hne hcall hd hs ih =>
    obtain ⟨w, hw, rfl⟩ := map_eq_ok.mp h
    simp [separateWords, hs, hne, hcall, ih hw]
  case case11 hne hcall hd hs ih =>
    obtain ⟨w, hw, rfl⟩ := map_eq_ok.mp h
    simp [separateWords, hs, hne, hcall, ih hw, show isNameStart '*' = false by decide]
  case case12 hd hs hne hcall hc ih =>
    obtain ⟨w, hw, rfl⟩ := map_eq_ok.mp h
    simp [separateWords, hd, hs, hne, hcall, hc, ih hw]

end

theorem checkNumbers_step (inWord : Bool) (points : Nat) (c : Char) :
    (∀ position t, checkNumbers position inWord points (c :: t) ≠ .ok ()) ∨ ∃ inWord' points',
      ∀ position t,
      checkNumbers position inWord points (c :: t) =
        checkNumbers (position + 1) inWord' points' t := by
  by_cases hs : isNameStart c = true
  · exact .inr ⟨true, 0, fun _ _ => by rw [checkNumbers, if_pos hs]⟩
  by_cases hd : c.isDigit = true
  · exact .inr ⟨inWord, points, fun _ _ => by rw [checkNumbers, if_neg hs, if_pos hd]⟩
  by_cases hc : c = '.' ∧ inWord = false
  · by_cases hp : points = 0
    · exact .inr
        ⟨inWord, 1, fun _ _ => by rw [checkNumbers, if_neg hs, if_neg hd, if_pos hc, if_pos hp]⟩
    · exact .inl fun _ _ h => by
        rw [checkNumbers, if_neg hs, if_neg hd, if_pos hc, if_neg hp] at h; cases h
  · exact .inr ⟨false, 0, fun _ _ => by rw [checkNumbers, if_neg hs, if_neg hd, if_neg hc]⟩

section

variable {t u : Text} (h : Starred t u)
include h

theorem Starred.isBalancedFrom (depth : Nat) : isBalancedFrom depth u = isBalancedFrom depth t := by
  induction h generalizing depth with
  | nil => rfl
  | keep _ ih => simp [Abacus.isBalancedFrom, ih]
  | star _ _ ih => simp [Abacus.isBalancedFrom, depthAfter, ih]

theorem Starred.mem {c : Char} (hc : c ∈ u) : c = '*' ∨ c ∈ t := by
  induction h with
  | nil => exact .inr hc
  | keep _ ih =>
    rcases List.mem_cons.mp hc with rfl | hc
    · simp
    · simpa using (ih hc).imp_right .inr
  | star _ _ ih =>
    rcases List.mem_cons.mp hc with rfl | hc
    · simp
    · rcases List.mem_cons.mp hc with rfl | hc
      · simp
      · simpa using (ih hc).imp_right .inr

theorem Starred.checkNumbers {position other points : Nat} {inWord : Bool}
    (hn : checkNumbers position inWord points t = .ok ()) :
    checkNumbers other inWord points u = .ok () := by
  induction h generalizing position other points inWord with
  | nil => rfl
  | @keep c t u _ ih =>
    obtain hnone | ⟨_, _, hstep⟩ := checkNumbers_step inWord points c
    · exact absurd hn (hnone _ _)
    · rw [hstep] at hn ⊢
      exact ih hn
  | @star c t u hc _ ih =>
    have hstar : Abacus.checkNumbers other inWord points ('*' :: c :: u) =
        Abacus.checkNumbers (other + 1) false 0 (c :: u) := by
      simp [Abacus.checkNumbers, show isNameStart '*' = false by decide]
    rw [hstar]
    rcases hc with rfl | hc
    · have hopen (position : Nat) (inWord : Bool) (points : Nat) (t : Text) : Abacus.checkNumbers
          position inWord points ('(' :: t) = Abacus.checkNumbers (position + 1) false 0 t := by
        simp [Abacus.checkNumbers, show isNameStart '(' = false by decide]
      rw [hopen] at hn ⊢
      exact ih hn
    · rw [Abacus.checkNumbers, if_pos hc] at hn ⊢
      exact ih hn

theorem Starred.knit {a : Char} (hk : List.IsChain Knit (a :: t)) : List.IsChain Knit (a :: u) := by
  induction h generalizing a with
  | nil => exact hk
  | keep _ ih =>
    obtain ⟨hac, hrest⟩ := List.isChain_cons_cons.mp hk
    exact .cons_cons hac (ih hrest)
  | @star c t u hc _ ih =>
    obtain ⟨-, hrest⟩ := List.isChain_cons_cons.mp hk
    have hdot : c ≠ '.' := by
      rintro rfl
      exact absurd hc (by decide)
    exact .cons_cons (knit_star a) (.cons_cons (knit_of_star hdot) (ih hrest))

end

theorem isChain_separateGroups {a : Char} {t : Text} (h : List.IsChain Pointed (a :: t)) :
    List.IsChain Knit (a :: separateGroups (some a) t) := by
  induction t generalizing a with
  | nil => simp [separateGroups]
  | cons c rest ih =>
    obtain ⟨hac, hrest⟩ := List.isChain_cons_cons.mp h
    simp only [separateGroups]
    split
    · next hc =>
      have hdot : c ≠ '.' := by
        rintro rfl
        exact absurd hc.1 (by decide)
      exact .cons_cons (knit_star a) (.cons_cons (knit_of_star hdot) (ih hrest))
    · next hc =>
      refine .cons_cons ⟨hac.1, fun ha => ?_⟩ (ih hrest)
      have hend : endsGroup (some a) = true := by simpa [endsGroup] using ha
      simp only [hend, and_true, not_or] at hc
      refine ⟨?_, hc.1⟩
      refine not_operand_iff.mpr ⟨?_, hc.2⟩
      rintro (hd | rfl)
      · rcases ha with rfl | rfl
        · exact (hac.2 hd).1 rfl
        · exact (hac.2 hd).2 rfl
      · rcases ha with rfl | rfl <;> exact absurd (hac.1 rfl) (by decide)

theorem isBalancedFrom_separateNumbers (previous : Option Char) (within : Within) (t : Text)
    (depth : Nat) :
    isBalancedFrom depth (separateNumbers previous within t) = isBalancedFrom depth t := by
  fun_induction separateNumbers previous within t generalizing depth <;>
    simp_all [isBalancedFrom, depthAfter]

theorem mem_separateNumbers {previous : Option Char} {within : Within} {t : Text} {c : Char}
    (hc : c ∈ separateNumbers previous within t) : c = '*' ∨ c = '0' ∨ c ∈ t := by
  fun_induction separateNumbers previous within t <;> simp_all <;> tauto

section

variable {v : Vocabulary} {t word rest : Text}

theorem separateWords_digits (ht : ∀ c ∈ t, c.isDigit = true ∨ c = '.') {inNumber : Bool}
    (hn : t ≠ [] ∨ inNumber = true) (rest : Text) :
    separateWords v [] inNumber (t ++ rest) = (t ++ ·) <$> separateWords v [] true rest := by
  induction t generalizing inNumber with
  | nil =>
    obtain rfl : inNumber = true := by simpa using hn
    cases hs : separateWords v [] true rest <;> simp [hs]
  | cons c t ih =>
    have hc := ht c List.mem_cons_self
    simp only [List.cons_append, separateWords, hc, if_true]
    rw [ih (fun d hd => ht d (List.mem_cons_of_mem _ hd)) (.inr rfl)]
    cases separateWords v [] true rest <;> simp

theorem separateWords_word (ht : ∀ c ∈ t, isOperandCharacter c = true) (hword : word ≠ [])
    (rest : Text) :
    separateWords v word false (t ++ rest) =
      (t ++ ·) <$> separateWords v (t.reverse ++ word) false rest := by
  induction t generalizing word with
  | nil => cases hs : separateWords v word false rest <;> simp [hs]
  | cons c t ih =>
    have hstep : separateWords v word false (c :: (t ++ rest)) =
        (c :: ·) <$> separateWords v (c :: word) false (t ++ rest) := by
      rcases isOperandCharacter_iff.mp (ht c List.mem_cons_self) with hd | rfl | hs
      · simp [separateWords, hd, hword]
      · simp [separateWords, hword]
      · have hd : ¬ (c.isDigit = true ∨ c = '.') := by
          rintro (hd | rfl)
          · rw [isNameStart_digit hd] at hs
            cases hs
          · exact absurd hs (by decide)
        simp [separateWords, hd, hs, hword]
    rw [List.cons_append, hstep, ih (fun d hd => ht d (List.mem_cons_of_mem _ hd)) (by simp)]
    cases hs : separateWords v (t.reverse ++ c :: word) false rest <;> simp [hs]

theorem exists_digits (ht : ∀ c ∈ t, isOperandCharacter c = true) :
    ∃ digits letters, t = digits ++ letters ∧ (∀ c ∈ digits, c.isDigit = true ∨ c = '.') ∧
      ∀ c ∈ letters.head?, isNameStart c = true := by
  induction t with
  | nil => exact ⟨[], [], rfl, by simp, by simp⟩
  | cons c t ih =>
    by_cases hc : c.isDigit = true ∨ c = '.'
    · obtain ⟨digits, letters, rfl, hdigits, hletters⟩ := ih fun d hd =>
        ht d (List.mem_cons_of_mem _ hd)
      exact ⟨c :: digits, letters, rfl, by simpa [hc] using hdigits, hletters⟩
    · refine ⟨[], c :: t, rfl, by simp, ?_⟩
      rcases isOperandCharacter_iff.mp (ht c List.mem_cons_self) with hd | hd | hs
      · exact absurd (.inl hd) hc
      · exact absurd (.inr hd) hc
      · simpa using hs

/-- What is separated from a run is what comes after it: either after digits, or after a word. -/
theorem separateWords_run (hne : t ≠ []) (ht : ∀ c ∈ t, isOperandCharacter c = true) {u : Text}
    (hs : separateWords v [] false (t ++ rest) = .ok (t ++ u)) :
    ((∀ c ∈ t, c.isDigit = true ∨ c = '.') ∧ separateWords v [] true rest = .ok u) ∨
      ((∃ c t', t = c :: t' ∧ isNameStart c = true) ∧
        separateWords v t.reverse false rest = .ok u) := by
  obtain ⟨digits, letters, rfl, hdigits, hletters⟩ := exists_digits ht
  cases letters with
  | nil =>
    rw [List.append_nil] at hs hne ⊢
    rw [separateWords_digits hdigits (.inl hne)] at hs
    obtain ⟨w, hw, he⟩ := map_eq_ok.mp hs
    exact .inl ⟨hdigits, by rwa [List.append_cancel_left he] at hw⟩
  | cons c letters =>
    have hc : isNameStart c = true := hletters c rfl
    have hd : ¬ (c.isDigit = true ∨ c = '.') := by
      rintro (hd | rfl)
      · rw [isNameStart_digit hd] at hc
        cases hc
      · exact absurd hc (by decide)
    by_cases hempty : digits = []
    · subst hempty
      have hstep : separateWords v [] false (c :: letters ++ rest) =
          (c :: ·) <$> separateWords v [c] false (letters ++ rest) := by
        simp [separateWords, hd, hc]
      rw [List.nil_append, hstep,
        separateWords_word (fun d hd => ht d (by simp [hd])) (by simp)] at hs
      obtain ⟨w, hw, he⟩ := map_eq_ok.mp hs
      obtain ⟨x, hx, rfl⟩ := map_eq_ok.mp hw
      have hcancel : x = u := by simpa using he
      exact .inr ⟨⟨c, letters, rfl, hc⟩, by simpa [hcancel] using hx⟩
    · -- a sign would have come between the digits and the word
      rw [List.append_assoc, separateWords_digits hdigits (.inl hempty)] at hs
      obtain ⟨w, hw, he⟩ := map_eq_ok.mp hs
      have hstep : separateWords v [] true (c :: letters ++ rest) =
          ('*' :: c :: ·) <$> separateWords v [c] false (letters ++ rest) := by
        simp [separateWords, hd, hc]
      rw [hstep] at hw
      obtain ⟨x, -, rfl⟩ := map_eq_ok.mp hw
      have hhead : '*' = c := by
        rw [List.append_assoc] at he
        exact (List.cons.inj (List.append_cancel_left he)).1
      exact absurd hc (by rw [← hhead]; decide)

theorem separateWords_close {inNumber : Bool} {u : Text}
    (hrest : ∀ c ∈ rest.head?, isOperandCharacter c = false ∧ c ≠ '(')
    (hs : separateWords v word inNumber rest = .ok u) :
    separateWords v [] false rest = .ok u ∧ (word ≠ [] → v.isCallable word.reverse = false) := by
  cases rest with
  | nil =>
    by_cases hc : word ≠ [] ∧ v.isCallable word.reverse = true
    · rw [separateWords, if_pos hc] at hs
      cases hs
    · rw [separateWords, if_neg hc] at hs
      exact ⟨by simpa [separateWords] using hs, fun hw => by simpa [hw] using hc⟩
  | cons c rest =>
    obtain ⟨hop, hopen⟩ := hrest c rfl
    have hnot := not_operand_iff.mp hop
    by_cases hw : word = []
    · subst hw
      simp only [separateWords, hnot, hopen, if_false, if_true, false_and] at hs ⊢
      exact ⟨hs, fun h => absurd rfl h⟩
    · by_cases hc : v.isCallable word.reverse = true
      · simp [separateWords, hnot.1, hnot.2, hw, hc, hopen] at hs
      · simp only [separateWords, hnot, hopen, hw, hc, if_false, if_true, false_and] at hs ⊢
        exact ⟨by simpa using hs, fun _ => by simp⟩

theorem separateWords_open {u : Text} (hword : word ≠ [])
    (hs : separateWords v word false ('(' :: rest) = .ok ('(' :: u)) :
    v.isCallable word.reverse = true ∧ separateWords v [] false rest = .ok u := by
  have hname : isNameStart '(' = false := by decide
  by_cases hc : v.isCallable word.reverse = true
  · simp only [separateWords, hname, hword, hc] at hs
    obtain ⟨w, hw, he⟩ := map_eq_ok.mp (by simpa using hs)
    exact ⟨hc, by rw [hw, (List.cons.inj he).2]⟩
  · simp only [separateWords, hname, hword, hc] at hs
    obtain ⟨w, -, he⟩ := map_eq_ok.mp (by simpa using hs)
    exact absurd (List.cons.inj he).1 (by decide)

theorem separateWords_open_number {u : Text}
    (hs : separateWords v [] true ('(' :: rest) = .ok ('(' :: u)) : False := by
  simp only [separateWords, show isNameStart '(' = false by decide] at hs
  obtain ⟨w, -, he⟩ := map_eq_ok.mp (by simpa using hs)
  exact absurd (List.cons.inj he).1 (by decide)

theorem separateWords_push {c : Char} {u : Text} (hop : isOperandCharacter c = false)
    (hs : separateWords v [] false (c :: rest) = .ok (c :: u)) :
    separateWords v [] false rest = .ok u := by
  have hnot := not_operand_iff.mp hop
  simp only [separateWords, hnot.1, hnot.2] at hs
  obtain ⟨w, hw, he⟩ := map_eq_ok.mp (by simpa using hs)
  rw [hw, (List.cons.inj he).2]

end

section

variable {position points : Nat} {inWord : Bool} {t rest : Text}

theorem Starred.refl : ∀ t : Text, Starred t t
  | [] => .nil
  | _ :: t => .keep (refl t)

theorem checkNumbers_append (h : checkNumbers position inWord points (t ++ rest) = .ok ()) :
    checkNumbers position inWord points t = .ok () ∧ ∃ position inWord points,
      checkNumbers position inWord points rest = .ok () := by
  induction t generalizing position inWord points with
  | nil => exact ⟨rfl, _, _, _, h⟩
  | cons c t ih =>
    rw [List.cons_append] at h
    obtain hnone | ⟨_, _, hstep⟩ := checkNumbers_step inWord points c
    · exact absurd h (hnone _ _)
    · rw [hstep] at h ⊢
      exact ih h

theorem checkNumbers_of_stop {c : Char} (hop : isOperandCharacter c = false) :
    checkNumbers position inWord points (c :: rest) = checkNumbers (position + 1) false 0 rest := by
  obtain ⟨hrun, hname⟩ := not_operand_iff.mp hop
  obtain ⟨hdigit, hpoint⟩ := not_or.mp hrun
  rw [checkNumbers, if_neg hname, if_neg hdigit, if_neg fun h => hpoint h.1]

theorem checkNumbers_push {c : Char} (hop : isOperandCharacter c = false)
    (h : checkNumbers position inWord points (c :: rest) = .ok ()) :
    checkNumbers 0 false 0 rest = .ok () := by
  rw [checkNumbers_of_stop hop] at h
  exact (Starred.refl rest).checkNumbers h

theorem checkNumbers_reset (hrest : ∀ c ∈ rest.head?, isOperandCharacter c = false)
    (h : checkNumbers position inWord points rest = .ok ()) :
    checkNumbers 0 false 0 rest = .ok () := by
  cases rest with
  | nil => rfl
  | cons c rest =>
    rw [checkNumbers_of_stop (hrest c rfl)] at h ⊢
    exact (Starred.refl rest).checkNumbers h

theorem count_point_le (ht : ∀ c ∈ t, c.isDigit = true ∨ c = '.') (hp : points ≤ 1)
    (h : checkNumbers position false points (t ++ rest) = .ok ()) : t.count '.' + points ≤ 1 := by
  induction t generalizing position points with
  | nil => simpa using hp
  | cons c t ih =>
    have ht' : ∀ d ∈ t, d.isDigit = true ∨ d = '.' := fun d hd => ht d (List.mem_cons_of_mem _ hd)
    rw [List.cons_append, checkNumbers] at h
    rcases ht c List.mem_cons_self with hd | rfl
    · rw [if_neg (by simp [isNameStart_digit hd]), if_pos hd] at h
      have hrest := ih ht' hp h
      rwa [List.count_cons_of_ne (ne_of_digit hd (by decide))]
    · rw [if_neg (by decide), if_neg (by decide), if_pos ⟨rfl, rfl⟩] at h
      by_cases hzero : points = 0
      · rw [if_pos hzero] at h
        have hrest := ih ht' (Nat.le_refl 1) h
        rw [List.count_cons_self]
        omega
      · rw [if_neg hzero] at h
        cases h

end

section

variable {v : Vocabulary} {p q : Char} {items : List Item}

theorem Laid.head_close (h : Laid .plain ')' items q) {after : Text}
    (hafter : ∀ c ∈ after.head?, isOperandCharacter c = false ∧ c ≠ '(') :
    ∀ c ∈ (textOf items ++ after).head?, isOperandCharacter c = false ∧ c ≠ '(' := by
  cases h with
  | nil => simpa using hafter
  | @sign _ c _ _ hs _ _ =>
    intro d hd
    obtain rfl : c = d := by simpa using hd
    exact ⟨not_operand_of_sign hs, ne_open_of_sign hs⟩
  | run hf _ _ => exact absurd rfl (hf rfl).1
  | group hf _ _ _ _ => exact absurd rfl (hf rfl).1
  | call hf _ _ _ _ => exact absurd rfl (hf rfl).1

theorem head_ne_point_of_knit {c : Char} {t : Text} (h : List.IsChain Knit (c :: t))
    (hc : isOperandCharacter c = false) : t.head? ≠ some '.' := by
  intro hdot
  obtain ⟨rest, rfl⟩ := List.head?_eq_some_iff.mp hdot
  have hdigit := (List.isChain_cons_cons.mp h).1.1 rfl
  rw [isOperandCharacter_iff.mpr (.inl hdigit)] at hc
  cases hc

theorem Laid.worded (h : Laid .plain p items q) {after u : Text} {position : Nat}
    (hafter : ∀ c ∈ after.head?, isOperandCharacter c = false ∧ c ≠ '(')
    (hchain : List.IsChain Knit (textOf items ++ after))
    (hhead : p ≠ ')' → (textOf items ++ after).head? ≠ some '.')
    (hs : separateWords v [] false (textOf items ++ after) = .ok (textOf items ++ u))
    (hn : checkNumbers position false 0 (textOf items ++ after) = .ok ()) :
    Laid (.leveled IsAtom (IsCalled v) fun _ => True) p items q ∧
      separateWords v [] false after = .ok u ∧
      checkNumbers 0 false 0 after = .ok () := by
  induction h generalizing after u position with
  | nil =>
    exact ⟨.nil _, by simpa using hs, (Starred.refl after).checkNumbers (by simpa using hn)⟩
  | @sign p c q rest hc hfol _ ih =>
    rw [textOf_sign, List.cons_append] at hchain hs hn
    have hop := not_operand_of_sign hc
    obtain ⟨hrest, hend, hnum⟩ := ih hafter hchain.tail (fun _ => head_ne_point_of_knit hchain hop)
      (separateWords_push hop (by simpa using hs)) (checkNumbers_push hop hn)
    exact ⟨.sign hc hfol hrest, hend, hnum⟩
  | @run p q t rest hfol ht hrest ih =>
    rw [textOf_run, List.append_assoc] at hchain hs hn hhead
    have hclose := hrest.head_close hafter
    have hnext {word : Text} {inNumber : Bool}
        (hw : separateWords v word inNumber (textOf rest ++ after) = .ok (textOf rest ++ u)) :=
      ih hafter hchain.right_of_append (fun h => absurd rfl h) (separateWords_close hclose hw).1
        (checkNumbers_reset (fun c hc => (hclose c hc).1)
          (checkNumbers_append hn).2.choose_spec.choose_spec.choose_spec)
    rcases separateWords_run ht.1 ht.2 (by simpa using hs) with ⟨hdigits, hw⟩
      | ⟨⟨c, t', rfl, hc⟩, hw⟩
    · obtain ⟨hlaid, hend, hnum⟩ := hnext hw
      refine ⟨.run hfol (.inl ⟨hdigits, ?_, ?_⟩) hlaid, hend, hnum⟩
      · obtain ⟨c, t', rfl⟩ := List.exists_cons_of_ne_nil ht.1
        refine ⟨c, t', rfl, (hdigits c List.mem_cons_self).resolve_right ?_⟩
        rintro rfl
        exact hhead (hfol rfl).1 rfl
      · simpa using count_point_le hdigits (Nat.zero_le 1) hn
    · obtain ⟨hlaid, hend, hnum⟩ := hnext hw
      refine ⟨.run hfol (.inr ⟨⟨c, t', rfl, hc⟩, ht.2, ?_⟩) hlaid, hend, hnum⟩
      exact hchain.left_of_append.imp fun _ _ h => h.1
  | @group p m q inner rest hfol _ hinner hend hrest ihinner ih =>
    simp only [textOf_group, List.cons_append, List.append_assoc] at hchain hs hn
    have hclose : ∀ c ∈ (')' :: (textOf rest ++ after)).head?, isOperandCharacter c = false ∧
        c ≠ '(' := by simp; decide
    obtain ⟨hlaidInner, hs', hn'⟩ :=
      ihinner hclose hchain.tail (by simpa using head_ne_point_of_knit hchain (by decide))
        (separateWords_push (by decide) hs) (checkNumbers_push (by decide) hn)
    have hafterChain : List.IsChain Knit (textOf rest ++ after) :=
      hchain.suffix ⟨'(' :: (textOf inner ++ [')']), by simp⟩
    obtain ⟨hlaid, hend', hnum⟩ :=
      ih hafter hafterChain (fun h => absurd rfl h) (separateWords_push (by decide) hs')
        (checkNumbers_push (by decide) hn')
    exact ⟨.group hfol trivial hlaidInner (fun h => absurd h (by decide)) hlaid, hend', hnum⟩
  | @call p m q name inner rest hfol hc hinner hend hrest ihinner ih =>
    simp only [textOf_call, List.cons_append, List.append_assoc] at hchain hs hn
    have hopen : List.IsChain Knit ('(' :: (textOf inner ++ ')' :: (textOf rest ++ after))) :=
      hchain.right_of_append
    have hclose : ∀ c ∈ (')' :: (textOf rest ++ after)).head?, isOperandCharacter c = false ∧
        c ≠ '(' := by simp; decide
    obtain ⟨hword, hs⟩ : IsCalled v name ∧
        separateWords v [] false (textOf inner ++ ')' :: (textOf rest ++ after)) =
        .ok (textOf inner ++ ')' :: (textOf rest ++ u)) := by
      rcases separateWords_run hc.1 hc.2 hs with ⟨-, hw⟩ | ⟨hfirst, hw⟩
      · exact (separateWords_open_number hw).elim
      · obtain ⟨hcall, hs⟩ := separateWords_open (by simpa using hc.1) hw
        exact ⟨⟨⟨hfirst, hc.2, hchain.left_of_append.imp fun _ _ h => h.1⟩, by simpa using hcall⟩,
          hs⟩
    obtain ⟨-, position, inWord, points, hn⟩ := checkNumbers_append hn
    obtain ⟨hlaidInner, hs', hn'⟩ :=
      ihinner hclose hopen.tail (by simpa using head_ne_point_of_knit hopen (by decide))
        hs (checkNumbers_push (by decide) hn)
    have hafterChain : List.IsChain Knit (textOf rest ++ after) :=
      hopen.suffix ⟨'(' :: (textOf inner ++ [')']), by simp⟩
    obtain ⟨hlaid, hend', hnum⟩ :=
      ih hafter hafterChain (fun h => absurd rfl h) (separateWords_push (by decide) hs')
        (checkNumbers_push (by decide) hn')
    exact ⟨.call hfol ⟨hword, trivial⟩ hlaidInner (fun h => absurd h (by decide)) hlaid,
      hend', hnum⟩

end

theorem separateNumbers_none (within : Within) (t : Text) :
    separateNumbers none within t = separateNumbers (some '(') within t := by
  cases t <;> simp [separateNumbers, endsGroup]

theorem separateGroups_none (t : Text) : separateGroups none t = separateGroups (some '(') t := by
  cases t <;> simp [separateGroups, endsGroup]

/-- What may stand in a text that is in order. -/
def IsAllowed (c : Char) : Prop := c.isAlphanum = true ∨ isSpecial c = true

theorem IsAllowed.cases {c : Char} (h : IsAllowed c) :
    isOperandCharacter c = true ∨ isSign c = true ∨ c = '(' ∨ c = ')' := by
  rcases h with h | h
  · exact .inl (by simp [isOperandCharacter, h])
  · simp only [isSpecial, specialCharacters, List.contains_iff_mem, List.mem_cons, List.not_mem_nil,
      or_false] at h
    rcases h with rfl | rfl | rfl | rfl | rfl | rfl | rfl | rfl | rfl | rfl | rfl <;> decide

/-- The pieces of writing out the products. -/
structure Written (v : Vocabulary) (t n : Text) : Prop where
  arguments : checkArguments v [] [] (dropPoints t) = .ok ()
  numbers : checkNumbers 0 false 0
    (separateGroups none (separateNumbers none .neither (dropPoints t))) = .ok ()
  words : separateWords v [] false
    (separateGroups none (separateNumbers none .neither (dropPoints t))) = .ok n

theorem writeProducts_eq_ok {v : Vocabulary} {t n : Text} (h : writeProducts v t = .ok n) :
    Written v t n := by
  simp only [writeProducts, bind_eq_ok] at h
  obtain ⟨⟨⟩, harguments, ⟨⟩, hnumbers, hwords⟩ := h
  exact ⟨harguments, hnumbers, hwords⟩

theorem writeProducts_iff {v : Vocabulary} {t n : Text} :
    writeProducts v t = .ok n ↔ Written v t n := by
  refine ⟨writeProducts_eq_ok, fun h => ?_⟩
  rw [writeProducts, h.arguments, ok_bind]
  simp only [h.numbers, h.words, ok_bind]

theorem mem_of_dropPoints {t : Text} : ∀ c ∈ dropPoints t, c ∈ t :=
  dropPoints_induction (P := fun u => ∀ c ∈ u, c ∈ t) (fun left b right _ hl c hc => hl c (by
    simp only [List.mem_append, List.mem_cons] at hc ⊢
    tauto)) fun _ hc => hc

section

variable {v : Vocabulary} {t n : Text} (h : Written v t n)
include h

theorem Written.isBalanced (hb : isBalanced t = true) : isBalanced n = true := by
  have hdrop : Abacus.isBalanced (dropPoints t) = true :=
    dropPoints_induction (P := fun t => Abacus.isBalanced t = true) (fun left b right _ hl => by
      rwa [Abacus.isBalanced, isBalancedFrom_congr (u := left ++ b :: right)
        (by simp [parentheses])] at hl) hb
  rw [Abacus.isBalanced, (starred_separateWords h.words).isBalancedFrom,
    (starred_separateGroups _ _).isBalancedFrom, isBalancedFrom_separateNumbers]
  exact hdrop

theorem Written.mem {c : Char} (hc : c ∈ n) : c = '*' ∨ c = '0' ∨ c ∈ t := by
  rcases (starred_separateWords h.words).mem hc with hc | hc
  · exact .inl hc
  rcases (starred_separateGroups _ _).mem hc with hc | hc
  · exact .inl hc
  rcases mem_separateNumbers hc with hc | hc | hc
  · exact .inl hc
  · exact .inr (.inl hc)
  · exact .inr (.inr (mem_of_dropPoints c hc))

theorem Written.knit : List.IsChain Knit ('(' :: n) := by
  refine (starred_separateWords h.words).knit ?_
  rw [separateGroups_none, separateNumbers_none]
  exact isChain_separateGroups (isChain_separateNumbers (fun h => absurd rfl h) _)

/-- A text with its products written out has a layout of numbers, words and calls. -/
theorem Written.exists_layout (hb : Abacus.isBalanced t = true) (ht : ∀ c ∈ t, IsAllowed c) :
    ∃ items q, textOf items = n ∧
      Laid (.leveled IsAtom (IsCalled v) fun _ => True) '(' items q := by
  have hallowed : ∀ c ∈ n, IsAllowed c := fun c hc => by
    rcases h.mem hc with rfl | rfl | hc
    · exact .inr (by decide)
    · exact .inl (by decide)
    · exact ht c hc
  obtain ⟨items, q, rfl, hplain⟩ := Abacus.exists_layout (Nested.of_isBalanced (h.isBalanced hb))
    (fun c hc => (hallowed c hc).cases) (h.knit.imp fun _ _ hk => hk.2)
  have hself := separateWords_self h.words
  have hnumbers : checkNumbers 0 false 0 (textOf items) = .ok () :=
    (starred_separateWords h.words).checkNumbers h.numbers
  obtain ⟨hlaid, -⟩ :=
    hplain.worded (u := []) (show ∀ c ∈ ([] : Text).head?, _ by simp) (by simpa using h.knit.tail)
      (fun _ => by simpa using head_ne_point_of_knit h.knit (by decide)) (by simpa using hself)
      (by simpa using hnumbers)
  exact ⟨items, q, rfl, hlaid⟩

end

end Abacus
