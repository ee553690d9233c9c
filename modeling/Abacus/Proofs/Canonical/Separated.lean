import Abacus.Proofs.Canonical.EmptyGroups

/-! In a text that is in order every product is written out already. -/

namespace Abacus

section Numbers

variable {v : Vocabulary} {level : List Item → Prop} {p q a : Char} {within : Within}
  {items : List Item} {t : Text}

theorem separateNumbers_push {c : Char} (hop : isOperandCharacter c = false)
    (hopen : c ≠ '(' ∨ within ≠ .number) (previous : Option Char) (rest : Text) :
    separateNumbers previous within (c :: rest) = c :: separateNumbers (some c) .neither rest := by
  obtain ⟨hrun, hname⟩ := not_operand_iff.mp hop
  obtain ⟨hdigit, hpoint⟩ := not_or.mp hrun
  rw [separateNumbers, if_neg hdigit, if_neg hpoint]
  split
  · next hc => rw [if_neg (hopen.resolve_left (not_not_intro hc))]
  · rfl

theorem exists_separateNumbers_run (within : Within) (ht : ∀ c ∈ t, isOperandCharacter c = true)
    (hchain : List.IsChain AfterDigit (a :: t)) (hc : a ≠ ')') (hf : a ≠ '!') :
    ∃ b after, ('.' ∉ t → within = .word → after = .word) ∧
      ∀ rest, separateNumbers (some a) within (t ++ rest) =
        t ++ separateNumbers (some b) after rest := by
  induction t generalizing a within with
  | nil => exact ⟨a, within, fun _ h => h, fun _ => rfl⟩
  | cons c t ih =>
    have hop := ht c List.mem_cons_self
    have hnext (within : Within) :=
      ih within (fun d hd => ht d (List.mem_cons_of_mem _ hd)) hchain.tail
        (ne_close_of_operand hop) (head_ne_of_operand hop (by decide))
    have hends : endsGroup (some a) = false := by simp [endsGroup, hc, hf]
    rcases isOperandCharacter_iff.mp hop with hd | rfl | hs
    · by_cases hw : within = .word
      · obtain ⟨b, after, hafter, heq⟩ := hnext .word
        refine ⟨b, after, fun hdot _ => hafter (fun hm => hdot (List.mem_cons_of_mem _ hm)) rfl,
          fun rest => ?_⟩
        rw [List.cons_append, separateNumbers, if_pos hd, if_pos hw, heq]
        rfl
      · obtain ⟨b, after, hafter, heq⟩ := hnext .number
        refine ⟨b, after, fun _ h => absurd h hw, fun rest => ?_⟩
        rw [List.cons_append, separateNumbers, if_pos hd, if_neg hw, if_neg (by simp [hends]), heq]
        rfl
    · have hdigit : a.isDigit = true := (List.isChain_cons_cons.mp hchain).1 rfl
      obtain ⟨b, after, hafter, heq⟩ := hnext .number
      refine ⟨b, after, fun hdot => absurd List.mem_cons_self hdot, fun rest => ?_⟩
      rw [List.cons_append, separateNumbers, if_neg (by decide), if_pos rfl,
        if_neg (by simp [hends]), if_pos (by simpa using hdigit), heq]
      rfl
    · obtain ⟨b, after, hafter, heq⟩ := hnext .word
      refine ⟨b, after, fun hdot _ => hafter (fun hm => hdot (List.mem_cons_of_mem _ hm)) rfl,
        fun rest => ?_⟩
      have hd : ¬ c.isDigit = true := fun hd => by
        rw [isNameStart_digit hd] at hs
        cases hs
      rw [List.cons_append, separateNumbers, if_neg hd, if_neg (ne_of_nameStart hs (by decide)),
        if_neg (ne_of_nameStart hs (by decide)), if_pos hs, heq]
      rfl

theorem Laid.separateNumbers (hv : v.Identified)
    (h : Laid (.leveled IsAtom (IsCalled v) level) p items q) (within : Within)
    (ha : p ≠ ')' → a = p ∧ within = .neither) :
    ∃ b after, ∀ rest, (∀ c ∈ rest.head?, c = ')') →
      separateNumbers (some a) within (textOf items ++ rest) =
        textOf items ++ separateNumbers (some b) after rest := by
  induction h generalizing a within with
  | nil => exact ⟨a, within, fun _ _ => rfl⟩
  | @sign p c q rest hs _ _ ih =>
    obtain ⟨b, after, heq⟩ := ih (a := c) .neither fun _ => ⟨rfl, rfl⟩
    refine ⟨b, after, fun rest hrest => ?_⟩
    rw [textOf_sign, List.cons_append,
      separateNumbers_push (not_operand_of_sign hs) (.inl (ne_open_of_sign hs)), heq rest hrest]
    rfl
  | @run p q t rest hf ht _ ih =>
    obtain ⟨rfl, rfl⟩ := ha (hf rfl).1
    have hchain : List.IsChain AfterDigit (a :: t) := by
      have hstart : List.IsChain AfterDigit (a :: (t ++ [])) :=
        afterDigit_append ht.afterDigit.1 ht.afterDigit.2 (.singleton _)
      simpa using hstart
    obtain ⟨b, after, -, hrun⟩ :=
      exists_separateNumbers_run .neither ht.loose.2 hchain (hf rfl).1 (hf rfl).2
    obtain ⟨b', after', heq⟩ := ih (a := b) after fun h => absurd rfl h
    refine ⟨b', after', fun rest hrest => ?_⟩
    rw [textOf_run, List.append_assoc, hrun, heq rest hrest, List.append_assoc]
  | @group p m q inner rest hf hg _ _ _ ihinner ih =>
    obtain ⟨rfl, rfl⟩ := ha (hf rfl).1
    obtain ⟨b, after, hin⟩ := ihinner (a := '(') .neither fun _ => ⟨rfl, rfl⟩
    obtain ⟨b', after', heq⟩ := ih (a := ')') .neither fun h => absurd rfl h
    refine ⟨b', after', fun rest hrest => ?_⟩
    simp only [textOf_group, List.cons_append, List.append_assoc]
    rw [separateNumbers_push (by decide) (.inr (by decide)), hin _ (by simp),
      separateNumbers_push (by decide) (.inl (by decide)), heq rest hrest]
  | @call p m q name inner rest hf hc _ _ _ ihinner ih =>
    obtain ⟨rfl, rfl⟩ := ha (hf rfl).1
    obtain ⟨c, name, rfl, hs⟩ := hc.1.1.first
    have hop := hc.1.1.characters c List.mem_cons_self
    obtain ⟨b, after, hword, hrun⟩ := exists_separateNumbers_run (a := c) .word
      (fun d hd => hc.1.1.characters d (List.mem_cons_of_mem _ hd)) hc.1.1.points
      (ne_close_of_operand hop) (head_ne_of_operand hop (by decide))
    obtain rfl := hword (fun hm => hc.1.no_point hv (List.mem_cons_of_mem _ hm)) rfl
    obtain ⟨b₁, after₁, hin⟩ := ihinner (a := '(') .neither fun _ => ⟨rfl, rfl⟩
    obtain ⟨b₂, after₂, heq⟩ := ih (a := ')') .neither fun h => absurd rfl h
    refine ⟨b₂, after₂, fun rest hrest => ?_⟩
    have hd : ¬ c.isDigit = true := fun hd => by
      rw [isNameStart_digit hd] at hs
      cases hs
    simp only [textOf_call, List.cons_append, List.append_assoc]
    rw [Abacus.separateNumbers, if_neg hd, if_neg (ne_of_nameStart hs (by decide)),
      if_neg (ne_of_nameStart hs (by decide)), if_pos hs, hrun,
      separateNumbers_push (by decide) (.inr (by decide)), hin _ (by simp),
      separateNumbers_push (by decide) (.inl (by decide)), heq rest hrest]

theorem Laid.closed (h : Laid (.leveled IsAtom (IsCalled v) level) p items q) (ha : p ≠ ')' → a = p)
    {after : Text} (hafter : ∀ c ∈ after.head?, c = ')') (hchain : List.IsChain Closed after) :
    List.IsChain Closed (a :: (textOf items ++ after)) := by
  have hfree {a b : Char} (hc : a ≠ ')') (hf : a ≠ '!') : Closed a b :=
    fun h => absurd h (by simp [hc, hf])
  have hrun {t rest : Text} {a : Char} (ht : ∀ c ∈ t, isOperandCharacter c = true) (hc : a ≠ ')')
      (hf : a ≠ '!') (hrest : ∀ b, b ≠ ')' → b ≠ '!' → List.IsChain Closed (b :: rest)) :
        List.IsChain Closed (a :: (t ++ rest)) := by
    induction t generalizing a with
    | nil => exact hrest a hc hf
    | cons c t ih =>
      have hop := ht c List.mem_cons_self
      exact .cons_cons (hfree hc hf)
        (ih (fun d hd => ht d (List.mem_cons_of_mem _ hd)) (ne_close_of_operand hop)
          (head_ne_of_operand hop (by decide)))
  induction h generalizing a after with
  | nil =>
    cases after with
    | nil => exact .singleton a
    | cons c after =>
      obtain rfl : c = ')' := hafter c rfl
      exact .cons_cons (fun _ => by decide) hchain
  | @sign p c q rest hs _ _ ih =>
    exact .cons_cons (fun _ => ⟨not_operand_of_sign hs, ne_open_of_sign hs⟩)
      (by simpa using ih (fun _ => rfl) hafter hchain)
  | run hf ht _ ih =>
    obtain rfl := ha (hf rfl).1
    rw [textOf_run, List.append_assoc]
    exact hrun ht.loose.2 (hf rfl).1 (hf rfl).2 fun b _ _ =>
      ih (fun h => absurd rfl h) hafter hchain
  | group hf _ _ _ _ ihinner ih =>
    obtain rfl := ha (hf rfl).1
    simp only [textOf_group, List.cons_append, List.append_assoc]
    exact .cons_cons (hfree (hf rfl).1 (hf rfl).2)
      (ihinner (fun _ => rfl) (by simp) (ih (fun h => absurd rfl h) hafter hchain))
  | call hf hc _ _ _ ihinner ih =>
    obtain rfl := ha (hf rfl).1
    simp only [textOf_call, List.cons_append, List.append_assoc]
    exact hrun hc.1.loose.2 (hf rfl).1 (hf rfl).2 fun b hb hb' => .cons_cons (hfree hb hb')
      (ihinner (fun _ => rfl) (by simp) (ih (fun h => absurd rfl h) hafter hchain))

theorem separateGroups_eq_self (h : List.IsChain Closed (a :: t)) :
    separateGroups (some a) t = t := by
  induction t generalizing a with
  | nil => rfl
  | cons c t ih =>
    obtain ⟨hac, ht⟩ := List.isChain_cons_cons.mp h
    have hnot : ¬ ((c = '(' ∨ isNameStart c = true) ∧ endsGroup (some a) = true) := by
      rintro ⟨hc, hends⟩
      obtain ⟨hop, hopen⟩ := hac (by simpa [endsGroup] using hends)
      rcases hc with hc | hc
      · exact hopen hc
      · rw [isOperandCharacter_iff.mpr (.inr (.inr hc))] at hop
        cases hop
    rw [separateGroups, if_neg hnot, ih ht]

theorem InOrder.closed (h : InOrder v level t) : List.IsChain Closed ('(' :: t) := by
  obtain ⟨items, rfl, -, q, hq⟩ := h
  simpa using hq.closed (a := '(') (fun _ => rfl)
    (show ∀ c ∈ ([] : Text).head?, c = ')' by simp) .nil

end Numbers

/-- A number, or a word that is not callable. -/
def IsValue (v : Vocabulary) (t : Text) : Prop := IsAtom t ∧ v.isCallable t = false

section Words

variable {v : Vocabulary} {level : List Item → Prop} {p q : Char} {items : List Item} {u : Text}

theorem IsNumber.not_callable (hv : v.Identified) {t : Text} (h : IsNumber t) :
    v.isCallable t = false := by
  rw [← Bool.not_eq_true]
  intro hc
  obtain ⟨c, rest, rfl, hd⟩ := h.first
  have hid := hv _ hc
  simp only [isIdentifier, Bool.and_eq_true, Bool.or_eq_true, beq_iff_eq] at hid
  have hs := isNameStart_digit hd
  simp only [isNameStart, Char.isAlpha, Bool.or_eq_false_iff, beq_eq_false_iff_ne] at hs
  rcases hid.1 with h | h
  · rw [hs.1.2] at h
    cases h
  · exact hs.2 h

theorem separateWords_skip {c : Char} (hop : isOperandCharacter c = false) (rest : Text) :
    separateWords v [] false (c :: rest) = (c :: ·) <$> separateWords v [] false rest := by
  have hnot := not_operand_iff.mp hop
  simp [separateWords, hnot.1, hnot.2]

/-- What separates the words of a layout leaves it as it is; the words that are no calls are not
callable. -/
theorem Laid.separateWords (hv : v.Identified)
    (h : Laid (.leveled IsAtom (IsCalled v) level) p items q) {after : Text}
    (hafter : ∀ c ∈ after.head?, c = ')')
    (hs : separateWords v [] false (textOf items ++ after) = .ok u) :
    ∃ u', u = textOf items ++ u' ∧ separateWords v [] false after = .ok u' ∧
      Laid (.leveled (IsValue v) (IsCalled v) level) p items q := by
  induction h generalizing after u with
  | nil => exact ⟨u, rfl, hs, .nil _⟩
  | @sign p c q rest hc hf _ ih =>
    rw [textOf_sign, List.cons_append, separateWords_skip (not_operand_of_sign hc)] at hs
    obtain ⟨w, hw, rfl⟩ := map_eq_ok.mp hs
    obtain ⟨u', rfl, hu', hlaid⟩ := ih hafter hw
    exact ⟨u', by simp, hu', .sign hc hf hlaid⟩
  | @run p q t rest hf ht hrest ih =>
    have hplain : Laid .plain ')' rest q :=
      hrest.imp (fun _ _ h => h) (fun _ => IsAtom.loose) (fun _ _ => trivial) fun _ _ hc =>
        hc.1.loose
    have hclose : ∀ c ∈ (textOf rest ++ after).head?, isOperandCharacter c = false ∧ c ≠ '(' :=
      hplain.head_close fun c hc => by rw [hafter c hc]; decide
    rw [textOf_run, List.append_assoc] at hs
    obtain ⟨w, hw, rfl, hvalue⟩ : ∃ w, separateWords v [] false (textOf rest ++ after) = .ok w ∧
        u = t ++ w ∧
        v.isCallable t = false := by
      rcases ht with ht | ht
      · obtain ⟨c, r, rfl, -⟩ := ht.first
        rw [separateWords_digits ht.digits (.inl (by simp))] at hs
        obtain ⟨w, hw, rfl⟩ := map_eq_ok.mp hs
        exact ⟨w, (separateWords_close hclose hw).1, rfl, ht.not_callable hv⟩
      · obtain ⟨c, r, rfl, hc⟩ := ht.first
        have hd : ¬ (c.isDigit = true ∨ c = '.') := by
          rintro (hd | rfl)
          · rw [isNameStart_digit hd] at hc
            cases hc
          · exact absurd hc (by decide)
        have hstep : Abacus.separateWords v [] false (c :: r ++ (textOf rest ++ after)) =
            (c :: ·) <$> Abacus.separateWords v [c] false (r ++ (textOf rest ++ after)) := by
          simp [Abacus.separateWords, hd, hc]
        rw [hstep, separateWords_word (fun d hd => ht.characters d (List.mem_cons_of_mem _ hd))
          (by simp)] at hs
        obtain ⟨w, hw, rfl⟩ := map_eq_ok.mp hs
        obtain ⟨x, hx, rfl⟩ := map_eq_ok.mp hw
        obtain ⟨hx, hnot⟩ := separateWords_close hclose hx
        exact ⟨x, hx, rfl, by simpa using hnot (by simp)⟩
    obtain ⟨u', rfl, hu', hlaid⟩ := ih hafter hw
    exact ⟨u', by simp, hu', .run hf ⟨ht, hvalue⟩ hlaid⟩
  | @group p m q inner rest hf hg _ hend _ ihinner ih =>
    simp only [textOf_group, List.cons_append, List.append_assoc] at hs
    rw [separateWords_skip (by decide)] at hs
    obtain ⟨w, hw, rfl⟩ := map_eq_ok.mp hs
    obtain ⟨x, rfl, hx, hlaidInner⟩ := ihinner (by simp) hw
    rw [separateWords_skip (by decide)] at hx
    obtain ⟨y, hy, rfl⟩ := map_eq_ok.mp hx
    obtain ⟨u', rfl, hu', hlaid⟩ := ih hafter hy
    exact ⟨u', by simp, hu', .group hf hg hlaidInner hend hlaid⟩
  | @call p m q name inner rest hf hc _ hend _ ihinner ih =>
    simp only [textOf_call, List.cons_append, List.append_assoc] at hs
    obtain ⟨w, hw, rfl⟩ : ∃ w,
        Abacus.separateWords v [] false (textOf inner ++ ')' :: (textOf rest ++ after)) = .ok w ∧
        u = name ++ '(' :: w := by
      obtain ⟨c, r, rfl, hstart⟩ := hc.1.1.first
      have hd : ¬ (c.isDigit = true ∨ c = '.') := by
        rintro (hd | rfl)
        · rw [isNameStart_digit hd] at hstart
          cases hstart
        · exact absurd hstart (by decide)
      have hstep (rest : Text) : Abacus.separateWords v [] false (c :: r ++ rest) =
          (c :: ·) <$> Abacus.separateWords v [c] false (r ++ rest) := by
        simp [Abacus.separateWords, hd, hstart]
      have hopen (rest : Text) : Abacus.separateWords v (r.reverse ++ [c]) false ('(' :: rest) =
          ('(' :: ·) <$> Abacus.separateWords v [] false rest := by
        have hcall : v.isCallable (r.reverse ++ [c]).reverse = true := by simpa using hc.1.2
        simp only [Abacus.separateWords, show isNameStart '(' = false by decide, hcall]
        simp
      rw [hstep, separateWords_word (fun d hd => hc.1.1.characters d (List.mem_cons_of_mem _ hd))
        (by simp), hopen] at hs
      obtain ⟨w, hw, rfl⟩ := map_eq_ok.mp hs
      obtain ⟨x, hx, rfl⟩ := map_eq_ok.mp hw
      obtain ⟨y, hy, rfl⟩ := map_eq_ok.mp hx
      exact ⟨y, hy, rfl⟩
    obtain ⟨x, rfl, hx, hlaidInner⟩ := ihinner (by simp) hw
    rw [separateWords_skip (by decide)] at hx
    obtain ⟨y, hy, rfl⟩ := map_eq_ok.mp hx
    obtain ⟨u', rfl, hu', hlaid⟩ := ih hafter hy
    exact ⟨u', by simp, hu', .call hf hc hlaidInner hend hlaid⟩

end Words

end Abacus
