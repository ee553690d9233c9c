import Abacus.Proofs.Reading.Settled

/-! Tidying leaves a text as it is whose layout is a phrase: there is no empty group in it, its
products are written out, and its calls have as many arguments as their names take. -/

namespace Abacus

section

variable {v : Vocabulary} {p q : Char} {items : List Item} {before after : Text}
  {frames : List Frame}

theorem Laid.phrased_leveled (hv : v.Identified) (h : Laid (.phrased v) p items q) :
    Laid (.leveled (IsValue v) (IsCalled v) fun _ => True) p items q :=
  h.imp (fun _ _ hf => hf.1) (fun _ ht => ⟨ht.atom, ht.callable⟩) (fun _ _ => trivial)
    fun _ _ hc => ⟨⟨(hv.isWord hc.1).1, hc.1⟩, trivial⟩

theorem Laid.phrased_dropEmptyGroup? (hv : v.Identified) (h : Laid (.phrased v) p items q)
    (hb : p ≠ ')' → ∀ c ∈ before.head?, isOperandCharacter c = false) :
    Abacus.dropEmptyGroup? v before (textOf items ++ after) =
      (Abacus.dropEmptyGroup? v ((textOf items).reverse ++ before) after).map
        (textOf items ++ ·) := by
  induction h generalizing before after with
  | nil => simp
  | @sign p c q rest hs _ _ ih =>
    rw [textOf_sign, List.cons_append, dropEmptyGroup?_push (.inl (ne_open_of_sign hs)),
      ih fun _ => by simpa using not_operand_of_sign hs]
    simp [Function.comp_def]
  | @run p q t rest _ ht _ ih =>
    rw [textOf_run, List.append_assoc, dropEmptyGroup?_run ht.atom.loose.2,
      ih fun h => absurd rfl h]
    simp [Function.comp_def]
  | @group p m q inner rest _ hg hinner _ _ ihinner ih =>
    obtain ⟨k, hk⟩ := hinner.phrased_loose hv
    obtain ⟨c, r, hc, hclose⟩ := hk.textOf_eq_cons hg.1
    simp only [textOf_group, List.cons_append, List.append_assoc]
    rw [dropEmptyGroup?_push (.inr (by rw [hc]; simpa using hclose)),
      ihinner fun _ => by simp [isOperandCharacter], dropEmptyGroup?_push (.inl (by decide)),
      ih fun h => absurd rfl h]
    simp [Function.comp_def]
  | @call p m q name inner rest hf hc hinner _ _ ihinner ih =>
    have hcalled : IsCalled v name := ⟨(hv.isWord hc.1).1, hc.1⟩
    have hname : v.isCallable (nameBefore (name.reverse ++ before)) = true := by
      rw [hcalled.nameBefore hv (hb (hf.1 rfl).1)]
      exact hc.1
    simp only [textOf_call, List.cons_append, List.append_assoc]
    rw [dropEmptyGroup?_run hcalled.loose.2]
    by_cases hne : inner = []
    · subst hne
      rw [textOf_nil, List.nil_append, dropEmptyGroup?_call hname, ih fun h => absurd rfl h]
      simp [Function.comp_def]
    · obtain ⟨k, hk⟩ := hinner.phrased_loose hv
      obtain ⟨c, r, hc', hclose⟩ := hk.textOf_eq_cons hne
      rw [dropEmptyGroup?_push (.inr (by rw [hc']; simpa using hclose)),
        ihinner fun _ => by simp [isOperandCharacter], dropEmptyGroup?_push (.inl (by decide)),
        ih fun h => absurd rfl h]
      simp [Function.comp_def]

theorem checkArguments_comma_eq (h : takesCommas frames) {rest : Text} :
    checkArguments v before frames (',' :: rest) =
      checkArguments v (',' :: before) (withCommas 1 frames) rest := by
  cases frames with
  | nil => cases h
  | cons f outer =>
    cases f with
    | group => cases h
    | call name arity n isEmpty => simp [checkArguments, withCommas]

theorem checkArguments_close_call_eq {name rest : Text} {arity : Arity} {n : Nat} {isEmpty : Bool}
    (h : arity.admits (if isEmpty then 0 else n + 1) = true) :
    checkArguments v before (.call name arity n isEmpty :: frames) (')' :: rest) =
      checkArguments v (')' :: before) frames rest := by
  rw [checkArguments, if_neg (by decide), if_neg (by decide), if_pos rfl]
  simp [h]

theorem Laid.phrased_checkArguments (hv : v.Identified) (h : Laid (.phrased v) p items q)
    (hb : p ≠ ')' → ∀ c ∈ before.head?, isOperandCharacter c = false)
    (hcommas : .sign ',' ∈ items → takesCommas frames) :
    Abacus.checkArguments v before frames (textOf items ++ after) =
      Abacus.checkArguments v ((textOf items).reverse ++ before) (withCommas (commas items) frames)
        after := by
  induction h generalizing before frames after with
  | nil => simp [commas, signs]
  | @sign p c q rest hs _ _ ih =>
    have hstop : c ≠ ')' → ∀ d ∈ (c :: before).head?, isOperandCharacter d = false :=
      fun _ => by simpa using not_operand_of_sign hs
    rw [textOf_sign, List.cons_append]
    by_cases hcomma : c = ','
    · subst hcomma
      have htakes := hcommas List.mem_cons_self
      have hcount : commas (.sign ',' :: rest) = 1 + commas rest := by simp [commas, Nat.add_comm]
      rw [checkArguments_comma_eq htakes, ih hstop fun _ => takesCommas_withCommas.mpr htakes,
        withCommas_withCommas, hcount]
      simp
    · have hcount : commas (.sign c :: rest) = commas rest := by
        simp [commas, List.count_cons_of_ne hcomma]
      rw [checkArguments_push (ne_open_of_sign hs) hcomma (ne_close_of_sign hs),
        ih hstop fun h => hcommas (List.mem_cons_of_mem _ h), hcount]
      simp
  | @run p q t rest _ ht _ ih =>
    rw [textOf_run, List.append_assoc, checkArguments_run ht.atom.loose.2,
      ih (fun h => absurd rfl h) fun h => hcommas (List.mem_cons_of_mem _ h),
      commas_operand (x := .run t) rfl]
    simp
  | @group p m q inner rest hf hg _ _ _ ihinner ih =>
    have hopened (rest : Text) : Frame.opened v before rest = .group := by
      rw [Frame.opened, nameBefore_of_stop (hb (hf.1 rfl).1), arity?_nil hv]
    simp only [textOf_group, List.cons_append, List.append_assoc]
    rw [checkArguments_open, hopened,
      ihinner (fun _ => by simp [isOperandCharacter]) fun h => absurd h hg.2,
      commas_eq_zero.mpr hg.2, withCommas_zero, checkArguments_close_group,
      ih (fun h => absurd rfl h) fun h => hcommas (List.mem_cons_of_mem _ h),
      commas_operand (x := .group inner) rfl]
    simp
  | @call p m q name inner rest hf hc hinner _ _ ihinner ih =>
    obtain ⟨hcallable, arity, harity, hcount⟩ := hc
    have hcalled : IsCalled v name := ⟨(hv.isWord hcallable).1, hcallable⟩
    have hopened (rest : Text) : Frame.opened v (name.reverse ++ before) rest =
        .call name arity 0 (rest.head? == some ')') := by
      rw [Frame.opened, hcalled.nameBefore hv (hb (hf.1 rfl).1), harity]
    have hnumber : (if (textOf inner ++ ')' :: (textOf rest ++ after)).head? == some ')' then 0
        else 0 + commas inner + 1) = argumentCount inner := by
      rw [(hinner.phrased_loose hv).head_eq_close, argumentCount]
      by_cases hne : inner = [] <;> simp [hne]
    have hin (isEmpty : Bool) (after : Text) :
        Abacus.checkArguments v ('(' :: (name.reverse ++ before))
          (.call name arity 0 isEmpty :: frames) (textOf inner ++ after) = _ :=
      ihinner (fun _ => by simp [isOperandCharacter]) fun _ => trivial
    simp only [textOf_call, List.cons_append, List.append_assoc]
    rw [checkArguments_run hcalled.loose.2, checkArguments_open, hopened, hin, withCommas,
      checkArguments_close_call_eq (by rw [hnumber]; exact hcount),
      ih (fun h => absurd rfl h) fun h => hcommas (List.mem_cons_of_mem _ h),
      commas_operand (x := .call name inner) rfl]
    simp

theorem separateWords_close_eq {word rest : Text} {inNumber : Bool}
    (hrest : ∀ c ∈ rest.head?, isOperandCharacter c = false ∧ c ≠ '(')
    (hword : word ≠ [] → v.isCallable word.reverse = false) :
    separateWords v word inNumber rest = separateWords v [] false rest := by
  cases rest with
  | nil => by_cases hw : word = [] <;> simp [separateWords, hw, hword]
  | cons c rest =>
    obtain ⟨hop, hopen⟩ := hrest c rfl
    have hnot := not_operand_iff.mp hop
    by_cases hw : word = []
    · simp [separateWords, hnot.1, hnot.2, hw, hopen]
    · simp [separateWords, hnot.1, hnot.2, hw, hopen, hword hw]

theorem separateWords_isWord {t : Text} (ht : IsWord t) (rest : Text) :
    separateWords v [] false (t ++ rest) = (t ++ ·) <$> separateWords v t.reverse false rest := by
  obtain ⟨c, r, rfl, hc⟩ := ht.first
  have hd : ¬ (c.isDigit = true ∨ c = '.') := by
    rintro (hd | rfl)
    · rw [isNameStart_digit hd] at hc
      cases hc
    · exact absurd hc (by decide)
  have hstep : separateWords v [] false (c :: r ++ rest) =
      (c :: ·) <$> separateWords v [c] false (r ++ rest) := by
    simp [separateWords, hd, hc]
  rw [hstep, separateWords_word (fun d hd => ht.characters d (List.mem_cons_of_mem _ hd)) (by simp)]
  simp [Functor.map_map]

theorem Laid.phrased_separateWords (hv : v.Identified) (h : Laid (.phrased v) p items q)
    (hafter : ∀ c ∈ after.head?, c = ')') :
    Abacus.separateWords v [] false (textOf items ++ after) =
      (textOf items ++ ·) <$> Abacus.separateWords v [] false after := by
  induction h generalizing after with
  | nil => simp
  | sign hs _ _ ih =>
    rw [textOf_sign, List.cons_append, separateWords_skip (not_operand_of_sign hs), ih hafter]
    simp [Functor.map_map]
  | @run p q t rest _ ht hrest ih =>
    have hclose : ∀ c ∈ (textOf rest ++ after).head?, isOperandCharacter c = false ∧ c ≠ '(' :=
      (hrest.phrased_plain hv).head_close fun c hc => by rw [hafter c hc]; decide
    rw [textOf_run, List.append_assoc]
    rcases ht.atom with hnumber | hword
    · rw [separateWords_digits hnumber.digits (.inl ht.atom.loose.1),
        separateWords_close_eq hclose (by simp), ih hafter]
      simp [Functor.map_map]
    · rw [separateWords_isWord hword, separateWords_close_eq hclose (by simp [ht.callable]),
        ih hafter]
      simp [Functor.map_map]
  | group _ _ _ _ _ ihinner ih =>
    simp only [textOf_group, List.cons_append, List.append_assoc]
    rw [separateWords_skip (by decide), ihinner (by simp), separateWords_skip (by decide),
      ih hafter]
    simp [Functor.map_map]
  | @call _ _ _ name inner rest _ hc _ _ _ ihinner ih =>
    have hword := (hv.isWord hc.1).1
    have hopen (rest : Text) : Abacus.separateWords v name.reverse false ('(' :: rest) =
        ('(' :: ·) <$> Abacus.separateWords v [] false rest := by
      have hne : name ≠ [] := (IsAtom.loose (.inr hword)).1
      simp [Abacus.separateWords, show isNameStart '(' = false by decide, hc.1, hne]
    simp only [textOf_call, List.cons_append, List.append_assoc]
    rw [separateWords_isWord hword, hopen, ihinner (by simp), separateWords_skip (by decide),
      ih hafter]
    simp [Functor.map_map]

theorem checkNumbers_eq_ok_push {position points : Nat} {inWord : Bool} {c : Char} {rest : Text}
    (hop : isOperandCharacter c = false) (h : checkNumbers 0 false 0 rest = .ok ()) :
    checkNumbers position inWord points (c :: rest) = .ok () := by
  rw [checkNumbers_of_stop hop]
  exact (Starred.refl rest).checkNumbers h

theorem checkNumbers_eq_ok_close {position points : Nat} {inWord : Bool} {rest : Text}
    (hrest : ∀ c ∈ rest.head?, isOperandCharacter c = false)
    (h : checkNumbers 0 false 0 rest = .ok ()) :
    checkNumbers position inWord points rest = .ok () := by
  cases rest with
  | nil => rfl
  | cons c rest =>
    refine checkNumbers_eq_ok_push (hrest c rfl) ?_
    exact checkNumbers_push (hrest c rfl) h

theorem checkNumbers_eq_ok_append {t rest : Text} {position points : Nat} {inWord : Bool}
    (h : checkNumbers position inWord points t = .ok ())
    (hrest : ∀ c ∈ rest.head?, isOperandCharacter c = false)
    (hok : checkNumbers 0 false 0 rest = .ok ()) :
    checkNumbers position inWord points (t ++ rest) = .ok () := by
  induction t generalizing position points inWord with
  | nil => exact checkNumbers_eq_ok_close hrest hok
  | cons c t ih =>
    obtain hnone | ⟨_, _, hstep⟩ := checkNumbers_step inWord points c
    · exact absurd h (hnone _ _)
    · rw [hstep] at h
      rw [List.cons_append, hstep]
      exact ih h

theorem Laid.phrased_checkNumbers (hv : v.Identified) (h : Laid (.phrased v) p items q)
    (hafter : ∀ c ∈ after.head?, c = ')') (hrest : Abacus.checkNumbers 0 false 0 after = .ok ()) :
    Abacus.checkNumbers 0 false 0 (textOf items ++ after) = .ok () := by
  induction h generalizing after with
  | nil => exact hrest
  | sign hs _ _ ih =>
    rw [textOf_sign, List.cons_append]
    exact checkNumbers_eq_ok_push (not_operand_of_sign hs) (ih hafter hrest)
  | @run p q t rest _ ht hlaid ih =>
    have hclose : ∀ c ∈ (textOf rest ++ after).head?, isOperandCharacter c = false ∧ c ≠ '(' :=
      (hlaid.phrased_plain hv).head_close fun c hc => by rw [hafter c hc]; decide
    rw [textOf_run, List.append_assoc]
    exact checkNumbers_eq_ok_append ht.numbers (fun c hc => (hclose c hc).1) (ih hafter hrest)
  | group _ _ _ _ _ ihinner ih =>
    simp only [textOf_group, List.cons_append, List.append_assoc]
    exact checkNumbers_eq_ok_push rfl
      (ihinner (by simp) (checkNumbers_eq_ok_push rfl (ih hafter hrest)))
  | call _ hc _ _ _ ihinner ih =>
    obtain ⟨hword, hpoint, -⟩ := hv.isWord hc.1
    simp only [textOf_call, List.cons_append, List.append_assoc]
    refine checkNumbers_eq_ok_append (checkNumbers_letters hword.characters hpoint)
      (by simp [isOperandCharacter]) ?_
    exact checkNumbers_eq_ok_push rfl
      (ihinner (by simp) (checkNumbers_eq_ok_push rfl (ih hafter hrest)))

theorem tidyFrom_eq_writeProducts {t u : Text} (hsettled : settleSigns t = .ok u)
    (hfull : dropEmptyGroup? v [] u = none) : tidyFrom v t = writeProducts v u := by
  rw [tidyFrom]
  split
  · next he => simp [hsettled] at he
  · next w hw =>
    obtain rfl : u = w := by simpa [hsettled] using hw
    split
    · next hsome => simp [hfull] at hsome
    · rfl

theorem IsPhrase.dropEmptyGroup? (hv : v.Identified) (h : IsPhrase v items) :
    Abacus.dropEmptyGroup? v [] (textOf items) = none := by
  obtain ⟨q, -, hlaid⟩ := h.laid
  have hall : Abacus.dropEmptyGroup? v [] (textOf items ++ []) = _ :=
    hlaid.phrased_dropEmptyGroup? hv (by simp)
  simpa [Abacus.dropEmptyGroup?] using hall

theorem IsPhrase.writeProducts (hv : v.Identified) (h : IsPhrase v items) :
    Abacus.writeProducts v (textOf items) = .ok (textOf items) := by
  obtain ⟨q, -, hlaid⟩ := h.laid
  have hatoms : Laid (.leveled IsAtom (IsCalled v) fun _ => True) '(' items q :=
    (hlaid.phrased_leveled hv).imp (fun _ _ hf => hf) (fun _ ht => ht.1) (fun _ hg => hg)
      fun _ _ hc => hc
  have harguments : checkArguments v [] [] (textOf items) = .ok () := by
    have hall : checkArguments v [] [] (textOf items ++ []) = _ :=
      hlaid.phrased_checkArguments hv (by simp) fun hc => absurd hc h.noComma
    simpa [commas_eq_zero.mpr h.noComma, checkArguments] using hall
  have hnumbers : separateNumbers none .neither (textOf items) = textOf items := by
    obtain ⟨b, after, heq⟩ := hatoms.separateNumbers hv (a := '(') .neither fun _ => ⟨rfl, rfl⟩
    have hall := heq [] (by simp)
    rw [separateNumbers_none]
    simpa [separateNumbers] using hall
  have hgroups : separateGroups none (textOf items) = textOf items := by
    have hchain :=
      hatoms.closed (a := '(') (fun _ => rfl) (show ∀ c ∈ ([] : Text).head?, c = ')' by simp) .nil
    rw [separateGroups_none]
    exact separateGroups_eq_self (by simpa using hchain)
  have hdigits : checkNumbers 0 false 0 (textOf items) = .ok () := by
    have hall : checkNumbers 0 false 0 (textOf items ++ []) = .ok () :=
      hlaid.phrased_checkNumbers hv (by simp) rfl
    rwa [List.append_nil] at hall
  have hwords : separateWords v [] false (textOf items) = .ok (textOf items) := by
    have hall : separateWords v [] false (textOf items ++ []) = _ :=
      hlaid.phrased_separateWords hv (by simp)
    simpa [separateWords] using hall
  simp only [Abacus.writeProducts, dropPoints_eq_self (h.tidied hv).tail.left_of_append, harguments,
    hnumbers, hgroups, hdigits, hwords, ok_bind]

/-- A phrase is tidy. -/
theorem IsPhrase.tidy (hv : v.Identified) (h : IsPhrase v items) :
    Abacus.tidy v (textOf items) = .ok (textOf items) := by
  rw [Abacus.tidy, lowercase_withoutBlanks_eq_self (h.canonical hv),
    tidyFrom_eq_writeProducts (h.settleSigns hv) (h.dropEmptyGroup? hv), h.writeProducts hv]

end

end Abacus
