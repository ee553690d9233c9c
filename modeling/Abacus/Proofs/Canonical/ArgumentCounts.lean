import Abacus.Proofs.Canonical.Separated

/-! The check of the commas goes over a layout level by level: outside calls there are none, and
every call has as many arguments as its name takes. -/

namespace Abacus

def commas (items : List Item) : Nat := (signs items).count ','

/-- How many arguments a call has that holds these items. -/
def argumentCount (items : List Item) : Nat := if items = [] then 0 else commas items + 1

/-- The frames after this many commas. -/
def withCommas (n : Nat) : List Frame → List Frame
  | .call name arity commas isEmpty :: outer => .call name arity (commas + n) isEmpty :: outer
  | frames => frames

/-- A comma may stand here. -/
def takesCommas : List Frame → Prop
  | .call .. :: _ => True
  | _ => False

/-- A canonical text: numbers, words that are not callable, groups that are not empty and hold no
comma, and calls with as many arguments as their names take. -/
def Rules.normal (v : Vocabulary) : Rules where
  follows p c := c = '(' → p ≠ ')' ∧ p ≠ '!'
  run := IsValue v
  group inner := Compact inner ∧ commas inner = 0
  call name inner := IsCalled v name ∧ Compact inner ∧
    ∃ arity, v.arity? name = some arity ∧ arity.admits (argumentCount inner) = true

section

variable {v : Vocabulary} {before after : Text} {frames : List Frame}

theorem arity?_isSome (v : Vocabulary) (name : Text) :
    (v.arity? name).isSome = v.isCallable name := by
  unfold Vocabulary.arity? Vocabulary.isCallable Registry.contains
  cases hl : v.library.find? name <;> simp

theorem arity?_nil (hv : v.Identified) : v.arity? [] = none := by
  have hnone := arity?_isSome v []
  rw [hv.nil] at hnone
  simpa using hnone

theorem commas_operand {x : Item} (hx : x.isOperand = true) (rest : List Item) :
    commas (x :: rest) = commas rest := by
  rw [commas, signs_operand hx, commas]

@[simp]
theorem withCommas_zero (frames : List Frame) : withCommas 0 frames = frames := by
  unfold withCommas
  split <;> rfl

theorem withCommas_withCommas (m n : Nat) (frames : List Frame) :
    withCommas n (withCommas m frames) = withCommas (m + n) frames := by
  cases frames with
  | nil => rfl
  | cons f outer => cases f <;> simp [withCommas, Nat.add_assoc]

theorem takesCommas_withCommas {n : Nat} :
    takesCommas (withCommas n frames) ↔ takesCommas frames := by
  cases frames with
  | nil => rfl
  | cons f outer => cases f <;> simp [withCommas, takesCommas]

theorem checkArguments_push {c : Char} {rest : Text} (ho : c ≠ '(') (hcomma : c ≠ ',')
    (hc : c ≠ ')') :
    checkArguments v before frames (c :: rest) = checkArguments v (c :: before) frames rest := by
  cases frames with
  | nil => simp [checkArguments, ho, hcomma, hc]
  | cons f outer => cases f <;> simp [checkArguments, ho, hcomma, hc]

theorem checkArguments_run {t rest : Text} (ht : ∀ c ∈ t, isOperandCharacter c = true) :
    checkArguments v before frames (t ++ rest) =
      checkArguments v (t.reverse ++ before) frames rest := by
  induction t generalizing before with
  | nil => rfl
  | cons c t ih =>
    have hop := ht c List.mem_cons_self
    rw [List.cons_append,
      checkArguments_push (ne_open_of_operand hop) (head_ne_of_operand hop (by decide))
        (ne_close_of_operand hop), ih fun d hd => ht d (List.mem_cons_of_mem _ hd)]
    simp

theorem checkArguments_comma {rest : Text}
    (h : checkArguments v before frames (',' :: rest) = .ok ()) :
    takesCommas frames ∧ checkArguments v (',' :: before) (withCommas 1 frames) rest = .ok () := by
  cases frames with
  | nil => simp [checkArguments] at h
  | cons f outer =>
    cases f with
    | group => simp [checkArguments] at h
    | call name arity n isEmpty => exact ⟨trivial, by simpa [checkArguments, withCommas] using h⟩

theorem checkArguments_open {rest : Text} : checkArguments v before frames ('(' :: rest) =
    checkArguments v ('(' :: before) (.opened v before rest :: frames) rest := by
  cases frames with
  | nil => simp [checkArguments]
  | cons f outer => cases f <;> simp [checkArguments]

theorem checkArguments_close_group {rest : Text} :
    checkArguments v before (.group :: frames) (')' :: rest) =
    checkArguments v (')' :: before) frames rest := by
  simp [checkArguments]

theorem checkArguments_close_call {rest name : Text} {arity : Arity} {n : Nat} {isEmpty : Bool}
    (h : checkArguments v before (.call name arity n isEmpty :: frames) (')' :: rest) = .ok ()) :
    arity.admits (if isEmpty then 0 else n + 1) = true ∧
      checkArguments v (')' :: before) frames rest = .ok () := by
  rw [checkArguments, if_neg (by decide), if_neg (by decide), if_pos rfl] at h
  by_cases hadmits : arity.admits (if isEmpty then 0 else n + 1) = true
  · exact ⟨hadmits, by simpa [hadmits] using h⟩
  · simp [hadmits] at h

theorem Loose.head_eq_close {items : List Item} (h : Loose items) (rest : Text) :
    ((textOf items ++ ')' :: rest).head? == some ')') = decide (items = []) := by
  obtain ⟨q, hq⟩ := h
  by_cases hne : items = []
  · simp [hne]
  · obtain ⟨c, t, htext, hc⟩ := hq.textOf_eq_cons hne
    simp [htext, hne, hc]

theorem Laid.checkArguments {p q : Char} {items : List Item} (hv : v.Identified)
    (h : Laid (.leveled (IsValue v) (IsCalled v) Compact) p items q)
    (hb : p ≠ ')' → ∀ c ∈ before.head?, isOperandCharacter c = false)
    (hok : Abacus.checkArguments v before frames (textOf items ++ after) = .ok ()) :
    Laid (.normal v) p items q ∧ (commas items ≠ 0 → takesCommas frames) ∧
      Abacus.checkArguments v ((textOf items).reverse ++ before) (withCommas (commas items) frames)
        after = .ok () := by
  induction h generalizing before frames after with
  | nil => exact ⟨.nil _, fun h => absurd rfl h, by simpa [commas, signs] using hok⟩
  | @sign p c q rest hs hf _ ih =>
    have hstop : c ≠ ')' → ∀ d ∈ (c :: before).head?, isOperandCharacter d = false :=
      fun _ => by simpa using not_operand_of_sign hs
    rw [textOf_sign, List.cons_append] at hok
    by_cases hcomma : c = ','
    · subst hcomma
      obtain ⟨htakes, hok⟩ := checkArguments_comma hok
      obtain ⟨hlaid, -, hrest⟩ := ih hstop hok
      have hcount : commas (.sign ',' :: rest) = 1 + commas rest := by simp [commas, Nat.add_comm]
      refine ⟨.sign hs hf hlaid, fun _ => htakes, ?_⟩
      rw [withCommas_withCommas] at hrest
      rw [hcount]
      simpa using hrest
    · rw [checkArguments_push (ne_open_of_sign hs) hcomma (ne_close_of_sign hs)] at hok
      obtain ⟨hlaid, htakes, hrest⟩ := ih hstop hok
      have hcount : commas (.sign c :: rest) = commas rest := by
        simp [commas, List.count_cons_of_ne hcomma]
      rw [hcount]
      exact ⟨.sign hs hf hlaid, htakes, by simpa using hrest⟩
  | @run p q t rest hf ht _ ih =>
    rw [textOf_run, List.append_assoc, checkArguments_run ht.1.loose.2] at hok
    obtain ⟨hlaid, htakes, hrest⟩ := ih (fun h => absurd rfl h) hok
    exact ⟨.run hf ht hlaid, htakes, by simpa [commas_operand (x := .run t) rfl] using hrest⟩
  | @group p m q inner rest hf hg _ hend _ ihinner ih =>
    have hopened (rest : Text) : Frame.opened v before rest = .group := by
      rw [Frame.opened, nameBefore_of_stop (hb (hf rfl).1), arity?_nil hv]
    simp only [textOf_group, List.cons_append, List.append_assoc] at hok
    rw [checkArguments_open, hopened] at hok
    obtain ⟨hinner, htakes, hok⟩ := ihinner (fun _ => by simp [isOperandCharacter]) hok
    have hnone : commas inner = 0 := by
      by_contra hne
      exact htakes hne
    rw [hnone, withCommas_zero, checkArguments_close_group] at hok
    obtain ⟨hlaid, htakes, hrest⟩ := ih (fun h => absurd rfl h) hok
    exact ⟨.group hf ⟨hg, hnone⟩ hinner hend hlaid, htakes,
        by simpa [commas_operand (x := .group inner) rfl] using hrest⟩
  | @call p m q name inner rest hf hc hinnerLaid hend _ ihinner ih =>
    obtain ⟨arity, harity⟩ : ∃ arity, v.arity? name = some arity := by
      rw [← Option.isSome_iff_exists, arity?_isSome]
      exact hc.1.2
    have hopened (rest : Text) : Frame.opened v (name.reverse ++ before) rest =
        .call name arity 0 (rest.head? == some ')') := by
      rw [Frame.opened, hc.1.nameBefore hv (hb (hf rfl).1), harity]
    simp only [textOf_call, List.cons_append, List.append_assoc] at hok
    rw [checkArguments_run hc.1.1.characters, checkArguments_open, hopened] at hok
    obtain ⟨hinner, -, hok⟩ := ihinner (fun _ => by simp [isOperandCharacter]) hok
    obtain ⟨hadmits, hok⟩ := checkArguments_close_call hok
    have hcount : (if (textOf inner ++ ')' :: (textOf rest ++ after)).head? == some ')' then 0
        else 0 + commas inner + 1) = argumentCount inner := by
      have hloose : Loose inner := hinnerLaid.toLoose (fun _ h => h.1.loose) fun _ => IsCalled.loose
      rw [hloose.head_eq_close, argumentCount]
      by_cases hne : inner = [] <;> simp [hne]
    rw [hcount] at hadmits
    obtain ⟨hlaid, htakes, hrest⟩ := ih (fun h => absurd rfl h) hok
    exact ⟨.call hf ⟨hc.1, hc.2, arity, harity, hadmits⟩ hinner hend hlaid, htakes,
        by simpa [commas_operand (x := .call name inner) rfl] using hrest⟩

end

end Abacus
