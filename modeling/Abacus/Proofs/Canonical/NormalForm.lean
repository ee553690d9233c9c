import Abacus.Proofs.Canonical.Places
import Abacus.Proofs.Workspace.WellFormed

/-! What a canonical text looks like, said about the text itself: where its signs, parentheses,
commas and words stand. -/

namespace Abacus

/-- What stands before a place in the innermost pair of parentheses around it, or in the whole
text. -/
def heldBefore (left : Text) : Text := (runWith ')' '(' (fun _ => false) 0 left.reverse).1.reverse

/-- What stands after a place in the innermost pair of parentheses around it, or in the whole
text. -/
def heldAfter (right : Text) : Text := (runWith '(' ')' (fun _ => false) 0 right).1

/-- The longest run of letters, digits, underscores and points that a text ends with. -/
def runAtEnd (t : Text) : Text := (t.reverse.takeWhile isOperandCharacter).reverse

/-- The arguments of a call that holds this text. -/
def argumentsIn (inside : Text) : List Text := if inside = [] then [] else splitAtTop ',' inside

/-- Letters, digits, underscores, points and whole groups, at least one of them. -/
structure IsOperand (t : Text) : Prop where
  ne_nil : t ≠ []
  nested : Nested '(' ')' (fun c => isOperandCharacter c = true) t

structure NormalForm (v : Vocabulary) (n : Text) : Prop where
  characters : ∀ c ∈ n, c.isLower = true ∨ c.isDigit = true ∨ c ∈ specialCharacters
  balanced : isBalanced n = true
  pairs : ∀ p ∈ forbiddenPairs, hasPair p.1 p.2 n = false
  minus : ∀ left right, n = left ++ '-' :: right → left = [] ∨ left.getLast? = some '('
  factorial : ∀ left right, n = left ++ '!' :: right →
    IsOperand (heldBefore left) ∧ heldAfter right = []
  power : ∀ left right, n = left ++ '^' :: right →
    IsOperand (heldBefore left) ∧ IsOperand (heldAfter right)
  opening : ∀ left right, n = left ++ '(' :: right →
    left = [] ∨ (∃ c ∈ ['(', ',', '+', '-', '*', '/', '^'], left.getLast? = some c) ∨
      v.isCallable (runAtEnd left) = true
  words : ∀ left word right, n = left ++ (word ++ right) →
    (∀ c ∈ left.getLast?, isOperandCharacter c = false) →
    (∀ c ∈ word, isOperandCharacter c = true) → (∀ c ∈ right.head?, isOperandCharacter c = false) →
    v.isCallable word = true → right.head? = some '('
  commas : ∀ left right, n = left ++ ',' :: right →
    ∃ before, left = before ++ '(' :: heldBefore left ∧ v.isCallable (runAtEnd before) = true
  arguments : ∀ left right arity, n = left ++ '(' :: right → v.arity? (runAtEnd left) = some arity →
    arity.admits (argumentsIn (heldAfter right)).length = true

section

variable {v : Vocabulary} {items level first last held : List Item}
  {before after left right t : Text} {c : Char} {x : Item}

theorem heldAfter_nested (h : Nested '(' ')' (fun _ => True) t)
    (hafter : ∀ c ∈ after.head?, c = ')') : heldAfter (t ++ after) = t := by
  have hrun : runWith '(' ')' (fun _ => false) 0 (t ++ after) = _ :=
    (h.mono fun _ _ => rfl).runWith_append (by decide) after
  rw [heldAfter, hrun]
  cases after with
  | nil => simp [runWith]
  | cons c after =>
    obtain rfl := hafter c rfl
    simp [runWith]

theorem heldBefore_nested (h : Nested '(' ')' (fun _ => True) t)
    (hbefore : ∀ c ∈ before.getLast?, c = '(') : heldBefore (before ++ t) = t := by
  have hrun : runWith ')' '(' (fun _ => false) 0 (t.reverse ++ before.reverse) = _ :=
    (h.reverse.mono fun _ _ => rfl).runWith_append (by decide) before.reverse
  rw [heldBefore, List.reverse_append, hrun]
  rcases List.eq_nil_or_concat' before with rfl | ⟨b, c, rfl⟩
  · simp [runWith]
  · obtain rfl := hbefore c (by simp)
    simp [runWith]

theorem IsLevel.loose (h : IsLevel v level) : Loose level := by
  obtain ⟨q, hq, -⟩ := h.laid
  have hloose : Laid .loose '(' level q :=
    hq.imp (fun _ _ _ => trivial) (fun _ h => h.1.loose) (fun _ _ => trivial) fun _ _ h => h.1.loose
  exact hloose.loose

theorem Held.last_before (h : Held v level before after) : ∀ c ∈ before.getLast?, c = '(' := by
  cases h with
  | whole => simp
  | group _ _ => simp
  | call _ _ _ _ =>
    rw [← List.append_assoc]
    simp

theorem Held.first_after (h : Held v level before after) : ∀ c ∈ after.head?, c = ')' := by
  cases h with
  | whole => simp
  | group _ _ => simp
  | call _ _ _ _ => simp

theorem Loose.run_operands (h : Loose (.run t :: items)) :
    ∀ c ∈ t, isOperandCharacter c = true := by
  obtain ⟨q, hq⟩ := h
  cases hq with
  | run _ ht _ => exact ht.2

theorem Loose.name_operands (h : Loose (.call t held :: items)) :
    ∀ c ∈ t, isOperandCharacter c = true := by
  obtain ⟨q, hq⟩ := h
  cases hq with
  | call _ hc _ _ _ => exact hc.2

/-- A sign stands in a level between what its innermost pair of parentheses holds before and after
it. -/
theorem Normal.sign_place (h : Normal v items) (hc : isSign c = true)
    (htext : textOf items = left ++ c :: right) :
    ∃ before first last after, IsLevel v (first ++ .sign c :: last) ∧
      Held v (first ++ .sign c :: last) before after ∧
      left = before ++ textOf first ∧ heldBefore left = textOf first ∧
          heldAfter right = textOf last := by
  obtain ⟨q, hq, -⟩ := h.laid
  cases hq.place htext with
  | @mk before after l r first last x _ hlevel hshows =>
    obtain ⟨his, hheld⟩ := h.isLevel.at h.held hlevel
    rw [List.nil_append, List.append_nil] at hheld
    have hparts := loose_append.mp his.loose
    cases hshows with
    | sign c =>
      refine ⟨before, first, last, after, his, hheld, by simp, ?_, ?_⟩
      · rw [List.append_nil]
        exact heldBefore_nested hparts.1.nested hheld.last_before
      · rw [List.nil_append]
        exact heldAfter_nested (loose_cons.mp hparts.2).2.nested hheld.first_after
    | run l c r =>
      exact absurd (hparts.2.run_operands c (by simp)) (by simp [not_operand_of_sign hc])
    | name l c r inner =>
      exact absurd (hparts.2.name_operands c (by simp)) (by simp [not_operand_of_sign hc])
    | opens | closes | opensCall | closesCall => exact absurd hc (by decide)

theorem isOperand_textOf (hloose : Loose items) (hops : Operands items) (hne : items ≠ []) :
    IsOperand (textOf items) where
  ne_nil := by
    obtain ⟨q, hq⟩ := hloose
    rwa [ne_eq, hq.textOf_eq_nil]
  nested := by
    obtain ⟨q, hq⟩ := hloose
    exact hq.nested (fun _ h => h) fun c hc => absurd hc (hops.sign_not_mem c)

theorem IsLevel.first_ne_nil (h : IsLevel v (first ++ .sign c :: last)) (hc : c ≠ '-') :
    first ≠ [] := by
  rintro rfl
  obtain ⟨q, hq, -⟩ := h.laid
  cases hq with
  | sign hs hf _ => exact hc (hf.minus (by decide) hs)

theorem IsLevel.last_ne_nil (h : IsLevel v (first ++ .sign c :: last)) (hc : c ∈ unaryPlaces) :
    last ≠ [] := by
  rintro rfl
  obtain ⟨q, hq, hend⟩ := h.laid
  obtain ⟨m, -, hlast⟩ := hq.exists_of_append
  cases hlast with
  | sign hs _ hnil =>
    cases hnil
    exact hend.ended (.inl rfl) (.inl (ne_open_of_sign hs)) hc

theorem signs_of_append {s : Char} (h : signs (first ++ .sign c :: last) = [s]) :
    s = c ∧ Operands first ∧ Operands last := by
  rw [signs_append, signs_sign] at h
  obtain ⟨h₁, h₂⟩ | ⟨h₁, h₂⟩ := List.append_eq_singleton_iff.mp h
  · obtain ⟨rfl, hlast⟩ := List.cons.inj h₂
    exact ⟨rfl, signs_eq_nil.mp h₁, signs_eq_nil.mp hlast⟩
  · cases h₂

theorem IsLevel.factorial (h : IsLevel v (first ++ .sign '!' :: last)) :
    IsOperand (textOf first) ∧ last = [] := by
  have hloose := loose_append.mp h.loose
  rcases afterNegatives_iff.mp h.shape.1 with ⟨hs, hend⟩ | hs | ⟨hnone, -⟩
  · obtain ⟨-, hfirst, hlast⟩ := signs_of_append hs
    refine ⟨isOperand_textOf hloose.1 hfirst (h.first_ne_nil (by decide)), ?_⟩
    rcases List.eq_nil_or_concat' last with rfl | ⟨others, x, rfl⟩
    · rfl
    · obtain rfl : x = .sign '!' := by simpa [List.getLast?_append, List.getLast?_cons] using hend
      exact absurd (by simp) (hlast.sign_not_mem '!')
  · exact absurd (signs_of_append hs).1 (by decide)
  · exact absurd (by simp) hnone

theorem IsLevel.power (h : IsLevel v (first ++ .sign '^' :: last)) :
    IsOperand (textOf first) ∧ IsOperand (textOf last) := by
  have hloose := loose_append.mp h.loose
  rcases afterNegatives_iff.mp h.shape.1 with ⟨hs, -⟩ | hs | ⟨-, hnone, -⟩
  · exact absurd (signs_of_append hs).1 (by decide)
  · obtain ⟨-, hfirst, hlast⟩ := signs_of_append hs
    exact ⟨isOperand_textOf hloose.1 hfirst (h.first_ne_nil (by decide)),
      isOperand_textOf (loose_cons.mp hloose.2).2 hlast (h.last_ne_nil (by decide))⟩
  · exact absurd (by simp) hnone

theorem takeWhile_run (ht : ∀ c ∈ t, isOperandCharacter c = true)
    (hright : ∀ c ∈ right.head?, isOperandCharacter c = false) :
    (t ++ right).takeWhile isOperandCharacter = t := by
  rw [List.takeWhile_append_of_pos ht]
  cases right with
  | nil => simp
  | cons c right => simp [hright c rfl]

theorem runAtEnd_append (ht : ∀ c ∈ t, isOperandCharacter c = true)
    (hleft : ∀ c ∈ left.getLast?, isOperandCharacter c = false) : runAtEnd (left ++ t) = t := by
  rw [runAtEnd, List.reverse_append, takeWhile_run (by simpa using ht) (by simpa using hleft),
    List.reverse_reverse]

theorem AtOperand.not_operand (h : AtOperand t) :
    ∀ c ∈ t.getLast?, isOperandCharacter c = false := fun c hc => by
  have hplaces : ∀ c ∈ unaryPlaces, isOperandCharacter c = false := by
    simp [unaryPlaces, isOperandCharacter]
  exact hplaces c (h c hc)

theorem Normal.open_place (h : Normal v items) (htext : textOf items = left ++ '(' :: right) :
    (AtOperand left ∧ runAtEnd left = []) ∨ ∃ inner arity,
      IsCalled v (runAtEnd left) ∧ v.arity? (runAtEnd left) = some arity ∧
      arity.admits (argumentCount inner) = true ∧ IsLevel v inner ∧
      heldAfter right = textOf inner := by
  obtain ⟨q, hq, -⟩ := h.laid
  cases hq.place htext with
  | @mk before after l r first last x _ hlevel hshows =>
    obtain ⟨his, hheld⟩ := h.isLevel.at h.held hlevel
    rw [List.nil_append, List.append_nil] at hheld
    have hparts := loose_append.mp his.loose
    cases hshows with
    | sign c =>
      obtain ⟨m, hm⟩ := hparts.2
      cases hm with
      | sign hs _ _ => exact absurd hs (by decide)
    | run l c r => exact absurd (hparts.2.run_operands '(' (by simp)) (by decide)
    | name l c r inner => exact absurd (hparts.2.name_operands '(' (by simp)) (by decide)
    | opens inner =>
      have hat := his.atOperand rfl hheld.atOperand
      rw [List.append_nil]
      exact .inl ⟨hat, by simpa using runAtEnd_append (t := []) (by simp) hat.not_operand⟩
    | opensCall _ inner =>
      have hat := his.atOperand rfl hheld.atOperand
      obtain ⟨hname, hinner, arity, harity, hcount⟩ := his.called
      have hrun : runAtEnd (before ++ (textOf first ++ l)) = l := by
        rw [← List.append_assoc]
        exact runAtEnd_append hname.loose.2 hat.not_operand
      rw [hrun]
      refine .inr ⟨inner, arity, hname, harity, hcount, hinner, ?_⟩
      rw [List.append_assoc]
      exact heldAfter_nested hinner.loose.nested (by simp)

theorem Arguments.splitAtTop {args : List (List Item)} (h : Arguments args items)
    (hloose : Loose items) (hne : items ≠ []) :
    Abacus.splitAtTop ',' (textOf items) = args.map textOf := by
  have nested {a : List Item} (ha : .sign ',' ∉ a) (hloose : Loose a) :
      Nested '(' ')' (· ≠ ',') (textOf a) := by
    obtain ⟨q, hq⟩ := hloose
    refine hq.nested (fun c hc => ?_) fun c hc => ?_
    · rintro rfl
      exact absurd hc (by decide)
    · rintro rfl
      exact ha hc
  induction h with
  | none => exact absurd rfl hne
  | @last a _ ha => exact (nested ha hloose).splitAtTop_eq_singleton (by decide)
  | @cons a args items ha h hargs ih =>
    obtain ⟨hfirst, hrest⟩ := loose_append.mp hloose
    rw [textOf_append, textOf_sign, (nested ha hfirst).splitAtTop_cons (by decide),
      ih (loose_cons.mp hrest).2 (h.ne_nil hargs)]
    rfl

theorem IsLevel.argumentsIn (h : IsLevel v items) :
    (Abacus.argumentsIn (textOf items)).length = argumentCount items := by
  by_cases hne : items = []
  · simp [hne, Abacus.argumentsIn, argumentCount]
  · obtain ⟨q, hq, hend⟩ := h.laid
    obtain ⟨args, hargs, -, hlen⟩ := hq.arguments (by decide) (hq.ended hend hne) h.shape.1
    have htext : textOf items ≠ [] := by
      obtain ⟨m, hm⟩ := h.loose
      rwa [ne_eq, hm.textOf_eq_nil]
    rw [Abacus.argumentsIn, if_neg htext, hargs.splitAtTop h.loose hne, List.length_map, hlen,
      argumentCount, if_neg hne]

theorem Normal.comma_place (h : Normal v items) (htext : textOf items = left ++ ',' :: right) :
    ∃ before, left = before ++ '(' :: heldBefore left ∧ v.isCallable (runAtEnd before) = true := by
  obtain ⟨before, first, last, after, -, hheld, hleft, hin, -⟩ := h.sign_place (by decide) htext
  have hcommas : commas (first ++ .sign ',' :: last) ≠ 0 := by
    rw [ne_eq, commas_eq_zero, not_not]
    simp
  cases hheld with
  | whole hnone => exact absurd hnone hcommas
  | group _ hnone => exact absurd hnone hcommas
  | @call before _ name _ hat hname _ _ =>
    refine ⟨before ++ name, by rw [hin, hleft]; simp, ?_⟩
    rw [runAtEnd_append hname.loose.2 hat.not_operand]
    exact hname.2

theorem IsLevel.after_run (h : IsLevel v (first ++ .run t :: last))
    (hafter : ∀ c ∈ after.head?, c = ')') :
    IsValue v t ∧ ∀ c ∈ (textOf last ++ after).head?, isOperandCharacter c = false := by
  obtain ⟨q, hq, -⟩ := h.laid
  obtain ⟨m, -, hlast⟩ := hq.exists_of_append
  cases hlast with
  | run _ ht hrest =>
    refine ⟨ht, fun c hc => ?_⟩
    rcases hrest.second with rfl | ⟨s, others, rfl, hs, -⟩
    · obtain rfl := hafter c (by simpa using hc)
      decide
    · obtain rfl : s = c := by simpa using hc
      exact not_operand_of_sign hs

theorem Normal.word_place (hv : v.Identified) (h : Normal v items) {word : Text}
    (htext : textOf items = left ++ (word ++ right))
    (hleft : ∀ c ∈ left.getLast?, isOperandCharacter c = false)
    (hword : ∀ c ∈ word, isOperandCharacter c = true)
    (hright : ∀ c ∈ right.head?, isOperandCharacter c = false)
    (hcallable : v.isCallable word = true) :
    right.head? = some '(' := by
  cases word with
  | nil =>
    rw [hv.nil] at hcallable
    cases hcallable
  | cons c w =>
    have hc := hword c List.mem_cons_self
    obtain ⟨q, hq, -⟩ := h.laid
    have hplace : Place items left c (w ++ right) := hq.place htext
    generalize hr : w ++ right = rest at hplace
    have hend : w = rest.takeWhile isOperandCharacter := by
      rw [← hr, takeWhile_run (fun d hd => hword d (List.mem_cons_of_mem _ hd)) hright]
    cases hplace with
    | @mk before after l r first last x _ hlevel hshows =>
      obtain ⟨his, hheld⟩ := h.isLevel.at h.held hlevel
      rw [List.nil_append, List.append_nil] at hheld
      have hparts := loose_append.mp his.loose
      -- the word begins where the run or the name does
      have hl (hop : ∀ d ∈ l, isOperandCharacter d = true) : l = [] := by
        rcases List.eq_nil_or_concat' l with rfl | ⟨l', d, rfl⟩
        · rfl
        · have hd := hleft d (by simp [← List.append_assoc])
          rw [hop d (by simp)] at hd
          cases hd
      cases hshows with
      | sign c =>
        obtain ⟨m, hm⟩ := hparts.2
        cases hm with
        | sign hs _ _ => rw [not_operand_of_sign hs] at hc; cases hc
      | opens | closes | opensCall | closesCall => exact absurd hc (by decide)
      | run l c r =>
        obtain ⟨hvalue, hnext⟩ := his.after_run hheld.first_after
        have hops := hvalue.1.loose.2
        obtain rfl := hl fun d hd => hops d (by simp [hd])
        rw [takeWhile_run (fun d hd => hops d (by simp [hd])) hnext] at hend
        subst hend
        have hnot : v.isCallable (c :: w) = false := hvalue.2
        rw [hnot] at hcallable
        cases hcallable
      | name l c r inner =>
        obtain ⟨hname, -, -⟩ := his.called
        have hops := hname.loose.2
        obtain rfl := hl fun d hd => hops d (by simp [hd])
        rw [List.append_assoc, takeWhile_run (fun d hd => hops d (by simp [hd]))
          (by simp [isOperandCharacter])] at hend
        subst hend
        rw [List.append_assoc] at hr
        rw [List.append_cancel_left hr]
        rfl

theorem IsCanonical.cases {c : Char} (h : IsCanonical c) :
    c.isLower = true ∨ c.isDigit = true ∨ c ∈ specialCharacters := by
  rcases h.1 with hc | hc
  · simp only [Char.isAlphanum, Char.isAlpha, Bool.or_eq_true, h.2] at hc
    tauto
  · exact .inr (.inr (by simpa [isSpecial] using hc))

theorem normalForm_of_canonical {n : Text} (hv : v.Identified) (h : canonical v t = .ok n) :
    NormalForm v n := by
  obtain ⟨-, items, rfl, hnormal, hchars, hallowed, hneat⟩ := exists_normal_of_canonical hv h
  exact {
    characters := fun c hc => (hchars c hc).cases
    balanced := hnormal.isLevel.loose.nested.isBalanced
    pairs := fun p hp => by
      rw [hasPair_eq_false_iff]
      refine (hallowed.tail.left_of_append).imp fun a b hab ⟨ha, hb⟩ => hab ?_
      rw [ha, hb]
      exact hp
    minus := fun left right htext => by
      rcases List.eq_nil_or_concat' left with rfl | ⟨l, d, rfl⟩
      · exact .inl rfl
      · rw [htext, List.append_assoc] at hneat
        have hd := (isChain_pair hneat.tail).1 rfl
        exact .inr (by simp [hd])
    factorial := fun left right htext => by
      obtain ⟨_, first, last, _, his, -, -, hbefore, hafter⟩ := hnormal.sign_place (by decide) htext
      obtain ⟨hfirst, rfl⟩ := his.factorial
      rw [hbefore, hafter]
      exact ⟨hfirst, textOf_nil⟩
    power := fun left right htext => by
      obtain ⟨_, first, last, _, his, -, -, hbefore, hafter⟩ := hnormal.sign_place (by decide) htext
      rw [hbefore, hafter]
      exact his.power
    opening := fun left right htext => by
      rcases hnormal.open_place htext with ⟨hat, -⟩ | ⟨_, _, hname, -⟩
      · rcases List.eq_nil_or_concat' left with rfl | ⟨l, d, rfl⟩
        · exact .inl rfl
        · refine .inr (.inl ⟨d, ?_, by simp⟩)
          have hd := hat d (by simp)
          simp only [unaryPlaces, List.mem_cons, List.not_mem_nil, or_false] at hd ⊢
          tauto
      · exact .inr (.inr hname.2)
    words := fun left word right htext hleft hword hright hcallable =>
      hnormal.word_place hv htext hleft hword hright hcallable
    commas := fun left right htext => hnormal.comma_place htext
    arguments := fun left right arity htext harity => by
      rcases hnormal.open_place htext with ⟨-, hrun⟩
        | ⟨inner, _, -, harity', hcount, hinner, hafter⟩
      · rw [hrun, arity?_nil hv] at harity
        cases harity
      · rw [harity] at harity'
        obtain rfl := Option.some.inj harity'
        rw [hafter, hinner.argumentsIn]
        exact hcount
  }

end

namespace Workspace

theorem WellFormed.identified {w : Workspace} (h : w.WellFormed) :
    w.vocabulary.Identified := fun name hname => by
  have hall (c : Callable) : isIdentifier c.name = true := by
    cases c with
    | function f => cases f <;> decide
    | series s => cases s <;> decide
  simp only [Vocabulary.isCallable, Bool.or_eq_true] at hname
  rcases hname with hname | hname
  · obtain ⟨c, hc⟩ := Option.isSome_iff_exists.mp hname
    rw [← Library.name_of_find? hc]
    exact hall c
  · obtain ⟨f, hf⟩ := Option.isSome_iff_exists.mp hname
    exact (h.formula hf).1.identifier

/-- In every workspace that can be reached, a canonical text is in normal form. -/
theorem normalForm_of_run (l : Library) (ops : List Operation) {t n : Text}
    (h : canonical (run l ops).vocabulary t = .ok n) : NormalForm (run l ops).vocabulary n :=
  normalForm_of_canonical (wellFormed_run l ops).identified h

theorem normalForm_of_run_calls :
    canonical (run .full [.createFormula "f".toList "x^2".toList]).vocabulary
      "2f(-3!) - (.5)".toList =
        .ok "2*f(-(3!))+(-(0.5))".toList ∧
      NormalForm (run .full [.createFormula "f".toList "x^2".toList]).vocabulary
        "2*f(-(3!))+(-(0.5))".toList := by
  have hcanonical : canonical (run .full [.createFormula "f".toList "x^2".toList]).vocabulary
      "2f(-3!) - (.5)".toList = .ok "2*f(-(3!))+(-(0.5))".toList := by with_unfolding_all rfl
  exact ⟨hcanonical, normalForm_of_run .full _ hcanonical⟩

end Workspace

end Abacus
