import Abacus.Proofs.Canonical.MinusRuns
import Abacus.Proofs.Reading.Meaning
import Abacus.Session.Basic

/-! Numbers by themselves. A point without digits on one of its sides is completed or taken away
when the signs settle or the products are written, so the number is read like the one that is
written in full. -/

namespace Abacus

/-- A number as it may be typed: with a point before, after or among its digits, or with none. -/
inductive IsLiteral : Text → Decimal → Prop
  | numeral {t : Text} {d : Decimal} (h : IsNumeral t d) : IsLiteral t d
  | pointBefore {fraction : Text} (hne : fraction ≠ []) (h : ∀ c ∈ fraction, c.isDigit = true) :
    IsLiteral ('.' :: fraction) ⟨Nat.ofDigitChars 10 fraction 0, -fraction.length⟩
  | pointAfter {whole : Text} (hne : whole ≠ []) (h : ∀ c ∈ whole, c.isDigit = true) :
    IsLiteral (whole ++ ['.']) ⟨Nat.ofDigitChars 10 whole 0, 0⟩

section Signs

variable {sign t u : Text}

theorem not_arithmetic_of_digit {c : Char} (h : c.isDigit = true ∨ c = '.') :
    c ∉ arithmeticSigns := by
  intro hc
  simp only [arithmeticSigns, List.mem_cons, List.not_mem_nil, or_false] at hc
  rcases hc with rfl | rfl | rfl | rfl <;> revert h <;> decide

theorem collapseSigns_digits (h : ∀ c ∈ t, c.isDigit = true ∨ c = '.')
    (hsign : sign = [] ∨ sign = ['-']) : collapseSigns (sign ++ t) = sign ++ t := by
  have hself : collapseSigns sign = sign := by
    rcases hsign with rfl | rfl
    · exact collapseSigns_of_fixed rfl
    · exact collapseSigns_minuses_odd 0
  induction t generalizing sign with
  | nil => rwa [List.append_nil]
  | cons c t ih =>
    obtain ⟨hc, ht⟩ := List.forall_mem_cons.mp h
    have htail := ih ht (.inl rfl) (collapseSigns_of_fixed rfl)
    rw [collapseSigns_split (not_arithmetic_of_digit hc), hself]
    exact congrArg (sign ++ c :: ·) htail

theorem checkEnds_digits (h : ∀ c ∈ t, c.isDigit = true ∨ c = '.') (hne : t ≠ [])
    (hsign : sign = [] ∨ sign = ['-']) : checkEnds (sign ++ t) = .ok () := by
  have hall : ∀ c ∈ ['+', '-', '*', '/', ',', '^'] ++ ['*', '/', '^', '!', ','],
      ¬ (c.isDigit = true ∨ c = '.') := by
    simp only [List.cons_append, List.nil_append, List.forall_mem_cons, List.not_mem_nil,
      false_imp_iff, implies_true]
    decide
  refine checkEnds_eq_ok (fun c hc hmem => ?_) fun c hc hmem => ?_
  · rw [List.getLast?_append_of_ne_nil _ hne] at hc
    exact hall c (List.mem_append_left _ hmem) (h c (List.mem_of_mem_getLast? hc))
  · rcases hsign with rfl | rfl
    · exact hall c (List.mem_append_right _ hmem) (h c (List.mem_of_mem_head? hc))
    · obtain rfl : '-' = c := by simpa using hc
      exact absurd hmem (by decide)

theorem isBalanced_digits (h : ∀ c ∈ t, c.isDigit = true ∨ c = '.')
    (hsign : sign = [] ∨ sign = ['-']) : isBalanced (sign ++ t) = true := by
  have hnone : parentheses (sign ++ t) = parentheses [] := by
    refine List.filter_eq_nil_iff.mpr fun c hc => ?_
    rcases List.mem_append.mp hc with hc | hc
    · rcases hsign with rfl | rfl
      · cases hc
      · obtain rfl := List.mem_singleton.mp hc
        decide
    · rcases h c hc with hdigit | rfl
      · simp only [Bool.or_eq_true, beq_iff_eq]
        rintro (rfl | rfl) <;> cases hdigit
      · decide
  exact isBalancedFrom_congr hnone 0

end Signs

section Completed

variable {v : Vocabulary} {sign t u : Text} {d : Decimal}

theorem IsNumeral.characters (h : IsNumeral t d) :
    t ≠ [] ∧ ∀ c ∈ t, c.isDigit = true ∨ c = '.' := by
  cases h with
  | whole hne h => exact ⟨hne, fun c hc => .inl (h c hc)⟩
  | pointed hw _ hwhole hfraction =>
    refine ⟨by simp, List.forall_mem_append.mpr ⟨fun c hc => .inl (hwhole c hc), ?_⟩⟩
    exact List.forall_mem_cons.mpr ⟨.inr rfl, fun c hc => .inl (hfraction c hc)⟩

theorem IsNumeral.signed (hv : v.Identified) (h : IsNumeral t d)
    (hsign : sign = [] ∨ sign = ['-']) : ∃ items, IsPhrase v items ∧ textOf items = sign ++ t := by
  have hnumber : Denotes v (fun _ => True) .atom [.run t] (.number d.toFloat) :=
    .terminal (.number h)
  rcases hsign with rfl | rfl
  · exact ⟨_, hnumber.isPhrase hv (by simp), by simp⟩
  · exact ⟨_, (Denotes.negative (hnumber.ofAtom .power)).isPhrase hv (by simp), by simp⟩

theorem IsNumeral.tidied (h : IsNumeral t d) (hsign : sign = [] ∨ sign = ['-']) :
    List.IsChain Tidied ('(' :: ((sign ++ t) ++ [')'])) := by
  have hv := (Workspace.wellFormed_run .full []).identified
  obtain ⟨items, hphrase, htext⟩ := h.signed hv hsign
  exact htext ▸ hphrase.tidied hv

theorem checkNotTrivial_digits (h : ∀ c ∈ t, c.isDigit = true ∨ c = '.') (hne : t ≠ [])
    (hpoint : t ≠ ['.']) (hsign : sign = [] ∨ sign = ['-']) :
    checkNotTrivial (sign ++ t) = .ok () := by
  obtain ⟨c, t, rfl⟩ := List.exists_cons_of_ne_nil hne
  rcases hsign with rfl | rfl
  · cases t with
    | cons d t => rfl
    | nil =>
      rcases h c (by simp) with hdigit | rfl
      · rw [List.nil_append, checkNotTrivial, if_neg (by simp [not_special_of_digit hdigit])]
      · exact absurd rfl hpoint
  · rfl

theorem settleSigns_digits (ht : ∀ c ∈ t, c.isDigit = true ∨ c = '.')
    (hu : ∀ c ∈ u, c.isDigit = true ∨ c = '.') (htne : t ≠ []) (hune : u ≠ []) (htpoint : t ≠ ['.'])
    (hupoint : u ≠ ['.']) (hsign : sign = [] ∨ sign = ['-'])
    (h : completePoints (sign ++ t) = completePoints (sign ++ u)) :
    settleSigns (sign ++ t) = settleSigns (sign ++ u) := by
  simp only [settleSigns, checkNotTrivial_digits ht htne htpoint hsign,
    checkNotTrivial_digits hu hune hupoint hsign, checkBalance, isBalanced_digits ht hsign,
    isBalanced_digits hu hsign, checkEnds_digits ht htne hsign, checkEnds_digits hu hune hsign,
    collapseSigns_digits ht hsign, collapseSigns_digits hu hsign, h]

theorem isOperandCharacter_digits (h : ∀ c ∈ t, c.isDigit = true ∨ c = '.') :
    ∀ c ∈ t, isOperandCharacter c = true := by
  intro c hc
  rcases h c hc with hdigit | rfl
  · simp [isOperandCharacter, Char.isAlphanum, hdigit]
  · rfl

theorem canonical_digits (h : ∀ c ∈ t, c.isDigit = true ∨ c = '.') : ∀ c ∈ t, IsCanonical c := by
  intro c hc
  rcases h c hc with hdigit | rfl
  · exact canonical_of_digit hdigit
  · exact ⟨.inr rfl, rfl⟩

theorem tidy_digits (ht : ∀ c ∈ t, c.isDigit = true ∨ c = '.') (hsign : sign = [] ∨ sign = ['-']) :
    tidy v (sign ++ t) = tidyFrom v (sign ++ t) := by
  rw [tidy, lowercase_withoutBlanks_eq_self]
  refine List.forall_mem_append.mpr ⟨?_, canonical_digits ht⟩
  rcases hsign with rfl | rfl
  · simp
  · exact List.forall_mem_singleton.mpr ⟨.inr rfl, rfl⟩

theorem isNumeral_zero_point (hne : t ≠ []) (ht : ∀ c ∈ t, c.isDigit = true) :
    IsNumeral ('0' :: '.' :: t) ⟨Nat.ofDigitChars 10 t 0, -t.length⟩ :=
  @IsNumeral.pointed ['0'] t (by simp) hne (List.forall_mem_singleton.mpr rfl) ht

theorem completePoints_pointAfter (hne : t ≠ []) (ht : ∀ c ∈ t, c.isDigit = true)
    (hsign : sign = [] ∨ sign = ['-']) :
    completePoints (sign ++ (t ++ ['.'])) = completePoints (sign ++ t) := by
  -- the same with a zero after the point has nothing to be settled
  have hzero : IsNumeral (t ++ '.' :: ['0']) _ :=
    .pointed hne (by simp) ht (List.forall_mem_singleton.mpr rfl)
  have hall : List.IsChain Tidied ((sign ++ (t ++ ['.'])) ++ ['0']) := by
    simpa using (hzero.tidied hsign).tail.left_of_append
  have hchain := hall.left_of_append
  rw [← List.append_assoc] at hchain ⊢
  rw [completePoints_eq_self hchain.left_of_append
    (getLast_of_tidied ((IsNumeral.whole hne ht).tidied hsign))]
  simp only [completePoints, replacePair_of_tidied hchain (show ¬ Tidied '*' '.' by decide),
    replacePair_of_tidied hchain (show ¬ Tidied '/' '.' by decide),
    replacePair_of_tidied hchain (show ¬ Tidied '+' '.' by decide), replacePair_of_tidied hchain
      (show ¬ Tidied '-' '.' by decide), List.getLast?_concat, if_true, List.dropLast_concat]

theorem tidied_pointBefore (hne : t ≠ []) (ht : ∀ c ∈ t, c.isDigit = true) :
    List.IsChain Tidied ('.' :: t) ∧ ('.' :: t).getLast? ≠ some '.' := by
  have hzero := isNumeral_zero_point hne ht
  have hchain := hzero.tidied (.inl rfl)
  have hlast := getLast_of_tidied hchain
  exact ⟨hchain.tail.tail.left_of_append, by simpa using hlast⟩

theorem completePoints_pointBefore (hne : t ≠ []) (ht : ∀ c ∈ t, c.isDigit = true) :
    completePoints ('-' :: '.' :: t) = completePoints ('-' :: '0' :: '.' :: t) := by
  have hzero := isNumeral_zero_point hne ht
  have hfull := hzero.tidied (.inr rfl)
  obtain ⟨hchain, hlast⟩ := tidied_pointBefore hne ht
  have hpair {a : Char} {r : Text} (ha : '-' ≠ a) (hpair : ¬ Tidied a '.') :
      replacePair a '.' r ('-' :: '.' :: t) = '-' :: '.' :: t := by
    rw [replacePair_cons ha, replacePair_of_tidied hchain hpair]
  have hminus : replacePair '-' '.' ['-', '0', '.'] ('-' :: '.' :: t) = '-' :: '0' :: '.' :: t := by
    have hrest : replacePair '-' '.' ['-', '0', '.'] t = t :=
      replacePair_of_tidied hchain.tail (by decide)
    rw [replacePair_cons_cons, if_pos ⟨rfl, rfl⟩, hrest]
    rfl
  have hself : completePoints ('-' :: '0' :: '.' :: t) = '-' :: '0' :: '.' :: t :=
    completePoints_eq_self hfull.tail.left_of_append (getLast_of_tidied hfull)
  rw [hself]
  simp only [completePoints, hpair (show '-' ≠ '*' by decide) (by decide),
    hpair (show '-' ≠ '/' by decide) (by decide),
    hpair (show '-' ≠ '+' by decide) (by decide), hminus]
  exact if_neg (getLast_of_tidied hfull)

theorem tidyFrom_pointBefore (hv : v.Identified) (hne : t ≠ []) (ht : ∀ c ∈ t, c.isDigit = true) :
    tidyFrom v ('.' :: t) = tidyFrom v ('0' :: '.' :: t) := by
  have hdigits : ∀ c ∈ '.' :: t, c.isDigit = true ∨ c = '.' :=
    List.forall_mem_cons.mpr ⟨.inr rfl, fun c hc => .inl (ht c hc)⟩
  have hzero := isNumeral_zero_point hne ht
  obtain ⟨items, hphrase, htext⟩ := hzero.signed hv (.inl rfl)
  obtain ⟨hchain, hlast⟩ := tidied_pointBefore hne ht
  have hbalance := isBalanced_digits hdigits (.inl rfl)
  have hends := checkEnds_digits hdigits (by simp) (.inl rfl)
  have htrivial := checkNotTrivial_digits hdigits (by simp) (by simpa using hne) (.inl rfl)
  have hcollapse := collapseSigns_digits hdigits (.inl rfl)
  rw [List.nil_append] at hbalance hends htrivial hcollapse
  have hsettled : settleSigns ('.' :: t) = .ok ('.' :: t) := by
    simp only [settleSigns, htrivial, checkBalance, hbalance, hends, hcollapse,
      completePoints_eq_self hchain hlast, checkPairs_eq_ok hchain,
      checkCharacters_eq_ok (fun c hc => (canonical_digits hdigits c hc).1),
      dropPlus_eq_self hchain (by simp)]
    rfl
  rw [List.nil_append] at htext
  have hwhole : settleSigns ('0' :: '.' :: t) = .ok ('0' :: '.' :: t) :=
    htext ▸ hphrase.settleSigns hv
  have hnone (u : Text) (hu : ∀ c ∈ u, c.isDigit = true ∨ c = '.') :
      dropEmptyGroup? v [] u = none := by
    rw [← List.append_nil u, dropEmptyGroup?_run (isOperandCharacter_digits hu)]
    rfl
  have harguments (u : Text) (hu : ∀ c ∈ u, c.isDigit = true ∨ c = '.') : checkArguments v [] [] u =
      .ok () := by
    rw [← List.append_nil u, checkArguments_run (isOperandCharacter_digits hu)]
    rfl
  rw [tidyFrom_eq_writeProducts hsettled (hnone _ hdigits),
    tidyFrom_eq_writeProducts hwhole (hnone _ hzero.characters.2)]
  have hfull : List.IsChain Tidied ('0' :: '.' :: t) :=
    (hzero.tidied (.inl rfl)).tail.left_of_append
  rw [writeProducts, writeProducts, dropPoints_eq_self hchain, dropPoints_eq_self hfull,
    harguments _ hdigits, harguments _ hzero.characters.2]
  rfl

/-- A number without a digit on one side of its point is tidied like the one that is written in
full. -/
theorem IsLiteral.tidy (hv : v.Identified) (h : IsLiteral t d) (hsign : sign = [] ∨ sign = ['-']) :
    ∃ u, IsNumeral u d ∧ Abacus.tidy v (sign ++ t) = Abacus.tidy v (sign ++ u) := by
  have hof {digits : Text} (h : ∀ c ∈ digits, c.isDigit = true) : ∀ c ∈ digits, c.isDigit = true ∨
      c = '.' :=
    fun c hc => .inl (h c hc)
  cases h with
  | numeral h => exact ⟨t, h, rfl⟩
  | @pointAfter whole hne hwhole =>
    refine ⟨whole, .whole hne hwhole, ?_⟩
    have htail : ∀ c ∈ whole ++ ['.'], c.isDigit = true ∨ c = '.' :=
      List.forall_mem_append.mpr ⟨hof hwhole, List.forall_mem_singleton.mpr (.inr rfl)⟩
    have hpoint : whole ≠ ['.'] := by
      rintro rfl
      exact absurd (hwhole '.' (by simp)) (by decide)
    rw [tidy_digits htail hsign, tidy_digits (hof hwhole) hsign, tidyFrom_eq,
      tidyFrom_eq v (sign ++ whole), settleSigns_digits htail (hof hwhole) (by simp) hne
        (by simp [hne]) hpoint hsign (completePoints_pointAfter hne hwhole hsign)]
  | @pointBefore fraction hne hfraction =>
    have hzero := isNumeral_zero_point hne hfraction
    have hdigits : ∀ c ∈ '.' :: fraction, c.isDigit = true ∨ c = '.' :=
      List.forall_mem_cons.mpr ⟨.inr rfl, hof hfraction⟩
    refine ⟨_, hzero, ?_⟩
    rw [tidy_digits hdigits hsign, tidy_digits hzero.characters.2 hsign]
    rcases hsign with rfl | rfl
    · exact tidyFrom_pointBefore hv hne hfraction
    · have hsettled := settleSigns_digits hdigits hzero.characters.2 (by simp) (by simp)
        (by simpa using hne) (by simp) (.inr rfl) (completePoints_pointBefore hne hfraction)
      rw [tidyFrom_eq, tidyFrom_eq v (['-'] ++ '0' :: '.' :: fraction), hsettled]

end Completed

section

variable {v : Vocabulary} {t : Text} {d : Decimal}

/-- A number, and a number with a minus in front, are read as trees with their values. -/
theorem IsLiteral.read (hv : v.Identified) (h : IsLiteral t d) :
    (∃ e, Expr.read v t = .ok e ∧ Expr.Respelled (.number d.toFloat) e) ∧
      ∃ e, Expr.read v ('-' :: t) = .ok e ∧ Expr.Respelled (.negate (.number d.toFloat)) e := by
  have hsame {sign u : Text} (htidy : Abacus.tidy v (sign ++ t) = Abacus.tidy v (sign ++ u)) :
      Expr.read v (sign ++ t) = Expr.read v (sign ++ u) := by
    simp only [Expr.read, canonical, htidy]
  have hreads {u : Text} (hu : IsNumeral u d) : Reads v .atom u (.number d.toFloat) :=
    .leaf (.number hu)
  constructor
  · obtain ⟨u, hu, htidy⟩ := h.tidy hv (.inl rfl)
    rw [← List.nil_append t, hsame htidy]
    exact ((hreads hu).ofAtom .sum).read hv
  · obtain ⟨u, hu, htidy⟩ := h.tidy hv (.inr rfl)
    have hnegative : Reads v .factor ('-' :: u) _ := .negative ((hreads hu).ofAtom .power)
    have hsum := Strength.toSum (P := fun k => Reads v k ('-' :: u) (.negate (.number d.toFloat)))
      (fun _ hk h => .tighter hk h) hnegative
    rw [← List.singleton_append (x := '-') (l := t), hsame htidy]
    exact hsum.read hv

theorem evaluateText_of_alike {e e' : Expr} {x : Float} (hread : Expr.read .standard t = .ok e')
    (halike : Expr.Respelled e e')
    (hvalue : ∀ (s : Settings) (callees : Callees) (scope : List Variable),
      e.valueIn s callees scope = .ok x)
    (s : Settings) (scope : List Variable) :
    evaluateText s scope t = .ok x := by
  have hevaluate : e'.evaluate s .empty scope = .ok x :=
    (halike.value s _ scope).trans (hvalue s _ scope)
  simp only [evaluateText, hread, hevaluate]
  rfl

theorem IsLiteral.evaluateText (h : IsLiteral t d) (s : Settings) (scope : List Variable) :
    Abacus.evaluateText s scope t = .ok d.toFloat ∧
      Abacus.evaluateText s scope ('-' :: t) = .ok (-d.toFloat) := by
  obtain ⟨⟨e, he, hlike⟩, e', he', hlike'⟩ :=
    h.read (v := .standard) (Workspace.wellFormed_run .full []).identified
  exact ⟨evaluateText_of_alike he hlike (fun _ _ _ => rfl) s scope,
    evaluateText_of_alike he' hlike' (fun _ _ _ => by simp [Expr.valueIn]) s scope⟩

end

end Abacus
