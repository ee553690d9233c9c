import Abacus.Proofs.Canonical.Dividing
import Abacus.Proofs.Reading.Levels

/-! A layout of the grammar is laid out by the rules of a text that tidying leaves as it is: an
operand stands where one is missing, and a minus may stand there too, but not after the sign of a
sum. -/

namespace Abacus

section Leaves

variable {v : Vocabulary} {t : Text} {d : Decimal} {e : Expr}

theorem not_upper_of_digit {c : Char} (h : c.isDigit = true) : c.isUpper = false := by
  have hname := isNameStart_digit h
  simp only [isNameStart, Char.isAlpha, Bool.or_eq_false_iff] at hname
  exact hname.1.1

theorem not_upper_of_lower {c : Char} (h : c.isLower = true) : c.isUpper = false := by
  have hbounds : 97 ≤ c.toNat ∧ c.toNat ≤ 122 := by
    simpa [Char.isLower, UInt32.le_iff_toNat_le] using h
  rw [← Bool.not_eq_true, isUpper_iff]
  omega

theorem not_special_of_digit {c : Char} (h : c.isDigit = true) : isSpecial c = false := by
  have hdigit : ∀ d ∈ specialCharacters, d.isDigit = false := by
    simp [specialCharacters, Char.isDigit]
  rw [← Bool.not_eq_true]
  intro hspecial
  rw [hdigit c (by simpa [isSpecial] using hspecial)] at h
  cases h

theorem canonical_of_operand {c : Char} (h : isOperandCharacter c = true)
    (hupper : c.isUpper = false) : IsCanonical c := by
  refine ⟨?_, hupper⟩
  simp only [isOperandCharacter, Bool.or_eq_true, beq_iff_eq] at h
  rcases h with (h | rfl) | rfl
  · exact .inl h
  · exact .inr rfl
  · exact .inr rfl

theorem canonical_of_digit {c : Char} (h : c.isDigit = true) : IsCanonical c :=
  canonical_of_operand (isOperandCharacter_iff.mpr (.inl h)) (not_upper_of_digit h)

/-- No point comes before a sign. -/
def BeforeOperand (a b : Char) : Prop := a = '.' → isSpecial b = false

theorem beforeOperand_append (h : '.' ∉ t) {rest : Text} (hrest : List.IsChain BeforeOperand rest) :
    List.IsChain BeforeOperand (t ++ rest) := by
  have hpoint : ∀ a ∈ t, ∀ b, BeforeOperand a b := fun a ha b he => absurd (he ▸ ha) h
  exact List.isChain_append.mpr
    ⟨(List.pairwise_of_forall_mem_list fun a ha b _ => hpoint a ha b).isChain, hrest,
      fun a ha b _ => hpoint a (List.mem_of_getLast? ha) b⟩

/-- What tidying has to find in a run to leave it as it is. -/
structure IsKept (v : Vocabulary) (t : Text) : Prop where
  atom : IsAtom t
  callable : v.isCallable t = false
  canonical : ∀ c ∈ t, IsCanonical c
  points : List.IsChain BeforeOperand (t ++ [')'])
  numbers : checkNumbers 0 false 0 t = .ok ()

theorem checkNumbers_number {t : Text} {position points : Nat}
    (ht : ∀ c ∈ t, c.isDigit = true ∨ c = '.') (hpoint : t.count '.' + points ≤ 1) :
    checkNumbers position false points t = .ok () := by
  induction t generalizing position points with
  | nil => rfl
  | cons c t ih =>
    have ht' : ∀ d ∈ t, d.isDigit = true ∨ d = '.' := fun d hd => ht d (List.mem_cons_of_mem _ hd)
    rw [checkNumbers]
    rcases ht c List.mem_cons_self with hd | rfl
    · rw [List.count_cons_of_ne (ne_of_digit hd (by decide))] at hpoint
      rw [if_neg (by simp [isNameStart_digit hd]), if_pos hd]
      exact ih ht' hpoint
    · rw [List.count_cons_self] at hpoint
      rw [if_neg (by decide), if_neg (by decide), if_pos ⟨rfl, rfl⟩, if_pos (by omega)]
      exact ih ht' (by omega)

theorem checkNumbers_letters {t : Text} {position points : Nat} {inWord : Bool}
    (ht : ∀ c ∈ t, isOperandCharacter c = true) (hpoint : '.' ∉ t) :
    checkNumbers position inWord points t = .ok () := by
  induction t generalizing position points inWord with
  | nil => rfl
  | cons c t ih =>
    have hnext (position points : Nat) (inWord : Bool) :
        checkNumbers position inWord points t = .ok () :=
      ih (fun d hd => ht d (List.mem_cons_of_mem _ hd)) fun h => hpoint (List.mem_cons_of_mem _ h)
    rw [checkNumbers]
    rcases isOperandCharacter_iff.mp (ht c List.mem_cons_self) with hd | rfl | hs
    · rw [if_neg (by simp [isNameStart_digit hd]), if_pos hd]
      exact hnext _ _ _
    · exact absurd List.mem_cons_self hpoint
    · rw [if_pos hs]
      exact hnext _ _ _

theorem point_not_mem (h : ∀ c ∈ t, c.isDigit = true) : '.' ∉ t :=
  fun hmem => absurd (h _ hmem) (by decide)

theorem IsNumeral.isNumber (h : IsNumeral t d) : IsNumber t := by
  cases h with
  | whole hne h =>
    obtain ⟨c, rest, rfl⟩ := List.exists_cons_of_ne_nil hne
    refine ⟨fun d hd => .inl (h d hd), ⟨c, rest, rfl, h c List.mem_cons_self⟩, ?_⟩
    rw [List.count_eq_zero.mpr (point_not_mem h)]
    exact Nat.zero_le 1
  | @pointed whole fraction hw hf hwhole hfraction =>
    obtain ⟨c, rest, rfl⟩ := List.exists_cons_of_ne_nil hw
    refine ⟨fun d hd => ?_, ⟨c, rest ++ '.' :: fraction, rfl, hwhole c List.mem_cons_self⟩, ?_⟩
    · rw [List.mem_append, List.mem_cons (a := d) (b := '.')] at hd
      rcases hd with hd | rfl | hd
      · exact .inl (hwhole d hd)
      · exact .inr rfl
      · exact .inl (hfraction d hd)
    · rw [List.count_append, List.count_cons_self, List.count_eq_zero.mpr (point_not_mem hwhole),
        List.count_eq_zero.mpr (point_not_mem hfraction)]

theorem IsNumeral.beforeOperand (h : IsNumeral t d) : List.IsChain BeforeOperand (t ++ [')']) := by
  cases h with
  | whole hne h => exact beforeOperand_append (point_not_mem h) (.singleton _)
  | @pointed whole fraction hw hf hwhole hfraction =>
    obtain ⟨c, rest, rfl⟩ := List.exists_cons_of_ne_nil hf
    rw [List.append_assoc]
    refine beforeOperand_append (point_not_mem hwhole) ?_
    exact .cons_cons (fun _ => not_special_of_digit (hfraction c List.mem_cons_self))
      (beforeOperand_append (point_not_mem hfraction) (.singleton _))

theorem isWord_of_isIdentifier (h : isIdentifier t = true) :
    IsWord t ∧ '.' ∉ t ∧ ∀ c ∈ t, IsCanonical c := by
  cases t with
  | nil => cases h
  | cons d rest =>
    simp only [isIdentifier, Bool.and_eq_true, List.all_eq_true, Bool.or_eq_true, beq_iff_eq] at h
    have hname {c : Char} (hc : c.isLower = true ∨ c = '_') : isNameStart c = true := by
      rcases hc with hc | rfl
      · simp [isNameStart, Char.isAlpha, hc]
      · rfl
    have hall : ∀ c ∈ d :: rest, c.isLower = true ∨ c.isDigit = true ∨ c = '_' := by
      intro c hc
      rcases List.mem_cons.mp hc with rfl | hc
      · exact h.1.imp_right .inr
      · exact or_assoc.mp (h.2 c hc)
    have hop : ∀ c ∈ d :: rest, isOperandCharacter c = true := by
      intro c hc
      refine isOperandCharacter_iff.mpr ?_
      rcases hall c hc with hl | hd | rfl
      · exact .inr (.inr (hname (.inl hl)))
      · exact .inl hd
      · exact .inr (.inr rfl)
    have hpoint : '.' ∉ d :: rest := fun hm => absurd (hall '.' hm) (by decide)
    refine ⟨⟨⟨d, rest, rfl, hname h.1⟩, hop, ?_⟩, hpoint,
      fun c hc => canonical_of_operand (hop c hc) ?_⟩
    · have hpoints : ∀ a ∈ d :: rest, ∀ b ∈ d :: rest, b = '.' → a.isDigit = true :=
        fun a _ b hb he => absurd (he ▸ hb) hpoint
      exact (List.pairwise_of_forall_mem_list hpoints).isChain
    · rcases hall c hc with hl | hd | rfl
      · exact not_upper_of_lower hl
      · exact not_upper_of_digit hd
      · rfl

theorem isIdentifier_constant (c : Constant) : isIdentifier c.name = true := by cases c <;> decide

theorem isKept_of_isIdentifier (hid : isIdentifier t = true) (hcall : v.isCallable t = false) :
    IsKept v t := by
  obtain ⟨hword, hpoint, hcanonical⟩ := isWord_of_isIdentifier hid
  exact ⟨.inr hword, hcall, hcanonical, beforeOperand_append hpoint (.singleton _),
    checkNumbers_letters hword.characters hpoint⟩

theorem IsTerminal.isKept (hv : v.Identified) (h : IsTerminal v t e) : IsKept v t := by
  cases h with
  | number h =>
    have hnumber := h.isNumber
    refine ⟨.inl hnumber, hnumber.not_callable hv, fun c hc => ?_, h.beforeOperand,
      checkNumbers_number hnumber.digits hnumber.point⟩
    rcases hnumber.digits c hc with hd | rfl
    · exact canonical_of_digit hd
    · exact canonical_of_operand rfl rfl
  | constant c hcall => exact isKept_of_isIdentifier (isIdentifier_constant c) hcall
  | name h => exact isKept_of_isIdentifier h.identifier h.notCallable

theorem IsTerminal.ne_underscore (h : IsTerminal v t e) (hne : e ≠ .identifier ['_']) :
    t ≠ ['_'] := by
  cases h with
  | number h =>
    rintro rfl
    exact absurd (h.isNumber.digits '_' (by simp)) (by decide)
  | constant c => cases c <;> decide
  | name h => exact fun ht => hne (congrArg Expr.identifier ht)

end Leaves

/-- What may follow what, where an operand counts as a group seen from outside. -/
def Settled (a b : Char) : Prop :=
  (b = '(' → a ≠ ')' ∧ a ≠ '!') ∧
    (a ∈ unaryPlaces → b = '(' ∨ (b = '-' ∧ a ≠ '+' ∧ a ≠ '-') ∨ (b = ')' ∧ a = '('))

instance (a b : Char) : Decidable (Settled a b) := inferInstanceAs (Decidable (_ ∧ _))

namespace Rules

/-- Runs are numbers and names, a group is neither empty nor a list, and a call has as many
arguments as its name takes. -/
def phrased (v : Vocabulary) : Rules where
  follows := Settled
  run := IsKept v
  group inner := inner ≠ [] ∧ .sign ',' ∉ inner
  call name inner := v.isCallable name = true ∧ ∃ arity, v.arity? name = some arity ∧
  arity.admits (argumentCount inner) = true

end Rules

section

variable {v : Vocabulary} {level : List Item → Prop} {k : Strength} {p q : Char}
  {items inner : List Item} {e : Expr}

theorem settled_sign {a b : Char} (ha : a ∈ [')', '!']) (hb : b ≠ '(') : Settled a b := by
  refine ⟨fun h => absurd h hb, fun h => ?_⟩
  simp only [List.mem_cons, List.not_mem_nil, or_false] at ha
  rcases ha with rfl | rfl <;> exact absurd h (by decide)

theorem settled_operand (hp : p ∈ unaryPlaces) : Settled p '(' := by
  refine ⟨fun _ => ?_, fun _ => .inl rfl⟩
  constructor <;> rintro rfl <;> exact absurd hp (by decide)

theorem Arguments.count {args : List (List Item)} (h : Arguments args inner) :
    argumentCount inner = args.length := by
  induction h with
  | none => rfl
  | last hne ha => simp [argumentCount, hne, commas_eq_zero.mpr ha]
  | @cons a args items ha h hne ih =>
    have hitems := h.ne_nil hne
    rw [argumentCount, if_neg hitems] at ih
    rw [← commas_eq_zero, commas] at ha
    rw [argumentCount, if_neg (by simp), commas, signs_append, signs_sign, List.count_append,
      List.count_cons_self, ha, List.length_cons, ← ih, commas]
    omega

theorem Laid.sign_after {c : Char} {left right : List Item}
    (hleft : ∃ m ∈ [')', '!'], Laid (.phrased v) p left m) (hc : isSign c = true)
    (hright : ∃ q ∈ [')', '!'], Laid (.phrased v) c right q) :
    ∃ q ∈ [')', '!'], Laid (.phrased v) p (left ++ .sign c :: right) q := by
  obtain ⟨m, hm, hl⟩ := hleft
  obtain ⟨q, hq, hr⟩ := hright
  exact ⟨q, hq, hl.append (.sign hc (settled_sign hm (ne_open_of_sign hc)) hr)⟩

theorem Laid.minus_before (hsign : p ≠ '+' ∧ p ≠ '-')
    (h : ∃ q ∈ [')', '!'], Laid (.phrased v) '-' items q) :
    ∃ q ∈ [')', '!'], Laid (.phrased v) p (.sign '-' :: items) q := by
  obtain ⟨q, hq, hlaid⟩ := h
  exact ⟨q, hq, .sign rfl ⟨fun h => absurd h (by decide), fun _ => .inr (.inl ⟨rfl, hsign⟩)⟩ hlaid⟩

theorem Arguments.laid {args : List (List Item)} (h : Arguments args inner) (hne : args ≠ [])
    (hp : p = '(' ∨ p = ',')
    (hargs : ∀ a ∈ args, ∀ p, p = '(' ∨ p = ',' → ∃ q ∈ [')', '!'], Laid (.phrased v) p a q) :
    ∃ q ∈ [')', '!'], Laid (.phrased v) p inner q := by
  induction h generalizing p with
  | none => exact absurd rfl hne
  | @last a _ _ => exact hargs a (by simp) p hp
  | cons _ _ hsome ih =>
    obtain ⟨hfirst, hrest⟩ := List.forall_mem_cons.mp hargs
    exact Laid.sign_after (hfirst p hp) rfl (ih hsome (.inr rfl) hrest)

theorem Arguments.laid_call {name : Text} {args : List (List Item)} {arity : Arity}
    (h : Arguments args inner) (hp : p ∈ unaryPlaces) (harity : v.arity? name = some arity)
    (hcount : arity.admits args.length = true)
    (hargs : ∀ a ∈ args, ∀ p, p = '(' ∨ p = ',' → ∃ q ∈ [')', '!'], Laid (.phrased v) p a q) :
    Laid (.phrased v) p [.call name inner] ')' := by
  have hcallable : v.isCallable name = true := by rw [← arity?_isSome, harity, Option.isSome_some]
  have hcalled : (Rules.phrased v).call name inner := ⟨hcallable, arity, harity, by rwa [h.count]⟩
  by_cases hne : args = []
  · subst hne
    cases h
    exact .call (settled_operand hp) hcalled (.nil _) (show Settled '(' ')' by decide) (.nil _)
  · obtain ⟨m, hm, hlaid⟩ := h.laid hne (.inl rfl) hargs
    exact .call (settled_operand hp) hcalled hlaid (settled_sign hm (by decide)) (.nil _)

/-- A layout of the grammar may stand where an operand is missing. -/
theorem Denotes.laid (hv : v.Identified) (h : Denotes v level k items e) (hp : p ∈ unaryPlaces)
    (hsign : p = '+' ∨ p = '-' → Unsigned items) :
    ∃ q ∈ [')', '!'], Laid (.phrased v) p items q := by
  induction h generalizing p with
  | tighter _ _ ih => exact ih hp hsign
  | @operator op k left right _ _ hk hop hright hleft _ ihl ihr =>
    have hfirst : p = '+' ∨ p = '-' → Unsigned left := fun h => (hsign h).of_append
    refine Laid.sign_after (ihl hp hfirst) op.isSign_symbol (ihr ?_ fun h => hright ?_)
    · cases op <;> decide
    · cases op <;> first | exact hk.symm | exact absurd rfl hop | simp [Operator.symbol] at h
  | @difference left right _ _ hright _ _ ihl ihr =>
    have hfirst : p = '+' ∨ p = '-' → Unsigned left := fun h => (hsign h).of_append
    exact Laid.sign_after (ihl hp hfirst) rfl (ihr (by decide) fun _ => hright)
  | negative h ih =>
    have hplace : p ≠ '+' ∧ p ≠ '-' := by
      constructor <;> rintro rfl <;> exact absurd rfl (hsign (by simp))
    exact Laid.minus_before hplace (ih (by decide) fun _ => h.unsigned (by decide))
  | @negativeExponent left right _ _ _ hright ihl ihr =>
    have hfirst : p = '+' ∨ p = '-' → Unsigned left := fun h => (hsign h).of_append
    have hexponent := Laid.minus_before (p := '^') (by decide)
      (ihr (by decide) fun _ => hright.unsigned (by decide))
    exact Laid.sign_after (ihl hp hfirst) rfl hexponent
  | @factorial items _ h ih =>
    have hfirst : p = '+' ∨ p = '-' → Unsigned items := fun _ => h.unsigned (by decide)
    obtain ⟨m, hm, hlaid⟩ := ih hp hfirst
    exact ⟨'!', by simp, hlaid.append (.sign rfl (settled_sign hm (by decide)) (.nil _))⟩
  | terminal h => exact ⟨')', by simp, .run (settled_operand hp) (h.isKept hv) (.nil _)⟩
  | group _ h ih =>
    obtain ⟨m, hm, hlaid⟩ := ih (p := '(') (by decide) (fun h => absurd h (by decide))
    exact ⟨')', by simp, .group (settled_operand hp) ⟨h.ne_nil, h.comma_not_mem⟩ hlaid
      (settled_sign hm (by decide)) (.nil _)⟩
  | @call name inner args arity _ _ harity hcount hinner hargs _ ih =>
    refine ⟨')', by simp, hinner.laid_call hp harity (by simpa using hcount) fun a ha p hp => ?_⟩
    obtain ⟨b, hb, rfl⟩ := List.mem_map.mp ha
    rcases hp with rfl | rfl <;> exact ih b hb (by decide) fun h => absurd h (by decide)

end

end Abacus
