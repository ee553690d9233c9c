import Abacus.Proofs.Expr.Building
import Abacus.Proofs.Reading.Levels
import Abacus.Proofs.Reading.Settled

/-! The tree that is built from a layout of the grammar has the value of the tree that the layout
stands for, if every level has the form of a canonical text. -/

namespace Abacus

section Leaves

variable {v : Vocabulary} {t : Text} {d : Decimal} {e : Expr}

theorem decimal?_of_isNumeral (h : IsNumeral t d) : decimal? t = some d := by
  cases h with
  | whole hne h =>
    simp only [decimal?, List.dropWhile_eq_nil_iff.mpr h, List.takeWhile_eq_self_iff.mpr h,
      if_neg hne]
  | @pointed whole fraction hw hf hwhole hfraction =>
    have hpoint : Char.isDigit '.' = false := by decide
    simp only [decimal?, List.dropWhile_append_of_pos hwhole, List.takeWhile_append_of_pos hwhole,
      List.dropWhile_cons, hpoint, List.takeWhile_cons]
    simpa [hw] using hfraction

theorem literal?_of_isIdentifier (h : isIdentifier t = true) : literal? t = none :=
  (isWord_of_isIdentifier h).1.literal?_eq_none

theorem IsTerminal.ofText (h : IsTerminal v t e) (hloose : Loose [.run t]) :
    Split.ofText t = .ok (.leaf e) := by
  cases h with
  | @number _ d h =>
    obtain ⟨d', hd, hliteral⟩ := h.isNumber.literal?
    obtain rfl : d = d' := by simpa [decimal?_of_isNumeral h] using hd
    obtain ⟨c, rest, rfl, -⟩ := h.isNumber.first
    rw [Split.ofText, if_neg (by simp), hliteral]
  | constant c hcall =>
    exact Split.ofText_constant hloose (literal?_of_isIdentifier (isIdentifier_constant c))
      (by cases c <;> decide)
  | name h =>
    rw [Split.ofText_word hloose (literal?_of_isIdentifier h.identifier) h.notConstant,
      if_pos h.identifier]

end Leaves

section

variable {v : Vocabulary} {level : List Item → Prop} {k : Strength} {items left right : List Item}
  {e : Expr} {c : Char}

theorem Denotes.atom_of_operands (h : Denotes v level k items e) (hops : Operands items) :
    Denotes v level .atom items e := by
  induction h with
  | @tighter k _ _ _ _ ih => exact ih hops
  | @operator op => exact absurd (by simp) (hops.sign_not_mem op.symbol)
  | difference | negative => exact absurd (by simp) (hops.sign_not_mem '-')
  | negativeExponent => exact absurd (by simp) (hops.sign_not_mem '^')
  | factorial => exact absurd (by simp) (hops.sign_not_mem '!')
  | terminal h => exact .terminal h
  | group hlevel h _ => exact .group hlevel h
  | call hlevel harity hcount hinner hargs hcall _ =>
    exact .call hlevel harity hcount hinner hargs hcall

theorem AfterNegatives.sign_parts (h : AfterNegatives (left ++ .sign c :: right)) (hf : c ≠ '!')
    (hp : c ≠ '^') (hne : left ≠ []) :
    AfterNegatives left ∧ AfterNegatives right ∧ .sign '-' ∉ (left ++ .sign c :: right).tail := by
  rcases afterNegatives_iff.mp h with ⟨hs, -⟩ | hs | ⟨hfactorial, hpower, hminus⟩
  · exact absurd (signs_of_append hs).1.symm hf
  · exact absurd (signs_of_append hs).1.symm hp
  · obtain ⟨x, left, rfl⟩ := List.exists_cons_of_ne_nil hne
    simp only [List.cons_append, List.tail_cons, List.mem_cons, List.mem_append,
      not_or] at hfactorial hpower hminus
    refine ⟨.other ?_ ?_ hminus.1, .other hfactorial.2.2.2 hpower.2.2.2 fun h =>
      hminus.2.2 (List.mem_of_mem_tail h), ?_⟩
    · simpa using ⟨hfactorial.1, hfactorial.2.1⟩
    · simpa using ⟨hpower.1, hpower.2.1⟩
    · simpa using hminus

theorem AfterNegatives.argument {args : List (List Item)} (h : AfterNegatives items)
    (hargs : Arguments args items) (hne : ∀ a ∈ args, a ≠ []) : ∀ a ∈ args, AfterNegatives a := by
  induction hargs with
  | none => simp
  | last => simpa using h
  | cons _ _ _ ih =>
    obtain ⟨hempty, hrest⟩ := List.forall_mem_cons.mp hne
    obtain ⟨hfirst, hlast, -⟩ := h.sign_parts (by decide) (by decide) hempty
    exact List.forall_mem_cons.mpr ⟨hfirst, ih hlast hrest⟩

theorem ofCall_of_isCallTo {name : Text} {arity : Arity} {args : List Expr}
    (harity : v.arity? name = some arity) (hcount : arity.admits args.length = true)
    (h : IsCallTo v name args e) : Expr.ofCall v name args = .ok e := by
  cases h with
  | function hf =>
    obtain rfl : arity = _ := by simpa [Vocabulary.arity?, hf] using harity.symm
    simp [Expr.ofCall, hf, Expr.ofCallable, hcount]
  | series hs =>
    obtain rfl : arity = _ := by simpa [Vocabulary.arity?, hs] using harity.symm
    simp only [Expr.ofCall, hs, Expr.ofCallable, if_pos hcount, Expr.ofSeries]
  | @formula f _ hl hf =>
    obtain rfl : arity = .exactly f.arity := by simpa [Vocabulary.arity?, hl, hf] using harity.symm
    have hexact : args.length = f.arity := by
      obtain ⟨hleast, hmost⟩ := Bool.and_eq_true_iff.mp hcount
      exact Nat.le_antisymm (of_decide_eq_true hmost) (of_decide_eq_true hleast)
    simp [Expr.ofCall, hl, hf, hexact]

/-- The tree that is built from the text of the items is like this one. -/
def BuildsLike (v : Vocabulary) (items : List Item) (e : Expr) : Prop :=
  ∃ e', Expr.build v (textOf items) = .ok e' ∧ Expr.Respelled e e'

theorem BuildsLike.operator {op : Operator} {a b : Expr} (hop : op ≠ .subtract)
    (h : Loose (left ++ .sign op.symbol :: right)) (hlast : .sign op.symbol ∉ right)
    (hlooser : ∀ c ∈ op.looser, .sign c ∉ left ++ .sign op.symbol :: right)
    (ha : BuildsLike v left a) (hb : BuildsLike v right b) :
    BuildsLike v (left ++ .sign op.symbol :: right) (.binary op a b) := by
  obtain ⟨a', ha, halike⟩ := ha
  obtain ⟨b', hb, hblike⟩ := hb
  refine ⟨.binary op a' b', ?_, .binary op halike hblike⟩
  rw [Expr.build_operator hop h hlast hlooser, ha, hb]
  rfl

theorem BuildsLike.negative (h : Loose (.sign '-' :: items)) (hplus : .sign '+' ∉ items)
    (hminus : .sign '-' ∉ items) (hliteral : literal? ('-' :: textOf items) = none)
    (ha : BuildsLike v items e) : BuildsLike v (.sign '-' :: items) (.negate e) := by
  obtain ⟨a, ha, halike⟩ := ha
  refine ⟨.negate a, ?_, halike.negate⟩
  rw [Expr.build_negative h hplus hminus hliteral, ha]
  rfl

theorem BuildsLike.trans {e' : Expr} (h : BuildsLike v items e') (halike : Expr.Respelled e e') :
    BuildsLike v items e := by
  obtain ⟨a, ha, h⟩ := h
  exact ⟨a, ha, halike.trans h⟩

theorem buildAll_of_builds {args : List (List Item × Expr)} (h : ∀ a ∈ args, BuildsLike v a.1 a.2) :
    ∃ es, Expr.buildAll v ((args.map Prod.fst).map textOf) = .ok es ∧
      List.Forall₂ Expr.Respelled (args.map Prod.snd) es := by
  induction args with
  | nil => exact ⟨[], Expr.buildAll_eq_ok.mpr .nil, .nil⟩
  | cons a args ih =>
    obtain ⟨⟨e, he, halike⟩, hrest⟩ := List.forall_mem_cons.mp h
    obtain ⟨es, hes, hall⟩ := ih hrest
    exact ⟨e :: es, Expr.buildAll_eq_ok.mpr (.cons he (Expr.buildAll_eq_ok.mp hes)),
      .cons halike hall⟩

theorem BuildsLike.negativeAtom (hv : v.Identified) (h : Denotes v level .atom items e)
    (ha : BuildsLike v items e) : BuildsLike v (.sign '-' :: items) (.negate e) := by
  have hloose : Loose (.sign '-' :: items) :=
    loose_cons.mpr ⟨⟨'-', .sign rfl trivial (.nil _)⟩, h.loose hv⟩
  have hnone (c : Char) : .sign c ∉ items :=
    fun hc => absurd (h.sign_mem hc) (by simp [Strength.signs])
  have hother (hliteral : literal? ('-' :: textOf items) = none) :=
    ha.negative hloose (hnone '+') (hnone '-') hliteral
  have hopen (hmem : '(' ∈ textOf items) : literal? ('-' :: textOf items) = none :=
    literal?_eq_none (List.mem_cons_of_mem _ hmem) (by decide) (by decide)
  cases h with
  | tighter hk _ => exact absurd rfl hk
  | @operator op _ _ _ _ _ hk => cases op <;> cases hk
  | group | call => exact hother (hopen (by simp))
  | @terminal t e hterminal =>
    have hword (hid : isIdentifier t = true) : literal? ('-' :: textOf [.run t]) = none := by
      simpa using (isWord_of_isIdentifier hid).1.literal?_append ['-']
    cases hterminal with
    | constant c => exact hother (hword (isIdentifier_constant c))
    | name h => exact hother (hword h.identifier)
    | @number _ d hd =>
      -- the minus is part of the literal, but the one of a zero is a negation
      have hliteral : literal? (textOf [.sign '-', .run t]) =
          some (if d.toFloat == 0 then .negate (.number 0) else .number (-d.toFloat)) := by
        simp [literal?, decimal?_of_isNumeral hd]
      refine ⟨_, Expr.build_literal hloose (by simp) hliteral, ?_⟩
      by_cases hzero : (d.toFloat == 0) = true
      · rw [if_pos hzero, toFloat_eq_zero hzero]
        exact .refl _
      · rw [if_neg hzero]
        exact (Expr.Respelled.negate_number d.toFloat).symm

theorem AfterNegatives.operand (h : Operands items) : AfterNegatives items :=
  .other (h.sign_not_mem '!') (h.sign_not_mem '^') fun hm =>
    h.sign_not_mem '-' (List.mem_of_mem_tail hm)

theorem AfterNegatives.signed (h : AfterNegatives (.sign '-' :: items)) :
    .sign '!' ∉ items ∧ .sign '^' ∉ items ∧ .sign '-' ∉ items := by
  rcases afterNegatives_iff.mp h with ⟨hs, -⟩ | hs | ⟨hf, hp, hminus⟩
  · simp at hs
  · simp at hs
  · exact ⟨fun h => hf (List.mem_cons_of_mem _ h), fun h => hp (List.mem_cons_of_mem _ h), hminus⟩

theorem AfterNegatives.power_parts (h : AfterNegatives (left ++ .sign '^' :: right)) :
    Operands left ∧ Operands right := by
  rcases afterNegatives_iff.mp h with ⟨hs, -⟩ | hs | ⟨-, hp, -⟩
  · exact (signs_of_append hs).2
  · exact (signs_of_append hs).2
  · exact absurd (by simp) hp

theorem AfterNegatives.factorial_part (h : AfterNegatives (items ++ [.sign '!'])) :
    Operands items := by
  rcases afterNegatives_iff.mp h with ⟨hs, -⟩ | hs | ⟨hf, -⟩
  · exact (signs_of_append hs).2.1
  · exact (signs_of_append hs).2.1
  · exact absurd (by simp) hf

theorem Operator.symbol_not_mem_next {op : Operator} (hop : op ≠ .subtract) :
    op.symbol ∉ op.strength.next.signs := by
  cases op <;> first | exact absurd rfl hop | decide

theorem Expr.Respelled.negated_operand {op : Operator} {a a' b : Expr}
    (hop : op = .multiply ∨ op = .divide) (h : Expr.Respelled a a'.negate) :
    Expr.Respelled (.binary op a b) (.negate (.binary op a' b)) := by
  refine .trans (.binary op h (.refl b)) ?_
  rcases hop with rfl | rfl
  · exact (Expr.Respelled.negate_multiply a' b).symm
  · exact (Expr.Respelled.negate_divide a' b).symm

/-- The text is built into a tree like this one and, if it begins with a minus and is no sum, the
rest of it into a tree with the negative value. -/
structure Builds (v : Vocabulary) (items : List Item) (e : Expr) : Prop where
  like : BuildsLike v items e
  negated : ∀ rest, items = .sign '-' :: rest → .sign '+' ∉ rest →
    ∃ a, BuildsLike v rest a ∧ Expr.Respelled e a.negate

theorem Builds.unsigned (h : BuildsLike v items e) (hsign : Unsigned items) : Builds v items e :=
  ⟨h, fun _ heq _ => absurd (heq ▸ rfl) hsign⟩

theorem Builds.sum (h : BuildsLike v (left ++ .sign '+' :: right) e) (hne : left ≠ []) :
    Builds v (left ++ .sign '+' :: right) e := by
  refine ⟨h, fun rest heq hplus => absurd ?_ hplus⟩
  obtain ⟨x, left, rfl⟩ := List.exists_cons_of_ne_nil hne
  obtain ⟨-, rfl⟩ := List.cons.inj heq
  simp

theorem Operator.looser_not_mem {op : Operator} (hop : op = .multiply ∨ op = .divide)
    (hc : c ∈ op.looser) (hminus : c ≠ '-') : c ∉ op.strength.signs := by
  rcases hop with rfl | rfl <;>
    simp only [Operator.looser, List.mem_cons, List.not_mem_nil, or_false] at hc
  · rcases hc with rfl | rfl
    · decide
    · exact absurd rfl hminus
  · rcases hc with rfl | rfl | rfl
    · decide
    · exact absurd rfl hminus
    · decide

/-- A minus in front of a product or a quotient is taken off before it is divided. -/
theorem Builds.factors {op : Operator} {a b : Expr} (hop : op = .multiply ∨ op = .divide)
    (hwhole : Denotes v level op.strength (left ++ .sign op.symbol :: right) (.binary op a b))
    (hloose : Loose (left ++ .sign op.symbol :: right))
    (hminus : .sign '-' ∉ (left ++ .sign op.symbol :: right).tail)
    (hafter : .sign op.symbol ∉ right) (hne : left ≠ []) (ha : Builds v left a)
    (hb : BuildsLike v right b) : Builds v (left ++ .sign op.symbol :: right) (.binary op a b) := by
  have hsubtract : op ≠ .subtract := by rcases hop with rfl | rfl <;> decide
  obtain ⟨x, left, rfl⟩ := List.exists_cons_of_ne_nil hne
  have hlooser : ∀ c ∈ op.looser, .sign c ∉ left ++ .sign op.symbol :: right := by
    intro c hc hm
    by_cases hsign : c = '-'
    · exact hminus (hsign ▸ hm)
    · exact Operator.looser_not_mem hop hc hsign (hwhole.sign_mem (List.mem_cons_of_mem x hm))
  by_cases hx : x = .sign '-'
  · subst hx
    have hplus : .sign '+' ∉ left ++ .sign op.symbol :: right :=
      hlooser '+' (by rcases hop with rfl | rfl <;> decide)
    obtain ⟨a', ha', halike⟩ := ha.negated left rfl fun hm => hplus (List.mem_append_left _ hm)
    have hrest := ha'.operator hsubtract (loose_cons.mp hloose).2 hafter hlooser hb
    have hnegative : Expr.Respelled (.binary op a b) (.negate (.binary op a' b)) :=
      .negated_operand hop halike
    have hliteral : literal? ('-' :: textOf (left ++ .sign op.symbol :: right)) = none := by
      rw [← textOf_sign]
      refine literal?_of_sign op.isSign_symbol (by simp) ?_
      rcases hop with rfl | rfl <;> decide
    refine ⟨(hrest.negative hloose hplus hminus hliteral).trans hnegative, fun rest heq _ => ?_⟩
    obtain ⟨-, rfl⟩ := List.cons.inj heq
    exact ⟨_, hrest, hnegative⟩
  · refine .unsigned (ha.like.operator hsubtract hloose hafter (fun c hc hm => ?_) hb)
      (by simpa [Unsigned] using hx)
    rcases List.mem_cons.mp hm with rfl | hm
    · exact Operator.looser_not_mem hop hc (fun he => hx (he ▸ rfl))
        (hwhole.sign_mem List.mem_cons_self)
    · exact hlooser c hc hm

/-- The text of a layout in its final form is built into what the layout stands for. -/
theorem Denotes.builds (hv : v.Identified) (h : Denotes v AfterNegatives k items e)
    (hshape : AfterNegatives items) : Builds v items e := by
  have hloose := h.loose hv
  induction h with
  | tighter _ _ ih => exact ih hshape hloose
  | @operator op k left right a b hk hop hsign hl hr ihl ihr =>
    have hwhole := Denotes.operator hk hop hsign hl hr
    obtain ⟨hlooseLeft, hlooseSign⟩ := loose_append.mp hloose
    obtain ⟨-, hlooseRight⟩ := loose_cons.mp hlooseSign
    subst hk
    have hafter : .sign op.symbol ∉ right :=
      fun hm => Operator.symbol_not_mem_next hop (hr.sign_mem hm)
    by_cases hpower : op = .power
    · subst hpower
      obtain ⟨hleft, hright⟩ := AfterNegatives.power_parts hshape
      have hlooser : ∀ c ∈ Operator.power.looser,
          .sign c ∉ left ++ .sign Operator.power.symbol :: right := by
        simp [Operator.looser, Operator.symbol, hleft.sign_not_mem, hright.sign_not_mem]
      have hbase := (ihl (.operand hleft) hlooseLeft).like
      have hexponent := (ihr (.operand hright) hlooseRight).like
      exact .unsigned (hbase.operator hop hloose hafter hlooser hexponent)
        (hwhole.unsigned (by decide))
    · have hsymbol : op.symbol ≠ '!' ∧ op.symbol ≠ '^' := by
        revert hpower
        cases op <;> decide
      obtain ⟨hleft, hright, hminus⟩ := hshape.sign_parts hsymbol.1 hsymbol.2 hl.ne_nil
      have hbuilt := ihl hleft hlooseLeft
      have hbuiltRight := (ihr hright hlooseRight).like
      by_cases hadd : op = .add
      · subst hadd
        exact .sum (hbuilt.like.operator hop hloose hafter (fun c hc => by cases hc) hbuiltRight)
          hl.ne_nil
      · have hfactors : op = .multiply ∨ op = .divide := by
          revert hop hpower hadd
          cases op <;> simp
        exact .factors hfactors hwhole hloose hminus hafter hl.ne_nil hbuilt hbuiltRight
  | @difference left right _ _ _ hl =>
    -- the negative terms have groups of their own by now
    obtain ⟨-, -, hminus⟩ := hshape.sign_parts (by decide) (by decide) hl.ne_nil
    refine absurd ?_ hminus
    obtain ⟨x, left, rfl⟩ := List.exists_cons_of_ne_nil hl.ne_nil
    simp
  | @negative items e h ih =>
    obtain ⟨hf, hp, hminus⟩ := hshape.signed
    have hatom := h.atom_of_power hf hp
    have hbuilt :=
      (ih (.other hf hp fun hm => hminus (List.mem_of_mem_tail hm)) (loose_cons.mp hloose).2).like
    refine ⟨hbuilt.negativeAtom hv hatom, fun rest heq _ => ?_⟩
    obtain ⟨-, rfl⟩ := List.cons.inj heq
    exact ⟨e, hbuilt, .refl _⟩
  | negativeExponent =>
    exact absurd (by simp) ((AfterNegatives.power_parts hshape).2.sign_not_mem '-')
  | @factorial items e h ih =>
    have hops := hshape.factorial_part
    obtain ⟨e', hbuild, halike⟩ := (ih (.operand hops) (loose_append.mp hloose).1).like
    refine .unsigned ⟨_, ?_, halike.factorial⟩ ((Denotes.factorial h).unsigned (by decide))
    rw [Expr.build_factorial hloose fun op => hops.sign_not_mem op.symbol, hbuild]
    rfl
  | terminal h =>
    exact .unsigned ⟨_, Expr.build_run hloose (h.ofText hloose), .refl _⟩
      (unsigned_operand rfl [])
  | group hlevel h ih =>
    have hinner := loose_group.mp hloose
    obtain ⟨e', hbuild, halike⟩ := (ih hlevel hinner).like
    refine .unsigned ⟨e', ?_, halike⟩ (unsigned_operand rfl [])
    rw [Expr.build_group hinner h.ne_nil, hbuild]
  | @call name inner args arity e hlevel harity hcount hinner hargs hcall ih =>
    have hforms := AfterNegatives.argument hlevel hinner fun a ha => by
      obtain ⟨b, hb, rfl⟩ := List.mem_map.mp ha
      exact (hargs b hb).ne_nil
    have hbuilt : ∀ a ∈ args, BuildsLike v a.1 a.2 := fun a ha =>
      (ih a ha (hforms a.1 (List.mem_map_of_mem ha)) ((hargs a ha).loose hv)).like
    obtain ⟨es, hes, halike⟩ := buildAll_of_builds hbuilt
    obtain ⟨e', hcall', hlike⟩ := hcall.respelled halike
    have hnumber : arity.admits es.length = true := by
      rwa [← halike.length_eq, List.length_map]
    refine .unsigned ⟨e', ?_, hlike⟩ (unsigned_operand rfl [])
    rw [Expr.build_call hloose hinner, hes]
    exact ofCall_of_isCallTo harity hnumber hcall'

end

end Abacus
