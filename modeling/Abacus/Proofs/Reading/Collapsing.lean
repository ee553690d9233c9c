import Abacus.Proofs.Reading.Levels
import Abacus.Proofs.Reading.Settled

/-! In a text of the grammar at most two signs come in a row, the sign of a sum and a minus. Where
these are merged, the text is that of a layout with the same meaning. -/

namespace Abacus

/-- One minus takes a neighbouring plus away, and two make a plus. -/
def mergeSigns (t : Text) : Text :=
  replacePair '-' '-' ['+'] <| replacePair '-' '+' ['-'] <| replacePair '+' '-' ['-'] t

def BeginsOperand (t : Text) : Prop :=
  ∃ c rest, t = c :: rest ∧ (isOperandCharacter c = true ∨ c = '(')

/-- Begins with an operand or, if it is no power, with a minus and an operand. -/
def BeginsPart (k : Strength) (t : Text) : Prop :=
  BeginsOperand t ∨ k ∉ [.power, .factorial, .atom] ∧ ∃ rest, t = '-' :: rest ∧ BeginsOperand rest

def EndsOperand (t : Text) : Prop :=
  ∃ first c, t = first ++ [c] ∧ (isOperandCharacter c = true ∨ c = ')' ∨ c = '!')

section Merging

variable {c : Char} {t u : Text}

theorem mergeSigns_split (hc : c ≠ '+' ∧ c ≠ '-') (left right : Text) :
    mergeSigns (left ++ c :: right) = mergeSigns left ++ c :: mergeSigns right := by
  simp only [mergeSigns, replacePair_split hc.1 hc.2, replacePair_split hc.2 hc.1,
    replacePair_split hc.2 hc.2]

theorem mergeSigns_cons (hc : c ≠ '+' ∧ c ≠ '-') (t : Text) :
    mergeSigns (c :: t) = c :: mergeSigns t := mergeSigns_split hc [] t

theorem mergeSigns_append (h : ∀ c ∈ t, c ≠ '+' ∧ c ≠ '-') (rest : Text) :
    mergeSigns (t ++ rest) = t ++ mergeSigns rest := by
  induction t with
  | nil => rfl
  | cons c t ih =>
    obtain ⟨hc, ht⟩ := List.forall_mem_cons.mp h
    rw [List.cons_append, mergeSigns_cons hc, ih ht, List.cons_append]

theorem mergeSigns_eq_self (h : ∀ c ∈ t, c ≠ '+' ∧ c ≠ '-') : mergeSigns t = t := by
  have happend := mergeSigns_append h []
  rwa [List.append_nil, show mergeSigns [] = [] from rfl, List.append_nil] at happend

theorem not_sum_of_operand (h : isOperandCharacter c = true) : c ≠ '+' ∧ c ≠ '-' := by
  constructor <;> rintro rfl <;> cases h

theorem BeginsOperand.mergeSigns_append (h : BeginsOperand t) (signs : Text) :
    mergeSigns (signs ++ t) = mergeSigns signs ++ mergeSigns t := by
  obtain ⟨c, rest, rfl, hc⟩ := h
  have hne : c ≠ '+' ∧ c ≠ '-' := by
    rcases hc with hc | rfl
    · exact not_sum_of_operand hc
    · decide
  rw [mergeSigns_split hne, mergeSigns_cons hne]

theorem EndsOperand.mergeSigns_append (h : EndsOperand t) (rest : Text) :
    mergeSigns (t ++ rest) = mergeSigns t ++ mergeSigns rest := by
  obtain ⟨first, c, rfl, hc⟩ := h
  have hne : c ≠ '+' ∧ c ≠ '-' := by
    rcases hc with hc | rfl | rfl
    · exact not_sum_of_operand hc
    · decide
    · decide
  rw [List.append_assoc, List.singleton_append, mergeSigns_split hne, mergeSigns_split hne]
  simp [mergeSigns, replacePair]

theorem BeginsOperand.append (h : BeginsOperand t) (rest : Text) : BeginsOperand (t ++ rest) := by
  obtain ⟨c, others, rfl, hc⟩ := h
  exact ⟨c, others ++ rest, rfl, hc⟩

theorem BeginsPart.append {k : Strength} (h : BeginsPart k t) (others : Text) :
    BeginsPart k (t ++ others) := by
  rcases h with h | ⟨hk, rest, rfl, h⟩
  · exact .inl (h.append others)
  · exact .inr ⟨hk, rest ++ others, rfl, h.append others⟩

theorem BeginsPart.operand {k : Strength} (h : BeginsPart k t)
    (hk : k ∈ [.power, .factorial, .atom]) : BeginsOperand t :=
  Or.resolve_right h fun hother => hother.1 hk

theorem EndsOperand.append (h : EndsOperand t) (before : Text) : EndsOperand (before ++ t) := by
  obtain ⟨first, c, rfl, hc⟩ := h
  exact ⟨before ++ first, c, by simp, hc⟩

end Merging

section

variable {v : Vocabulary} {k : Strength} {t : Text} {e : Expr}

theorem IsTerminal.ends (hv : v.Identified) (h : IsTerminal v t e) :
    BeginsOperand t ∧ EndsOperand t := by
  obtain ⟨hne, hop⟩ := (h.isKept hv).atom.loose
  constructor
  · obtain ⟨c, rest, rfl⟩ := List.exists_cons_of_ne_nil hne
    exact ⟨c, rest, rfl, .inl (hop c List.mem_cons_self)⟩
  · rcases List.eq_nil_or_concat' t with rfl | ⟨first, c, rfl⟩
    · exact absurd rfl hne
    · exact ⟨first, c, rfl, .inl (hop c (by simp))⟩

theorem Loose.begins_minus {items : List Item} {rest : Text} (h : Loose items)
    (htext : textOf items = '-' :: rest) :
    ∃ others, items = .sign '-' :: others ∧ textOf others = rest := by
  have hnot {c : Char} {t : Text} (hc : isOperandCharacter c = true) (he : c :: t = '-' :: rest) :
      False := by
    rw [(List.cons.inj he).1] at hc
    cases hc
  obtain ⟨q, hq⟩ := h
  cases hq with
  | nil => cases htext
  | sign =>
    rw [textOf_sign] at htext
    obtain ⟨rfl, hrest⟩ := List.cons.inj htext
    exact ⟨_, rfl, hrest⟩
  | run _ ht _ =>
    obtain ⟨c, t, rfl⟩ := List.exists_cons_of_ne_nil ht.1
    rw [textOf_run] at htext
    exact (hnot (ht.2 c List.mem_cons_self) htext).elim
  | group => simp at htext
  | call _ hc _ _ _ =>
    obtain ⟨c, t, rfl⟩ := List.exists_cons_of_ne_nil hc.1
    rw [textOf_call] at htext
    exact (hnot (hc.2 c List.mem_cons_self) htext).elim

theorem unsigned_of_begins {items : List Item} (h : BeginsOperand (textOf items)) :
    Unsigned items := by
  cases items with
  | nil => simp [Unsigned]
  | cons x items =>
    intro hsign
    obtain rfl : x = .sign '-' := by simpa using hsign
    obtain ⟨c, rest, he, hc⟩ := h
    rw [textOf_sign] at he
    obtain ⟨rfl, -⟩ := List.cons.inj he
    simp [isOperandCharacter] at hc

theorem BeginsOperand.merged (h : BeginsOperand t) : BeginsOperand (mergeSigns t) := by
  obtain ⟨c, rest, rfl, hc⟩ := h
  refine ⟨c, mergeSigns rest, mergeSigns_cons ?_ rest, hc⟩
  rcases hc with hc | rfl
  · exact not_sum_of_operand hc
  · decide

/-- Some layout has this text and means something like this tree. -/
def LaysOut (v : Vocabulary) (k : Strength) (t : Text) (e : Expr) : Prop :=
  ∃ items e', textOf items = t ∧ Denotes v (fun _ => True) k items e' ∧ Expr.Respelled e e'

theorem laysOut_arguments {args : List (Text × Expr)}
    (h : ∀ a ∈ args, LaysOut v .sum (mergeSigns a.1) a.2) :
    ∃ inner es, textOf inner = mergeSigns (joinWith [','] (args.map Prod.fst)) ∧
      Lists v (fun _ => True) inner es ∧
      List.Forall₂ Expr.Respelled (args.map Prod.snd) es := by
  induction args with
  | nil => exact ⟨[], [], textOf_nil, .none, .nil⟩
  | cons a args ih =>
    obtain ⟨⟨items, e', htext, hd, halike⟩, hrest⟩ := List.forall_mem_cons.mp h
    obtain ⟨inner, es, hinner, hlists, hall⟩ := ih hrest
    cases args with
    | nil => exact ⟨items, [e'], htext, .last hd, .cons halike .nil⟩
    | cons b args =>
      have hne : es ≠ [] := by
        rintro rfl
        cases hall
      refine ⟨items ++ .sign ',' :: inner, e' :: es, ?_, .cons hd hlists hne, .cons halike hall⟩
      rw [textOf_append, textOf_sign, htext, hinner, ← mergeSigns_split (by decide)]
      simp [joinWith]

/-- The layout of a product with a minus in front is that of the rest with a minus in front. -/
theorem Denotes.signed_summand (hv : v.Identified) {items : List Item}
    (h : Denotes v (fun _ => True) .product items e) (htext : textOf items = mergeSigns ('-' :: t))
    (ht : BeginsOperand t) :
    ∃ others a, textOf others = mergeSigns t ∧ Denotes v (fun _ => True) .product others a ∧
      Unsigned others ∧
      Expr.Respelled e a.negate := by
  have hminus : mergeSigns ('-' :: t) = '-' :: mergeSigns t := ht.mergeSigns_append ['-']
  obtain ⟨others, rfl, hothers⟩ := (h.loose hv).begins_minus (htext.trans hminus)
  obtain ⟨a, ha, hunsigned, halike⟩ := h.unsigned_rest (by decide)
  exact ⟨others, a, hothers, ha, hunsigned, halike⟩

theorem LaysOut.sum (hv : v.Identified) {left right : Text} {a b : Expr} (hleft : EndsOperand left)
    (hright : BeginsPart .product right) (ha : LaysOut v .sum (mergeSigns left) a)
    (hb : LaysOut v .product (mergeSigns right) b) :
    LaysOut v .sum (mergeSigns (left ++ '+' :: right)) (.binary .add a b) := by
  obtain ⟨li, a', hlt, hl, ha⟩ := ha
  obtain ⟨ri, b', hrt, hr, hb⟩ := hb
  have hadd : Operator.add ≠ .subtract := by decide
  rcases hright with hbegins | ⟨-, rest, rfl, hbegins⟩
  · have hunsigned := unsigned_of_begins (hrt ▸ hbegins.merged)
    refine ⟨li ++ .sign '+' :: ri, _, ?_, .operator rfl hadd (fun _ => hunsigned) hl hr,
      .binary _ ha hb⟩
    rw [textOf_append, textOf_sign, hlt, hrt, hleft.mergeSigns_append]
    exact congrArg _ (hbegins.mergeSigns_append ['+']).symm
  · -- the minus of the product takes the plus away, and what is left is a difference
    obtain ⟨others, c, htext, hc, hunsigned, halike⟩ := Denotes.signed_summand hv hr hrt hbegins
    refine ⟨li ++ .sign '-' :: others, _, ?_, .difference hunsigned hl hc,
      .binary _ ha (hb.trans halike)⟩
    rw [textOf_append, textOf_sign, hlt, htext, hleft.mergeSigns_append]
    exact congrArg _ (hbegins.mergeSigns_append ['+', '-']).symm

theorem LaysOut.difference (hv : v.Identified) {left right : Text} {a b : Expr}
    (hleft : EndsOperand left) (hright : BeginsPart .product right)
    (ha : LaysOut v .sum (mergeSigns left) a) (hb : LaysOut v .product (mergeSigns right) b) :
    LaysOut v .sum (mergeSigns (left ++ '-' :: right)) (.binary .add a (.negate b)) := by
  obtain ⟨li, a', hlt, hl, ha⟩ := ha
  obtain ⟨ri, b', hrt, hr, hb⟩ := hb
  rcases hright with hbegins | ⟨-, rest, rfl, hbegins⟩
  · have hunsigned := unsigned_of_begins (hrt ▸ hbegins.merged)
    refine ⟨li ++ .sign '-' :: ri, _, ?_, .difference hunsigned hl hr, .binary _ ha hb.negate⟩
    rw [textOf_append, textOf_sign, hlt, hrt, hleft.mergeSigns_append]
    exact congrArg _ (hbegins.mergeSigns_append ['-']).symm
  · -- the two minus signs make a plus, and the product without its own is what is added
    obtain ⟨others, c, htext, hc, hunsigned, halike⟩ := Denotes.signed_summand hv hr hrt hbegins
    have hadd : Operator.add ≠ .subtract := by decide
    refine ⟨li ++ .sign '+' :: others, _, ?_, .operator rfl hadd (fun _ => hunsigned) hl hc,
      .difference .add ha (hb.trans halike)⟩
    rw [textOf_append, textOf_sign, hlt, htext, hleft.mergeSigns_append]
    exact congrArg _ (hbegins.mergeSigns_append ['-', '-']).symm

/-- The ends of the text are those of a part of the grammar and, with its signs merged, it means
something like this tree. -/
structure Spells (v : Vocabulary) (k : Strength) (t : Text) (e : Expr) : Prop where
  begins : BeginsPart k t
  ends : EndsOperand t
  laysOut : LaysOut v k (mergeSigns t) e

namespace Spells

variable {left right : Text} {a b : Expr}

theorem tighter (hk : k ≠ .atom) (h : Spells v k.next t e) : Spells v k t e where
  begins := by
    refine h.begins.imp_right fun ⟨hnext, hrest⟩ => ⟨?_, hrest⟩
    revert hnext
    cases k <;> decide
  ends := h.ends
  laysOut := by
    obtain ⟨items, e', htext, hd, halike⟩ := h.laysOut
    exact ⟨items, e', htext, .tighter hk hd, halike⟩

theorem operator (hv : v.Identified) {op : Operator} (hk : op.strength = k) (hop : op ≠ .subtract)
    (hleft : Spells v k left a) (hright : Spells v k.next right b) :
    Spells v k (left ++ op.symbol :: right) (.binary op a b) where
  begins := hleft.begins.append _
  ends := (hright.ends.append [op.symbol]).append left
  laysOut := by
    subst hk
    by_cases hadd : op = .add
    · subst hadd
      exact hleft.laysOut.sum hv hleft.ends hright.begins hright.laysOut
    · -- no other sign takes part in merging, so the text is gone through in two parts
      obtain ⟨li, a', hlt, hl, ha⟩ := hleft.laysOut
      obtain ⟨ri, b', hrt, hr, hb⟩ := hright.laysOut
      have hsymbol : (op.symbol ≠ '+' ∧ op.symbol ≠ '-') ∧ op.strength ≠ .sum := by
        revert hadd hop
        cases op <;> decide
      refine ⟨li ++ .sign op.symbol :: ri, _, ?_,
        .operator rfl hop (fun h => absurd h hsymbol.2) hl hr, .binary _ ha hb⟩
      rw [textOf_append, textOf_sign, hlt, hrt, mergeSigns_split hsymbol.1]

theorem difference (hv : v.Identified) (hleft : Spells v .sum left a)
    (hright : Spells v .product right b) :
    Spells v .sum (left ++ '-' :: right) (.binary .add a (.negate b)) where
  begins := hleft.begins.append _
  ends := (hright.ends.append ['-']).append left
  laysOut := hleft.laysOut.difference hv hleft.ends hright.begins hright.laysOut

theorem negative (h : Spells v .power t e) : Spells v .factor ('-' :: t) (.negate e) where
  begins := .inr ⟨by decide, t, rfl, h.begins.operand (by decide)⟩
  ends := h.ends.append ['-']
  laysOut := by
    obtain ⟨items, e', htext, hd, halike⟩ := h.laysOut
    refine ⟨.sign '-' :: items, _, ?_, .negative hd, halike.negate⟩
    rw [textOf_sign, htext]
    exact ((h.begins.operand (by decide)).mergeSigns_append ['-']).symm

theorem negativeExponent (hleft : Spells v .power left a) (hright : Spells v .factorial right b) :
    Spells v .power (left ++ '^' :: '-' :: right) (.binary .power a (.negate b)) where
  begins := hleft.begins.append _
  ends := (hright.ends.append ['^', '-']).append left
  laysOut := by
    obtain ⟨li, a', hlt, hl, ha⟩ := hleft.laysOut
    obtain ⟨ri, b', hrt, hr, hb⟩ := hright.laysOut
    have hbegins := hright.begins.operand (by decide)
    refine ⟨li ++ .sign '^' :: .sign '-' :: ri, _, ?_, .negativeExponent hl hr,
      .binary _ ha hb.negate⟩
    rw [textOf_append, textOf_sign, textOf_sign, hlt, hrt, mergeSigns_split (by decide)]
    exact congrArg _ (congrArg _ (hbegins.mergeSigns_append ['-']).symm)

theorem factorial (h : Spells v .factorial t e) :
    Spells v .factorial (t ++ ['!']) (.factorial e) where
  begins := h.begins.append _
  ends := ⟨t, '!', rfl, .inr (.inr rfl)⟩
  laysOut := by
    obtain ⟨items, e', htext, hd, halike⟩ := h.laysOut
    refine ⟨items ++ [.sign '!'], _, ?_, .factorial hd, halike.factorial⟩
    rw [textOf_append, htext, mergeSigns_split (by decide)]
    rfl

theorem terminal (hv : v.Identified) (h : IsTerminal v t e) : Spells v .atom t e where
  begins := .inl (h.ends hv).1
  ends := (h.ends hv).2
  laysOut := by
    have hkept : mergeSigns t = t := mergeSigns_eq_self fun c hc =>
      not_sum_of_operand ((h.isKept hv).atom.loose.2 c hc)
    exact ⟨[.run t], e, by rw [hkept, textOf_run, textOf_nil, List.append_nil],
      .terminal h, .refl e⟩

theorem group (h : Spells v .sum t e) : Spells v .atom ('(' :: (t ++ [')'])) e where
  begins := .inl ⟨'(', _, rfl, .inr rfl⟩
  ends := ⟨'(' :: t, ')', rfl, .inr (.inl rfl)⟩
  laysOut := by
    obtain ⟨items, e', htext, hd, halike⟩ := h.laysOut
    refine ⟨[.group items], e', ?_, .group trivial hd, halike⟩
    rw [textOf_group, htext, mergeSigns_cons (by decide), mergeSigns_split (by decide)]
    rfl

theorem call (hv : v.Identified) {name : Text} {args : List (Text × Expr)} {arity : Arity}
    (harity : v.arity? name = some arity) (hcount : arity.admits args.length = true)
    (hargs : ∀ a ∈ args, Spells v .sum a.1 a.2) (hcall : IsCallTo v name (args.map Prod.snd) e) :
    Spells v .atom (name ++ '(' :: (joinWith [','] (args.map Prod.fst) ++ [')'])) e := by
  have hword := (hv.isWord (by rw [← arity?_isSome, harity, Option.isSome_some])).1
  refine ⟨?_, ?_, ?_⟩
  · obtain ⟨c, rest, rfl, hc⟩ := hword.first
    exact .inl ⟨c, _, rfl, .inl (isOperandCharacter_iff.mpr (.inr (.inr hc)))⟩
  · exact .append ⟨'(' :: joinWith [','] (args.map Prod.fst), ')', rfl, .inr (.inl rfl)⟩ name
  · obtain ⟨inner, es, htext, hlists, halike⟩ := laysOut_arguments fun a ha => (hargs a ha).laysOut
    obtain ⟨e', hcall', hlike⟩ := hcall.respelled halike
    have hnumber : arity.admits es.length = true := by
      rwa [← halike.length_eq, List.length_map]
    refine ⟨[.call name inner], e', ?_, hlists.call trivial harity hnumber hcall', hlike⟩
    rw [textOf_call, htext, mergeSigns_append fun c hc => not_sum_of_operand
      (hword.characters c hc), mergeSigns_cons (by decide), mergeSigns_split (by decide)]
    rfl

end Spells

theorem Reads.spells (hv : v.Identified) (h : Reads v k t e) : Spells v k t e := by
  induction h with
  | tighter hk _ ih => exact ih.tighter hk
  | operator hk hop _ _ ihl ihr => exact ihl.operator hv hk hop ihr
  | difference _ _ ihl ihr => exact ihl.difference hv ihr
  | negative _ ih => exact ih.negative
  | negativeExponent _ _ ihl ihr => exact ihl.negativeExponent ihr
  | factorial _ ih => exact ih.factorial
  | leaf h => exact .terminal hv h.isTerminal
  | group _ ih => exact ih.group
  | call harity hcount _ hcall ih => exact .call hv harity hcount ih hcall

end

end Abacus
