import Abacus.Proofs.Reading.Levels
import Abacus.Proofs.Reading.Powers

/-! A layout of the grammar whose factorials and powers are in groups stands for a tree with the
same value after its negative terms have been put into groups: a minus before a product becomes one
before its first operand. -/

namespace Abacus

section

variable {v : Vocabulary} {level : List Item → Prop} {k : Strength} {p : Option Char}
  {items : List Item} {e : Expr} {es : List Expr}

theorem enfoldNegatives_operand {x : Item} (hx : x.isOperand = true) (rest : List Item) :
    enfoldNegatives p (x :: rest) = x :: enfoldNegatives (some ')') rest := by
  cases x with
  | sign c => cases hx
  | run t | group inner | call name inner => rw [enfoldNegatives]; simp

theorem enfoldNegatives_sign {c : Char} (hc : c ≠ '-') (rest : List Item) :
    enfoldNegatives p (.sign c :: rest) = .sign c :: enfoldNegatives (some c) rest := by
  rw [enfoldNegatives, if_neg fun h => hc h.1]

theorem enfoldNegatives_nil : enfoldNegatives p [] = [] := by rw [enfoldNegatives]

theorem enfoldNegatives_single {x : Item} (hx : x.isOperand = true) :
    enfoldNegatives p [x] = [x] := by
  rw [enfoldNegatives_operand hx, enfoldNegatives_nil]

theorem enfoldNegatives_append {c : Char} (hc : c ∈ ['+', '-', '*', '/', ',']) {left : List Item}
    (hnil : left = [] → p = some ')') (hlast : ∀ x ∈ left.getLast?, x.isOperand = true)
    (right : List Item) :
    enfoldNegatives p (left ++ .sign c :: right) =
      enfoldNegatives p left ++ enfoldNegatives (some ')') (.sign c :: right) := by
  -- by the length, since a negative term is passed over as a whole
  induction hn : left.length using Nat.strongRecOn generalizing left p with
  | _ n ih =>
    subst hn
    cases left with
    | nil =>
      obtain rfl := hnil rfl
      rw [enfoldNegatives_nil, List.nil_append, List.nil_append]
    | cons x left =>
      have htail : ∀ y ∈ left.getLast?, y.isOperand = true := fun y hy =>
        hlast y (List.mem_getLast?_cons hy)
      rcases isOperand_or_sign x with hx | ⟨d, rfl⟩
      · rw [List.cons_append, enfoldNegatives_operand hx, enfoldNegatives_operand hx,
          ih left.length (by simp) (fun _ => rfl) htail rfl, List.cons_append]
      · have hne : left ≠ [] := by
          rintro rfl
          have hsign := hlast _ rfl
          cases hsign
        by_cases hd : d = '-' ∧ p ≠ some '('
        · have hterm : termItems (left ++ .sign c :: right) =
              ((termItems left).1, (termItems left).2 ++ .sign c :: right) :=
            itemsBefore_sign_append (by simpa using hc) _ _
          have hlen := length_itemsBefore_le ['+', '-', '*', '/', ','].contains left
          have hsplit := termItems_append left
          have hafter : ∀ y ∈ (termItems left).2.getLast?, y.isOperand = true := fun y hy =>
            htail y (hsplit ▸ List.mem_getLast?_append_of_mem_getLast? hy)
          rw [List.cons_append, enfoldNegatives, enfoldNegatives, hterm, if_pos hd, if_pos hd,
            ih _ (by simp only [termItems, List.length_cons]; omega) (fun _ => rfl) hafter rfl]
          simp
        · rw [List.cons_append, enfoldNegatives, if_neg hd, enfoldNegatives, if_neg hd,
            ih left.length (by simp) (fun h => absurd h hne) htail rfl, List.cons_append]

/-- The signs that a level has after its negative terms have been put into groups, it had before, a
plus apart; a minus is left at the start of a group only. -/
theorem sign_mem_enfoldNegatives (hopen : .sign '(' ∉ items) :
    (∀ c, c ≠ '+' → .sign c ∈ enfoldNegatives p items → .sign c ∈ items) ∧
      .sign '-' ∉ (enfoldNegatives p items).tail ∧
      (p ≠ some '(' → .sign '-' ∉ enfoldNegatives p items) := by
  fun_induction enfoldNegatives p items with
  | case1 => simp
  | case2 p c rest hc ih =>
    have hsplit := termItems_append rest
    have hsub {c : Char} (h : .sign c ∈ (termItems rest).2) : .sign c ∈ rest := by
      rw [← hsplit]
      exact List.mem_append_right _ h
    obtain ⟨hmem, -, hnone⟩ := ih fun h => hopen (List.mem_cons_of_mem _ (hsub h))
    have hminus : Item.sign '-' ∉ plusAfter p ++ .group (.sign c :: (termItems rest).1) ::
        enfoldNegatives (some ')') (termItems rest).2 := by
      simpa [sign_not_mem_plusAfter] using hnone (by decide)
    refine ⟨fun d hd h => ?_, fun h => hminus (List.mem_of_mem_tail h), fun _ => hminus⟩
    have hrest : .sign d ∈ enfoldNegatives (some ')') (termItems rest).2 := by
      simpa [sign_not_mem_plusAfter hd] using h
    exact List.mem_cons_of_mem _ (hsub (hmem d hd hrest))
  | case3 p c rest hc ih =>
    simp only [List.mem_cons, Item.sign.injEq, not_or] at hopen
    obtain ⟨hmem, -, hnone⟩ := ih hopen.2
    have hminus := hnone (by simpa using Ne.symm hopen.1)
    refine ⟨fun d hd h => ?_, hminus, fun hp => ?_⟩
    · rcases List.mem_cons.mp h with h | h
      · exact h ▸ List.mem_cons_self
      · exact List.mem_cons_of_mem _ (hmem d hd h)
    · have hne : c ≠ '-' := fun he => hc ⟨he, hp⟩
      simpa [hminus] using hne.symm
  | case4 p x rest hx ih =>
    obtain ⟨hmem, -, hnone⟩ := ih fun h => hopen (List.mem_cons_of_mem _ h)
    have hminus := hnone (by decide)
    refine ⟨fun d hd h => ?_, hminus, fun _ => ?_⟩
    · rcases List.mem_cons.mp h with h | h
      · exact h ▸ List.mem_cons_self
      · exact List.mem_cons_of_mem _ (hmem d hd h)
    · simpa [hminus] using fun h => hx '-' h.symm

theorem unsigned_enfoldNegatives (h : Unsigned items) : Unsigned (enfoldNegatives p items) := by
  cases items with
  | nil => simp [enfoldNegatives_nil, Unsigned]
  | cons x rest =>
    rcases isOperand_or_sign x with hx | ⟨c, rfl⟩
    · rw [enfoldNegatives_operand hx]
      exact unsigned_operand hx _
    · rw [enfoldNegatives_sign (by simpa [Unsigned] using h)]
      simpa [Unsigned] using h

theorem denotes_minus {x : Item} {a : Expr} (hx : x.isOperand = true)
    (h : Denotes v AfterNegatives .atom [x] a) :
    Denotes v AfterNegatives .atom [.group [.sign '-', x]] a.negate := by
  have hsign (c : Char) : .sign c ≠ x := fun he => not_sign_of_isOperand hx he.symm
  have hlevel : AfterNegatives [.sign '-', x] :=
    .other (by simp [hsign]) (by simp [hsign]) (by simp [hsign])
  exact .group hlevel (Denotes.toSum (.negative (h.ofAtom _)))

theorem Denotes.getLast_operand (h : Denotes v level k items e) (hf : .sign '!' ∉ items) :
    ∀ x ∈ items.getLast?, x.isOperand = true := by
  obtain ⟨first, y, rfl, hy⟩ := h.getLast_or
  intro x hx
  rw [List.getLast?_concat] at hx
  obtain rfl : y = x := by simpa using hx
  rcases hy with hy | rfl
  · exact hy
  · simp at hf

/-- A product whose first minus does not take a plus before it stands for the same tree with its
negative factors in groups. -/
theorem Denotes.enfold_product (h : Denotes v AfterNegatives k items e) (hk : k ≠ .sum)
    (hf : .sign '!' ∉ items) (hpow : .sign '^' ∉ items)
    (hp : plusAfter p = [] ∨ p = some '(' ∨ Unsigned items) :
    Denotes v AfterNegatives k (enfoldNegatives p items) e := by
  induction h generalizing p with
  | @tighter k _ _ hatom _ ih => exact .tighter hatom (ih (by cases k <;> decide) hf hpow hp)
  | @operator op k left right a b hop hne hsign hl hr ihl ihr =>
    simp only [List.mem_append, List.mem_cons, not_or] at hf hpow
    have hsymbol : op.symbol ∈ ['*', '/'] := by
      revert hop hk
      cases op <;> rintro rfl <;> simp [Operator.symbol, Operator.strength] at hpow ⊢
    have hleft : plusAfter p = [] ∨ p = some '(' ∨ Unsigned left :=
      hp.imp_right (Or.imp_right Unsigned.of_append)
    rw [enfoldNegatives_append (by simp at hsymbol ⊢; tauto) (fun h => absurd h hl.ne_nil)
      (hl.getLast_operand hf.1),
      enfoldNegatives_sign (by rintro he; rw [he] at hsymbol; exact absurd hsymbol (by decide))]
    refine .operator hop hne (fun h => absurd h hk) (ihl hk hf.1 hpow.1 hleft)
      (ihr ?_ hf.2.2 hpow.2.2 (.inl ?_))
    · cases k <;> decide
    · simp only [List.mem_cons, List.not_mem_nil, or_false] at hsymbol
      rcases hsymbol with h | h <;> rw [h] <;> rfl
  | difference => exact absurd rfl hk
  | negative h ih =>
    simp only [List.mem_cons, not_or] at hf hpow
    have hatom := h.atom_of_power hf.2 hpow.2
    obtain ⟨x, rfl, hx⟩ := hatom.eq_operand
    have hterm : termItems [x] = ([x], []) := termItems_operands (by simpa [Operands] using hx)
    by_cases hopen : p = some '('
    · rw [enfoldNegatives, if_neg fun h => h.2 hopen, enfoldNegatives_single hx]
      exact .negative h
    · have hplus : plusAfter p = [] := by
        rcases hp with hp | hp | hp
        · exact hp
        · exact absurd hp hopen
        · exact absurd rfl hp
      rw [enfoldNegatives, if_pos ⟨rfl, hopen⟩, hterm, hplus, enfoldNegatives_nil]
      exact (denotes_minus hx hatom).ofAtom _
  | negativeExponent => simp at hpow
  | factorial => simp at hf
  | terminal h =>
    rw [enfoldNegatives_single rfl]
    exact .terminal h
  | group hlevel h _ =>
    rw [enfoldNegatives_single rfl]
    exact .group hlevel h
  | call hlevel harity hcount hinner hargs hcall _ =>
    rw [enfoldNegatives_single rfl]
    exact .call hlevel harity hcount hinner hargs hcall

theorem termItems_first {x : Item} (hx : x.isOperand = true) {rest : List Item}
    (hrest : ∀ y ∈ rest.head?, ∃ c ∈ ['+', '*', '/'], y = .sign c) :
    termItems (x :: rest) = ([x], rest) := by
  have hstop : termItems rest = ([], rest) := by
    cases rest with
    | nil => simp [termItems]
    | cons y rest =>
      obtain ⟨c, hc, rfl⟩ := hrest y rfl
      simp only [List.mem_cons, List.not_mem_nil, or_false] at hc
      rcases hc with rfl | rfl | rfl <;> simp [termItems]
  simp only [termItems] at hstop ⊢
  cases x with
  | sign c => cases hx
  | run t | group inner | call name inner => simp [hstop]

/-- A difference becomes the sum with a negative first operand. -/
theorem Denotes.enfoldNegatives (h : Denotes v AfterNegatives k items e) (hf : .sign '!' ∉ items)
    (hpow : .sign '^' ∉ items) (hk : k = .sum) (hp : plusAfter p = [] ∨ p = some '(') :
    ∃ e', Expr.Respelled e e' ∧ Denotes v AfterNegatives .sum (enfoldNegatives p items) e' := by
  induction h with
  | tighter _ h _ =>
    subst hk
    exact ⟨_, .refl _,
      .tighter (by decide) (h.enfold_product (by decide) hf hpow (hp.imp_right .inl))⟩
  | @operator op k left right a b hop hne hsign hl hr ih _ =>
    subst hk
    obtain rfl : op = .add := by cases op <;> first | rfl | exact absurd rfl hne | cases hop
    simp only [List.mem_append, List.mem_cons, not_or] at hf hpow
    obtain ⟨a', halike, hleft⟩ := ih hf.1 hpow.1 rfl
    have hright :=
      hr.enfold_product (p := some '+') (by decide) hf.2.2 hpow.2.2 (.inr (.inr (hsign rfl)))
    rw [enfoldNegatives_append (by decide) (fun h => absurd h hl.ne_nil) (hl.getLast_operand hf.1),
      enfoldNegatives_sign (by decide)]
    exact ⟨_, .binary .add halike (.refl b),
      .operator rfl hne (fun _ => unsigned_enfoldNegatives (hsign rfl)) hleft hright⟩
  | @difference left right a b hsign hl hr ih _ =>
    simp only [List.mem_append, List.mem_cons, not_or] at hf hpow
    obtain ⟨a', halike, hleft⟩ := ih hf.1 hpow.1 rfl
    -- the product begins with the same operand before and after its own negative factors are put
    -- into groups
    obtain ⟨x, rest, -, rfl, hx, -, hhead, -⟩ := hr.negated (by decide) hsign hf.2.2 hpow.2.2
    have hfree (c : Char) (hc : c ≠ '+') (hnone : .sign c ∉ x :: rest) :
        .sign c ∉ Abacus.enfoldNegatives none (x :: rest) := fun h =>
      hnone ((sign_mem_enfoldNegatives fun hopen =>
        absurd (hr.sign_mem hopen) (by decide)).1 c hc h)
    obtain ⟨y, others, c, hitems, -, hatom, -, hall⟩ :=
      (hr.enfold_product (p := none) (by decide) hf.2.2 hpow.2.2 (.inl rfl)).negated (by decide)
        (unsigned_enfoldNegatives hsign) (hfree _ (by decide) hf.2.2) (hfree _ (by decide) hpow.2.2)
    rw [enfoldNegatives_operand hx] at hitems
    obtain ⟨rfl, rfl⟩ := List.cons.inj hitems
    obtain ⟨b', hnegated, hright⟩ := hall _ _ (denotes_minus hx hatom) (.refl _)
    have hdifference : Abacus.enfoldNegatives (some ')') (.sign '-' :: x :: rest) =
        .sign '+' :: .group [.sign '-', x] :: Abacus.enfoldNegatives (some ')') rest := by
      rw [Abacus.enfoldNegatives, if_pos ⟨rfl, by decide⟩, termItems_first hx fun y hy =>
        (hhead y hy).imp fun _ hc => ⟨List.mem_cons_of_mem _ hc.1, hc.2⟩]
      rfl
    rw [enfoldNegatives_append (by decide) (fun h => absurd h hl.ne_nil) (hl.getLast_operand hf.1),
      hdifference]
    have hsum : Operator.add ≠ .subtract := by decide
    exact ⟨_, .binary .add halike hnegated,
      .operator rfl hsum (fun _ => unsigned_operand rfl _) hleft hright⟩
  | negative | negativeExponent | factorial | terminal | group | call => cases hk

theorem Denotes.negative_power {base exponent : List Item} (hb : Operands base)
    (he : Operands exponent)
    (h : Denotes v level k (base ++ .sign '^' :: .sign '-' :: exponent) e) :
    ∃ a b, e = .binary .power a (.negate b) ∧
      Denotes v level .atom base a ∧ Denotes v level .atom exponent b := by
  generalize hitems : base ++ .sign '^' :: .sign '-' :: exponent = items at h
  have hmem {c : Char} (hc : .sign c ∈ items) : c = '^' ∨ c = '-' := by
    rw [← hitems] at hc
    simpa [hb.sign_not_mem, he.sign_not_mem] using hc
  induction h with
  | tighter _ _ ih => exact ih hitems hmem
  | @operator op k left right a b hk hop hsign hl hr _ _ =>
    obtain rfl : op = .power := by
      have hsymbol := hmem (c := op.symbol) (by simp)
      revert hsymbol hop
      cases op <;> decide
    obtain rfl := hk
    obtain ⟨-, -, rfl⟩ := (List.append_cons_inj_of_notMem (hb.sign_not_mem '^')
      (by simpa using he.sign_not_mem '^')).mp hitems
    exact absurd rfl (hr.unsigned (by decide))
  | @difference left right _ _ _ hl _ _ _ =>
    have hregroup : (base ++ [.sign '^']) ++ .sign '-' :: exponent =
        left ++ .sign '-' :: right := by simpa using hitems
    obtain ⟨rfl, -, -⟩ := (List.append_cons_inj_of_notMem (by simpa using hb.sign_not_mem '-')
      (he.sign_not_mem '-')).mp hregroup
    obtain ⟨first, x, heq, hx⟩ := hl.getLast_or
    obtain ⟨-, hlast⟩ := List.append_inj' heq rfl
    obtain rfl : .sign '^' = x := (List.cons.inj hlast).1
    rcases hx with hx | hx <;> cases hx
  | negative =>
    cases base with
    | nil => cases hitems
    | cons x base =>
      obtain ⟨rfl, -⟩ := List.cons.inj hitems
      exact absurd List.mem_cons_self (hb.sign_not_mem '-')
  | @negativeExponent left right a b hl hr _ _ =>
    obtain ⟨rfl, -, hright⟩ := (List.append_cons_inj_of_notMem (hb.sign_not_mem '^')
      (by simpa using he.sign_not_mem '^')).mp hitems
    obtain ⟨-, rfl⟩ := List.cons.inj hright
    exact ⟨a, b, rfl, hl.atom_of_power (hb.sign_not_mem _) (hb.sign_not_mem _),
      hr.atom_of_factorial (he.sign_not_mem _)⟩
  | factorial => exact absurd (hmem (c := '!') (by simp)) (by decide)
  | terminal | group | call =>
    have hlen := congrArg List.length hitems
    simp at hlen
    omega

/-- In every form that a level has after its powers its negative terms may be put into groups. -/
theorem Denotes.enfoldNegatives_level (h : Denotes v AfterNegatives .sum items e)
    (hshape : AfterPowers items) (hp : plusAfter p = [] ∨ p = some '(') :
    ∃ e', Expr.Respelled e e' ∧
      Denotes v AfterNegatives .sum (Abacus.enfoldNegatives p items) e' := by
  cases hshape with
  | @factorial held hheld =>
    rw [enfoldNegatives_of_not_mem (by simp [hheld.sign_not_mem])]
    exact ⟨e, .refl e, h⟩
  | @power base exponent hb he =>
    rw [enfoldNegatives_of_not_mem (by simp [hb.sign_not_mem, he.sign_not_mem])]
    exact ⟨e, .refl e, h⟩
  | @negativePower base exponent hb he =>
    obtain ⟨a, b, rfl, hbase, hexponent⟩ := h.negative_power hb he
    obtain ⟨y, rfl, hy⟩ := hexponent.eq_operand
    have hgroup : Abacus.enfoldNegatives p (base ++ .sign '^' :: .sign '-' :: [y]) =
        base ++ .sign '^' :: [.group [.sign '-', y]] := by
      rw [enfoldNegatives_operands hb, Abacus.enfoldNegatives, if_neg (by simp),
        Abacus.enfoldNegatives, if_pos (by simp), termItems_operands he, enfoldNegatives_nil]
      rfl
    rw [hgroup]
    have hpower : Denotes v AfterNegatives .power
        (base ++ .sign Operator.power.symbol :: [.group [.sign '-', y]])
          (.binary .power a b.negate) :=
      .operator rfl (by decide) (fun h => by cases h) (hbase.ofAtom _)
        ((denotes_minus hy hexponent).ofAtom _)
    exact ⟨_, .refl _, hpower.toSum⟩
  | other hf hpow => exact h.enfoldNegatives hf hpow rfl hp

theorem Lists.enfoldNegatives (h : Lists v AfterNegatives items es) (hf : .sign '!' ∉ items)
    (hpow : .sign '^' ∉ items) (hp : plusAfter p = [] ∨ p = some '(') :
    ∃ es', List.Forall₂ Expr.Respelled es es' ∧
      Lists v AfterNegatives (Abacus.enfoldNegatives p items) es' := by
  induction h generalizing p with
  | none => exact ⟨[], .nil, by rw [enfoldNegatives_nil]; exact .none⟩
  | last h =>
    obtain ⟨e', halike, h⟩ := h.enfoldNegatives hf hpow rfl hp
    exact ⟨[e'], .cons halike .nil, .last h⟩
  | cons h _ hne ih =>
    simp only [List.mem_append, List.mem_cons, not_or] at hf hpow
    obtain ⟨e', halike, hfirst⟩ := h.enfoldNegatives hf.1 hpow.1 rfl hp
    obtain ⟨es', hes, hrest⟩ := ih (p := some ',') hf.2.2 hpow.2.2 (.inl rfl)
    have hsome : es' ≠ [] := by
      rintro rfl
      cases hes
      exact hne rfl
    rw [enfoldNegatives_append (by decide) (fun hnil => absurd hnil h.ne_nil)
      (h.getLast_operand hf.1), enfoldNegatives_sign (by decide)]
    exact ⟨e' :: es', .cons halike hes, .cons hfirst hrest hsome⟩

theorem afterNegatives_of_afterPowers (hshape : AfterPowers items) (hopen : .sign '(' ∉ items) :
    AfterNegatives (Abacus.enfoldNegatives p items) := by
  cases hshape with
  | @factorial held hheld =>
    rw [enfoldNegatives_of_not_mem (by simp [hheld.sign_not_mem])]
    exact .factorial hheld
  | @power base exponent hb he =>
    rw [enfoldNegatives_of_not_mem (by simp [hb.sign_not_mem, he.sign_not_mem])]
    exact .power hb he
  | @negativePower base exponent hb he =>
    rw [enfoldNegatives_operands hb, Abacus.enfoldNegatives, if_neg (by simp),
      Abacus.enfoldNegatives, if_pos (by simp), termItems_operands he, enfoldNegatives_nil]
    exact .power hb (by simp [Operands, Item.isOperand, plusAfter])
  | other hf hpow =>
    obtain ⟨hmem, htail, -⟩ := sign_mem_enfoldNegatives (p := p) hopen
    exact .other (fun h => hf (hmem _ (by decide) h)) (fun h => hpow (hmem _ (by decide) h)) htail

theorem Lists.open_not_mem (h : Lists v level items es) : .sign '(' ∉ items := by
  induction h with
  | none => simp
  | last h => exact fun hc => absurd (h.sign_mem hc) (by decide)
  | cons h _ _ ih => simpa using ⟨fun hc => absurd (h.sign_mem hc) (by decide), ih⟩

theorem AfterPowers.of_comma (h : AfterPowers items) (hc : .sign ',' ∈ items) :
    .sign '!' ∉ items ∧ .sign '^' ∉ items := by
  cases h with
  | factorial hheld => simp [hheld.sign_not_mem] at hc
  | power hb he | negativePower hb he => simp [hb.sign_not_mem, he.sign_not_mem] at hc
  | other hf hp => exact ⟨hf, hp⟩

theorem Lists.enfoldNegatives_level (h : Lists v AfterNegatives items es)
    (hshape : AfterPowers items) :
    ∃ es', List.Forall₂ Expr.Respelled es es' ∧
      Lists v AfterNegatives (Abacus.enfoldNegatives (some '(') items) es' ∧
      AfterNegatives (Abacus.enfoldNegatives (some '(') items) := by
  have hafter := afterNegatives_of_afterPowers (p := some '(') hshape h.open_not_mem
  cases h with
  | none => exact ⟨[], .nil, by rw [enfoldNegatives_nil]; exact .none, hafter⟩
  | last h =>
    obtain ⟨e', halike, h⟩ := h.enfoldNegatives_level hshape (.inr rfl)
    exact ⟨[e'], .cons halike .nil, .last h, hafter⟩
  | cons h hrest hne =>
    obtain ⟨hf, hpow⟩ := hshape.of_comma (by simp)
    obtain ⟨es', hes, hlists⟩ := (Lists.cons h hrest hne).enfoldNegatives hf hpow (.inr rfl)
    exact ⟨es', hes, hlists, hafter⟩

theorem Denotes.apartNegatives (h : Denotes v AfterPowers .sum items e) (hf : .sign '!' ∉ items)
    (hpow : .sign '^' ∉ items) :
    ∃ e', Expr.Respelled e e' ∧ Denotes v AfterNegatives .sum (apartNegatives items) e' ∧
      AfterNegatives (Abacus.apartNegatives items) := by
  obtain ⟨e₁, halike₁, h₁⟩ : ∃ e₁, Expr.Respelled e e₁ ∧
      Denotes v AfterNegatives .sum (Abacus.deep (Abacus.enfoldNegatives (some '(')) items) e₁ :=
    h.deep (fun _ h => h.deep) fun g es hg hes => hes.enfoldNegatives_level hg
  obtain ⟨e₂, halike₂, h₂⟩ :=
    h₁.enfoldNegatives (p := none) (by simpa using hf) (by simpa using hpow) rfl (.inl rfl)
  exact ⟨e₂, halike₁.trans halike₂, h₂,
    afterNegatives_of_afterPowers (.other (by simpa using hf) (by simpa using hpow)) fun hc =>
      absurd (h₁.sign_mem hc) (by decide)⟩

end

end Abacus
