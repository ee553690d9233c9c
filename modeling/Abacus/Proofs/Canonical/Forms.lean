import Abacus.Proofs.Canonical.Normal

/-! The forms that a level of a canonical text can have: operands with the signs of sums, products
and quotients between them, perhaps with a minus in front; one operand with its factorial; or a base
and an exponent. -/

namespace Abacus

/-- Operands with signs between them that take one on either side. -/
inductive Plain : List Item → Prop
  | single {x : Item} (hx : x.isOperand = true) : Plain [x]
  | cons {x : Item} {s : Char} {rest : List Item} (hx : x.isOperand = true)
    (hs : s ∈ ['+', '*', '/']) (h : Plain rest) : Plain (x :: .sign s :: rest)

inductive Form : List Item → Prop
  | plain {items : List Item} (h : Plain items) : Form items
  | negative {items : List Item} (h : Plain items) : Form (.sign '-' :: items)
  | factorial {x : Item} (hx : x.isOperand = true) : Form [x, .sign '!']
  | power {x y : Item} (hx : x.isOperand = true) (hy : y.isOperand = true) : Form [x, .sign '^', y]

/-- The pieces of a level between its commas; one that is empty has none. -/
inductive Arguments : List (List Item) → List Item → Prop
  | none : Arguments [] []
  | last {a : List Item} (hne : a ≠ []) (ha : .sign ',' ∉ a) : Arguments [a] a
  | cons {a : List Item} {args : List (List Item)} {items : List Item} (ha : .sign ',' ∉ a)
    (h : Arguments args items) (hne : args ≠ []) : Arguments (a :: args) (a ++ .sign ',' :: items)

/-- The items of a canonical text, down to its runs. -/
inductive Standing (v : Vocabulary) : Item → Prop
  | sign (c : Char) : Standing v (.sign c)
  | run {t : Text} (h : IsValue v t) : Standing v (.run t)
  | group {inner : List Item} (hform : Form inner) (hinner : ∀ x ∈ inner, Standing v x) :
    Standing v (.group inner)
  | call {name : Text} {inner : List Item} {args : List (List Item)} {arity : Arity}
    (hname : IsCalled v name) (hargs : Arguments args inner) (hforms : ∀ a ∈ args, Form a)
    (harity : v.arity? name = some arity) (hcount : arity.admits args.length = true)
    (hinner : ∀ x ∈ inner, Standing v x) : Standing v (.call name inner)

section Signs

variable {a b : Char}

theorem MayFollow.minus (h : MayFollow a b) (ha : a ∈ unaryPlaces) (hb : isSign b = true) :
    b = '-' := by
  obtain ⟨-, hallowed, hplus⟩ := h
  have hpair : Allowed a b := hallowed (by rintro rfl; exact absurd hb (by decide))
  simp only [isSign, List.contains_iff_mem, List.mem_cons, List.not_mem_nil, or_false] at hb
  rcases hb with rfl | rfl | rfl | rfl | rfl | rfl | rfl
  case inr.inr.inl => exact absurd ha (hplus rfl)
  case inr.inr.inr.inl => rfl
  all_goals
    simp only [unaryPlaces, List.mem_cons, List.not_mem_nil, or_false] at ha
    rcases ha with rfl | rfl | rfl | rfl | rfl | rfl | rfl <;> exact absurd (by decide) hpair

/-- No sign that takes an operand after it ends a group or an argument. -/
theorem MayFollow.ended (h : MayFollow a b) (hb : b = ')' ∨ b = ',') (ha : a ≠ '(' ∨ b = ',') :
    a ∉ unaryPlaces := by
  intro hmem
  have hpair : Allowed a b := h.2.1 (by rcases hb with rfl | rfl <;> decide)
  simp only [unaryPlaces, List.mem_cons, List.not_mem_nil, or_false] at hmem
  rcases hb with rfl | rfl <;> rcases hmem with rfl | rfl | rfl | rfl | rfl | rfl | rfl <;>
    first | exact absurd (by decide) hpair | simp at ha

end Signs

section

variable {v : Vocabulary} {p q m : Char} {items held : List Item}

theorem isOperand_or_sign (x : Item) : x.isOperand = true ∨ ∃ c, x = .sign c := by
  cases x with
  | sign c => exact .inr ⟨c, rfl⟩
  | run t | group inner | call name inner => exact .inl rfl

theorem Laid.first (h : Laid (.canonical v) p items q) (hp : p ∈ unaryPlaces) :
    items = [] ∨
      (∃ x rest, items = x :: rest ∧ x.isOperand = true ∧ Laid (.canonical v) ')' rest q) ∨
      ∃ rest, items = .sign '-' :: rest ∧ Laid (.canonical v) '-' rest q := by
  cases h with
  | nil => exact .inl rfl
  | @sign _ c _ rest hs hf h =>
    obtain rfl : c = '-' := hf.minus hp hs
    exact .inr (.inr ⟨rest, rfl, h⟩)
  | run hf ht h => exact .inr (.inl ⟨_, _, rfl, rfl, h⟩)
  | group hf hg hinner hend h => exact .inr (.inl ⟨_, _, rfl, rfl, h⟩)
  | call hf hc hinner hend h => exact .inr (.inl ⟨_, _, rfl, rfl, h⟩)

theorem Laid.second (h : Laid (.canonical v) ')' items q) :
    items = [] ∨ ∃ s rest, items = .sign s :: rest ∧ isSign s = true ∧
      Laid (.canonical v) s rest q := by
  cases h with
  | nil => exact .inl rfl
  | sign hs hf h => exact .inr ⟨_, _, rfl, hs, h⟩
  | run hf _ _ | group hf _ _ _ _ | call hf _ _ _ _ => exact absurd rfl (hf.1 rfl).1

theorem Laid.operand (h : Laid (.canonical v) p items q) (hp : p ∈ unaryPlaces)
    (hops : Operands items) (hne : items ≠ []) : ∃ x, items = [x] ∧ x.isOperand = true := by
  rcases h.first hp with rfl | ⟨x, rest, rfl, hx, hrest⟩ | ⟨rest, rfl, -⟩
  · exact absurd rfl hne
  · rcases hrest.second with rfl | ⟨s, others, rfl, -, -⟩
    · exact ⟨x, rfl, hx⟩
    · exact absurd (by simp) (hops.sign_not_mem s)
  · exact absurd (by simp) (hops.sign_not_mem '-')

theorem Laid.plain (h : Laid (.canonical v) p items q) (hp : p ∈ unaryPlaces) (hq : q ∉ unaryPlaces)
    (hnone : ∀ c ∈ ['!', '^', '-', ','], .sign c ∉ items) : Plain items := by
  induction hn : items.length using Nat.strongRecOn generalizing items p with
  | _ n ih =>
    subst hn
    rcases h.first hp with rfl | ⟨x, rest, rfl, hx, hrest⟩ | ⟨rest, rfl, -⟩
    · cases h
      exact absurd hp hq
    · rcases hrest.second with rfl | ⟨s, others, rfl, hs, hothers⟩
      · exact .single hx
      · have hbinary : s ∈ ['+', '*', '/'] := by
          have hne : ∀ c ∈ ['!', '^', '-', ','], c ≠ s := fun c hc he => hnone c hc (by simp [he])
          simp only [isSign, List.contains_iff_mem, List.mem_cons, List.not_mem_nil, or_false,
            forall_eq_or_imp, forall_eq] at hs hne ⊢
          tauto
        refine .cons hx hbinary
          (ih others.length (by simp only [List.length_cons]; omega) hothers ?_
            (fun c hc hmem => hnone c hc (by simp [hmem])) rfl)
        simp only [unaryPlaces, List.mem_cons, List.not_mem_nil, or_false] at hbinary ⊢
        tauto
    · exact absurd (by simp) (hnone '-' (by simp))

/-- A level without a comma has one of the forms. -/
theorem Laid.form (h : Laid (.canonical v) p items q) (hp : p ∈ unaryPlaces) (hq : q ∉ unaryPlaces)
    (hshape : AfterNegatives items) (hcomma : .sign ',' ∉ items) : Form items := by
  cases hshape with
  | @factorial held hops =>
    obtain ⟨m, hheld, hsign⟩ := h.exists_of_append
    have hne : held ≠ [] := by
      rintro rfl
      cases hheld
      cases hsign with
      | sign hs hf _ => exact absurd (hf.minus hp hs) (by decide)
    obtain ⟨x, rfl, hx⟩ := hheld.operand hp hops hne
    exact .factorial hx
  | @power base exponent hb he =>
    obtain ⟨m, hbase, hrest⟩ := h.exists_of_append
    cases hrest with
    | @sign _ _ _ _ hs hf hexponent =>
      have hbne : base ≠ [] := by
        rintro rfl
        cases hbase
        exact absurd (hf.minus hp hs) (by decide)
      have hene : exponent ≠ [] := by
        rintro rfl
        cases hexponent
        exact absurd (by decide) hq
      obtain ⟨x, rfl, hx⟩ := hbase.operand hp hb hbne
      obtain ⟨y, rfl, hy⟩ := hexponent.operand (by decide) he hene
      exact .power hx hy
  | other hf hpow hminus =>
    cases items with
    | nil =>
      cases h
      exact absurd hp hq
    | cons x rest =>
      have hrest : ∀ c ∈ ['!', '^', '-', ','], Item.sign c ∉ rest := by
        intro c hc hmem
        simp only [List.mem_cons, List.not_mem_nil, or_false] at hc
        rcases hc with rfl | rfl | rfl | rfl
        · exact hf (List.mem_cons_of_mem _ hmem)
        · exact hpow (List.mem_cons_of_mem _ hmem)
        · exact hminus hmem
        · exact hcomma (List.mem_cons_of_mem _ hmem)
      rcases h.first hp with hnil | ⟨y, others, heq, hy, -⟩ | ⟨others, heq, hothers⟩
      · cases hnil
      · obtain ⟨rfl, rfl⟩ := List.cons.inj heq
        refine .plain (h.plain hp hq fun c hc hmem => ?_)
        rcases List.mem_cons.mp hmem with he | hmem
        · exact not_sign_of_isOperand hy he.symm
        · exact hrest c hc hmem
      · obtain ⟨rfl, rfl⟩ := List.cons.inj heq
        exact .negative (hothers.plain (by decide) hq hrest)

theorem Arguments.ne_nil {args : List (List Item)} (h : Arguments args items) (hne : args ≠ []) :
    items ≠ [] := by
  cases h with
  | none => exact absurd rfl hne
  | last ha _ => exact ha
  | cons _ _ _ => simp

theorem commas_eq_zero : commas items = 0 ↔ .sign ',' ∉ items := by
  rw [commas, List.count_eq_zero, mem_signs]

/-- A level has one piece more than it has commas, and each of them has one of the forms. -/
theorem Laid.arguments (h : Laid (.canonical v) p items q) (hp : p ∈ unaryPlaces)
    (hq : q ∉ unaryPlaces) (hshape : AfterNegatives items) :
    ∃ args, Arguments args items ∧ (∀ a ∈ args, Form a) ∧ args.length = commas items + 1 := by
  induction hn : items.length using Nat.strongRecOn generalizing items p with
  | _ n ih =>
    subst hn
    have hne : items ≠ [] := by
      rintro rfl
      cases h
      exact absurd hp hq
    by_cases hcomma : .sign ',' ∈ items
    · obtain ⟨a, rest, rfl, ha⟩ := List.eq_append_cons_of_mem hcomma
      -- where there is a comma there is no factorial and no power
      obtain ⟨hf, hpow, hminus⟩ : .sign '!' ∉ a ++ .sign ',' :: rest ∧
          .sign '^' ∉ a ++ .sign ',' :: rest ∧
          .sign '-' ∉ (a ++ .sign ',' :: rest).tail := by
        rcases afterNegatives_iff.mp hshape with ⟨hs, -⟩ | hs | hother
        · have hmem := mem_signs.mpr hcomma
          rw [hs] at hmem
          exact absurd hmem (by decide)
        · have hmem := mem_signs.mpr hcomma
          rw [hs] at hmem
          exact absurd hmem (by decide)
        · exact hother
      obtain ⟨m, hfirst, hrest⟩ := h.exists_of_append
      cases hrest with
      | sign hs hfollow hrest =>
        have htail : ∀ x ∈ rest, x ∈ (a ++ .sign ',' :: rest).tail := fun x hx => by
          cases a <;> simp [hx]
        have hafirst : AfterNegatives a :=
          .other (fun hm => hf (by simp [hm])) (fun hm => hpow (by simp [hm]))
            fun hm => hminus (by cases a <;> simp_all)
        have harest : AfterNegatives rest :=
          .other (fun hm => hf (by simp [hm])) (fun hm => hpow (by simp [hm]))
            fun hm => hminus (htail _ (List.mem_of_mem_tail hm))
        have hform := hfirst.form hp (hfollow.ended (.inr rfl) (.inr rfl)) hafirst ha
        obtain ⟨args, hargs, hforms, hlen⟩ :=
          ih rest.length (by simp; omega) hrest (by decide) harest rfl
        have hargsne : args ≠ [] := by
          rintro rfl
          cases hlen
        refine ⟨a :: args, .cons ha hargs hargsne, List.forall_mem_cons.mpr ⟨hform, hforms⟩, ?_⟩
        have hcount : commas (a ++ .sign ',' :: rest) = commas rest + 1 := by
          rw [← commas_eq_zero] at ha
          simp only [commas, signs_append, signs_sign, List.count_append,
            List.count_cons_self] at ha ⊢
          omega
        rw [hcount, List.length_cons, hlen]
    · refine ⟨[items], .last hne hcomma, ?_, by simp [commas_eq_zero.mpr hcomma]⟩
      simpa using h.form hp hq hshape hcomma

theorem Laid.ended (h : Laid (.canonical v) '(' items q) (hend : MayFollow q ')')
    (hne : items ≠ []) : q ∉ unaryPlaces := by
  refine hend.ended (.inl rfl) (.inl ?_)
  rcases h.ending_eq hne with rfl | hs
  · decide
  · exact ne_open_of_sign hs

theorem Laid.standing (h : Laid (.canonical v) p items q) (hfull : .group [] ∉ items) :
    ∀ x ∈ items, Standing v x := by
  induction h with
  | nil => simp
  | sign hs hf _ ih =>
    exact List.forall_mem_cons.mpr ⟨.sign _, ih fun hm => hfull (List.mem_cons_of_mem _ hm)⟩
  | run hf ht _ ih =>
    exact List.forall_mem_cons.mpr ⟨.run ht, ih fun hm => hfull (List.mem_cons_of_mem _ hm)⟩
  | @group _ _ _ inner _ hf hg hinner hend _ ihinner ih =>
    have hne : inner ≠ [] := by
      rintro rfl
      exact hfull List.mem_cons_self
    refine List.forall_mem_cons.mpr
      ⟨.group ?_ (ihinner hg.1.2), ih fun hm => hfull (List.mem_cons_of_mem _ hm)⟩
    exact hinner.form (by decide) (hinner.ended hend hne) hg.1.1 (commas_eq_zero.mp hg.2)
  | @call _ _ _ name inner _ hf hc hinner hend _ ihinner ih =>
    obtain ⟨hname, hcompact, arity, harity, hcount⟩ := hc
    refine List.forall_mem_cons.mpr ⟨?_, ih fun hm => hfull (List.mem_cons_of_mem _ hm)⟩
    by_cases hne : inner = []
    · subst hne
      exact .call hname .none (by simp) harity (by simpa [argumentCount] using hcount) (by simp)
    · obtain ⟨args, hargs, hforms, hlen⟩ :=
        hinner.arguments (by decide) (hinner.ended hend hne) hcompact.1
      refine .call hname hargs hforms harity ?_ (ihinner hcompact.2)
      rw [hlen]
      simpa [argumentCount, hne] using hcount

theorem Normal.standing (h : Normal v items) : ∀ x ∈ items, Standing v x := by
  obtain ⟨q, hq, -⟩ := h.laid
  exact hq.standing h.shape.2

theorem Normal.form (h : Normal v items) (hne : items ≠ []) : Form items := by
  obtain ⟨q, hq, hend⟩ := h.laid
  exact hq.form (by decide) (hq.ended hend hne) h.shape.1 (commas_eq_zero.mp h.noComma)

end

end Abacus
