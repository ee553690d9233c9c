import Abacus.Proofs.Canonical.Viable

/-! What a level looks like after its factorials, its powers and its negative terms have been put
into groups: a factorial or a power is alone in its group, and a minus comes first. -/

namespace Abacus

def Operands (items : List Item) : Prop := ∀ x ∈ items, x.isOperand = true

/-- A factorial alone, or no factorial. -/
inductive AfterFactorials : List Item → Prop
  | factorial {held : List Item} (h : Operands held) : AfterFactorials (held ++ [.sign '!'])
  | other {items : List Item} (h : .sign '!' ∉ items) : AfterFactorials items

/-- A factorial alone, a power alone, or neither of them; the exponent may still have a minus in
front. -/
inductive AfterPowers : List Item → Prop
  | factorial {held : List Item} (h : Operands held) : AfterPowers (held ++ [.sign '!'])
  | power {base exponent : List Item} (hb : Operands base) (he : Operands exponent) :
    AfterPowers (base ++ .sign '^' :: exponent)
  | negativePower {base exponent : List Item} (hb : Operands base) (he : Operands exponent) :
    AfterPowers (base ++ .sign '^' :: .sign '-' :: exponent)
  | other {items : List Item} (hf : .sign '!' ∉ items) (hp : .sign '^' ∉ items) : AfterPowers items

/-- A factorial alone, a power alone, or neither of them and a minus in front only. -/
inductive AfterNegatives : List Item → Prop
  | factorial {held : List Item} (h : Operands held) : AfterNegatives (held ++ [.sign '!'])
  | power {base exponent : List Item} (hb : Operands base) (he : Operands exponent) :
    AfterNegatives (base ++ .sign '^' :: exponent)
  | other {items : List Item} (hf : .sign '!' ∉ items) (hp : .sign '^' ∉ items)
    (hn : .sign '-' ∉ items.tail) : AfterNegatives items

/-- Every factorial of the level comes after an operand or a factorial. -/
def Backed : Char → List Item → Prop
  | _, [] => True
  | p, x :: rest => (x = .sign '!' → p = ')' ∨ p = '!') ∧ Backed x.ending rest

namespace Rules

/-- No operand begins after another or after a factorial; conditions on runs, on names before
argument lists and on the levels inside. -/
def leveled (run name : Text → Prop) (level : List Item → Prop) : Rules where
  follows p c := c = '(' → p ≠ ')' ∧ p ≠ '!'
  run := run
  group := level
  call n inner := name n ∧ level inner

end Rules

section

variable {f : List Item → List Item} {items : List Item} {c : Char}

theorem operands_append {others : List Item} :
    Operands (items ++ others) ↔ Operands items ∧ Operands others := by
  simp [Operands, or_imp, forall_and]

theorem operands_nil : Operands [] := by simp [Operands]

theorem isOperand_of_ne {x : Item} (h : ∀ c, x ≠ .sign c) : x.isOperand = true := by
  cases x with
  | sign c => exact absurd rfl (h c)
  | run t | group inner | call name inner => rfl

theorem ending_of_isOperand {x : Item} (h : x.isOperand = true) : x.ending = ')' := by
  cases x with
  | sign c => cases h
  | run t | group inner | call name inner => rfl

theorem operands_concat {x : Item} (hitems : Operands items) (h : x.isOperand = true) :
    Operands (items ++ [x]) :=
  operands_append.mpr ⟨hitems, by simpa [Operands] using h⟩

theorem Operands.sign_not_mem (h : Operands items) (c : Char) : Item.sign c ∉ items := fun hc => by
  have := h _ hc
  simp [Item.isOperand] at this

theorem Operands.deep (h : Operands items) : Operands (deep f items) := by
  induction items with
  | nil => simpa using h
  | cons x rest ih =>
    have hrest : Operands (Abacus.deep f rest) := ih fun y hy => h y (List.mem_cons_of_mem _ hy)
    cases x with
    | sign c => exact absurd List.mem_cons_self (h.sign_not_mem c)
    | run t | group inner | call name inner => simpa [Operands, Item.isOperand] using hrest

theorem AfterFactorials.deep (h : AfterFactorials items) : AfterFactorials (deep f items) := by
  cases h with
  | factorial h => simpa [deep_append] using AfterFactorials.factorial (h.deep (f := f))
  | other h => exact .other (by simpa using h)

theorem AfterPowers.deep (h : AfterPowers items) : AfterPowers (deep f items) := by
  cases h with
  | factorial h => simpa [deep_append] using AfterPowers.factorial (h.deep (f := f))
  | power hb he => simpa [deep_append] using AfterPowers.power (hb.deep (f := f)) (he.deep (f := f))
  | negativePower hb he =>
    simpa [deep_append] using AfterPowers.negativePower (hb.deep (f := f)) (he.deep (f := f))
  | other hf hp => exact .other (by simpa using hf) (by simpa using hp)

theorem Backed.deep {p : Char} (h : Backed p items) : Backed p (deep f items) := by
  induction items generalizing p with
  | nil => simpa using h
  | cons x rest ih =>
    have hrest := ih h.2
    cases x with
    | sign c => simpa [Backed] using ⟨by simpa using h.1, hrest⟩
    | run t | group inner | call name inner => simpa [Backed, Item.ending] using hrest

theorem Backed.close {p : Char} (h : Backed p items) : Backed ')' items := by
  cases items with
  | nil => trivial
  | cons x rest => exact ⟨fun _ => .inl rfl, h.2⟩

theorem Laid.backed {p q : Char} (h : Laid .viable p items q) (hp : isOperandCharacter p = false) :
    Backed p items := by
  induction h with
  | nil => trivial
  | sign hs hf _ ih =>
    refine ⟨fun he => ?_, ih (not_operand_of_sign hs)⟩
    obtain rfl := Item.sign.inj he
    simpa [hp] using hf.factorial rfl
  | run _ _ _ ih => exact ⟨by simp, ih rfl⟩
  | group _ _ _ _ _ _ ih => exact ⟨by simp, ih rfl⟩
  | call _ _ _ _ _ _ ih => exact ⟨by simp, ih rfl⟩

end

section

variable {run name : Text → Prop} {level next : List Item → Prop} {p q : Char}
  {held items rest : List Item}

theorem Laid.leveled_backed (h : Laid (.leveled run name fun _ => True) p items q) {p' q' : Char}
    (hv : Laid .viable p' items q') : Laid (.leveled run name (Backed '(')) p items q := by
  induction h generalizing p' q' with
  | nil => exact .nil _
  | sign hs hf _ ih => cases hv with | sign _ _ hv => exact .sign hs hf (ih hv)
  | run hf ht _ ih => cases hv with | run _ _ hv => exact .run hf ht (ih hv)
  | group hf _ _ hend _ ihinner ih =>
    cases hv with
    | group _ _ hvi _ hv => exact .group hf (hvi.backed rfl) (ihinner hvi) hend (ih hv)
  | call hf hc _ hend _ ihinner ih =>
    cases hv with
    | call _ _ hvi _ hv => exact .call hf ⟨hc.1, hvi.backed rfl⟩ (ihinner hvi) hend (ih hv)

/-- A change of levels that leads from one form of them to another may be made in every level. -/
theorem Laid.deep {f : List Item → List Item} (hdeep : ∀ g, level g → level (deep f g))
    (hf : ∀ g m, level g → Laid (.leveled run name next) '(' g m →
      next (f g) ∧ ∃ m', Laid (.leveled run name next) '(' (f g) m')
    (h : Laid (.leveled run name level) p items q) :
    Laid (.leveled run name next) p (deep f items) q := by
  induction h with
  | nil => simpa using Laid.nil _
  | sign hs hfol _ ih =>
    rw [deep_sign]
    exact .sign hs hfol ih
  | run hfol ht _ ih =>
    rw [deep_run]
    exact .run hfol ht ih
  | group hfol hg _ _ _ ihinner ih =>
    obtain ⟨hnext, m', hm'⟩ := hf _ _ (hdeep _ hg) ihinner
    rw [deep_group]
    exact .group hfol hnext hm' (fun h => absurd h (by decide)) ih
  | call hfol hc _ _ _ ihinner ih =>
    obtain ⟨hnext, m', hm'⟩ := hf _ _ (hdeep _ hc.2) ihinner
    rw [deep_call]
    exact .call hfol ⟨hc.1, hnext⟩ hm' (fun h => absurd h (by decide)) ih

theorem Laid.leveled_restart (p' : Char) (h : Laid (.leveled run name level) p items q)
    (hc : p' ≠ ')') (hf : p' ≠ '!') :
    ∃ q', Laid (.leveled run name level) p' items q' ∧ (items ≠ [] → q' = q) :=
  h.restart p' fun _ _ _ _ => ⟨hc, hf⟩

theorem Laid.leveled_sign (p' : Char) (h : Laid (.leveled run name level) p items q)
    (hsign : ∀ x ∈ items.head?, x.isOperand = false) :
    ∃ q', Laid (.leveled run name level) p' items q' := by
  cases h with
  | nil => exact ⟨p', .nil _⟩
  | sign hs hf h => exact ⟨q, .sign hs (fun hc => absurd hc (ne_open_of_sign hs)) h⟩
  | run | group | call => exact absurd (hsign _ rfl) (by simp [Item.isOperand])

theorem Laid.enclose {m : Char} (hc : p ≠ ')') (hf : p ≠ '!') (hlevel : level held)
    (hheld : Laid (.leveled run name level) p held m)
    (hrest : Laid (.leveled run name level) ')' rest q) :
    Laid (.leveled run name level) p (.group held :: rest) q := by
  obtain ⟨m', hm', -⟩ := hheld.leveled_restart '(' (by decide) (by decide)
  exact .group (fun _ => ⟨hc, hf⟩) hlevel hm' (fun h => absurd h (by decide)) hrest

/-- In a level whose factorials are backed, every one of them gets a group of its own. -/
theorem laid_enfoldFactorials (opened : Bool) (hheld : Operands held) (hc : p ≠ ')') (hf : p ≠ '!')
    (hback : Backed (if held = [] then p else ')') items)
    (h : Laid (.leveled run name AfterFactorials) p (held ++ items) q) :
    (∃ q', Laid (.leveled run name AfterFactorials) p (enfoldFactorials opened held items) q') ∧
      ((opened = true ∧ ∃ left, Operands left ∧
        enfoldFactorials opened held items = left ++ [.sign '!']) ∨
        .sign '!' ∉ enfoldFactorials opened held items) := by
  fun_induction enfoldFactorials opened held items generalizing p q with
  | case1 opened held => exact ⟨⟨q, by simpa using h⟩, .inr (hheld.sign_not_mem _)⟩
  | case2 opened held c rest hcond ih =>
    obtain ⟨rfl, hne, -⟩ := hcond
    obtain ⟨m, hm, hrest⟩ := h.exists_of_append
    have hfactorial : Laid (.leveled run name AfterFactorials) p (held ++ [.sign '!']) '!' := by
      cases hrest with
      | sign hs hfol _ => exact hm.append (.sign hs hfol (.nil _))
    obtain ⟨q', hq', -⟩ : ∃ q', Laid (.leveled run name AfterFactorials) ')' rest q' ∧
        (rest ≠ [] → q' = q) := by
      cases hrest with
      | sign _ _ hrest => exact hrest.restart _ fun d _ hd ho => absurd rfl (hd ho).2
    exact ih (by simp [Operands, Item.isOperand]) hc hf (by simpa using hback.2.close)
      (Laid.enclose hc hf (.factorial hheld) hfactorial hq')
  | case3 opened held c rest hcond ih =>
    obtain ⟨m, hm, hrest⟩ := h.exists_of_append
    cases hrest with
    | sign hs hfol hrest =>
      by_cases hexcl : c = '!'
      · subst hexcl
        -- nothing comes after a factorial that keeps its place
        have hne : held ≠ [] := by
          rintro rfl
          rcases hback.1 rfl with h | h
          · exact hc (by simpa using h)
          · exact hf (by simpa using h)
        obtain ⟨hopened, rfl⟩ : opened = true ∧ rest = [] := by simpa [hne] using hcond
        have hnil : enfoldFactorials false [] [] = [] := by rw [enfoldFactorials]
        rw [hnil]
        exact ⟨⟨'!', hm.append (.sign hs hfol (.nil _))⟩, .inl ⟨hopened, held, hheld, rfl⟩⟩
      · obtain ⟨⟨q', hq'⟩, hshape⟩ :=
          ih operands_nil (ne_close_of_sign hs) hexcl (by simpa [Item.ending] using hback.2) hrest
        refine ⟨⟨q', hm.append (.sign hs hfol hq')⟩, .inr ?_⟩
        have hnot : Item.sign '!' ∉ enfoldFactorials false [] rest := by simpa using hshape
        simp [hheld.sign_not_mem, hnot, Ne.symm hexcl]
  | case4 opened held x rest hx ih =>
    have hop := isOperand_of_ne hx
    exact ih (operands_concat hheld hop) hc hf (by simpa [ending_of_isOperand hop] using hback.2)
      (by simpa using h)

theorem head_itemsBefore (stops : Char → Bool) :
    ∀ x ∈ (itemsBefore stops items).2.head?, ∃ c, x = .sign c ∧ stops c = true := by
  induction items with
  | nil => simp
  | cons x rest ih =>
    cases x with
    | sign c =>
      by_cases hc : stops c = true
      · simp [hc]
      · simpa [hc] using ih
    | run t | group inner | call name inner => simpa using ih

theorem operands_itemsBefore {stops : Char → Bool} (hstops : ∀ c, isSign c = true → stops c = true)
    (h : Laid (.leveled run name level) p items q) : Operands (itemsBefore stops items).1 := by
  induction h with
  | nil => simpa using operands_nil
  | sign hs _ _ _ => simpa [hstops _ hs] using operands_nil
  | run _ _ _ ih | group _ _ _ _ _ _ ih | call _ _ _ _ _ _ ih =>
    simp only [itemsBefore_run, itemsBefore_group, itemsBefore_call]
    intro x hx
    rcases List.mem_cons.mp hx with rfl | hx
    · rfl
    · exact ih x hx

theorem operands_exponentItems (h : Laid (.leveled run name level) p items q) :
    Operands (exponentItems items).1 ∨
      ∃ rest, Operands rest ∧ (exponentItems items).1 = .sign '-' :: rest := by
  have hstops : ∀ c, isSign c = true → (!isOperandCharacter c) = true := fun c hc => by
    simp [not_operand_of_sign hc]
  unfold exponentItems
  split
  · next rest =>
    cases h with
    | sign _ _ h => exact .inr ⟨_, operands_itemsBefore hstops h, rfl⟩
  · exact .inl (operands_itemsBefore hstops h)

theorem head_exponentItems : ∀ x ∈ (exponentItems items).2.head?, x.isOperand = false := by
  unfold exponentItems
  split
  · intro x hx
    obtain ⟨c, rfl, -⟩ := head_itemsBefore _ x hx
    rfl
  · intro x hx
    obtain ⟨c, rfl, -⟩ := head_itemsBefore _ x hx
    rfl

theorem afterPowers_of_exponent {base : List Item} (hbase : Operands base)
    (h : Laid (.leveled run name level) p items q) :
    AfterPowers (base ++ .sign '^' :: (exponentItems items).1) := by
  rcases operands_exponentItems h with he | ⟨rest, hrest, he⟩
  · exact .power hbase he
  · rw [he]
    exact .negativePower hbase hrest

theorem laid_enfoldPowers (opened : Bool) (hheld : Operands held) (hc : p ≠ ')') (hf : p ≠ '!')
    (hnone : .sign '!' ∉ items) (h : Laid (.leveled run name AfterPowers) p (held ++ items) q) :
    (∃ q', Laid (.leveled run name AfterPowers) p (enfoldPowers opened held items) q') ∧
      .sign '!' ∉ enfoldPowers opened held items ∧
      ((opened = true ∧ AfterPowers (enfoldPowers opened held items)) ∨
        .sign '^' ∉ enfoldPowers opened held items) := by
  fun_induction enfoldPowers opened held items generalizing p q with
  | case1 opened held =>
    exact ⟨⟨q, by simpa using h⟩, hheld.sign_not_mem _, .inr (hheld.sign_not_mem _)⟩
  | case2 opened held c rest hcond ih =>
    obtain ⟨rfl, -⟩ := hcond
    obtain ⟨m, hm, hpower⟩ := h.exists_of_append
    cases hpower with
    | sign hs hfol hrest =>
      have hsplit := exponentItems_append rest
      have hshape := afterPowers_of_exponent hheld hrest
      rw [← hsplit] at hrest
      obtain ⟨k, hexponent, hafter⟩ := hrest.exists_of_append
      obtain ⟨q', hq'⟩ := hafter.leveled_sign ')' head_exponentItems
      refine ih (by simp [Operands, Item.isOperand]) hc hf ?_
        (Laid.enclose hc hf hshape (hm.append (.sign hs hfol hexponent)) hq')
      rw [← hsplit] at hnone
      simp only [List.mem_cons, List.mem_append, not_or] at hnone
      exact hnone.2.2
  | case3 opened held c rest hcond ih =>
    obtain ⟨m, hm, hrest⟩ := h.exists_of_append
    simp only [List.mem_cons, Item.sign.injEq, not_or] at hnone
    cases hrest with
    | sign hs hfol hrest =>
      obtain ⟨⟨q', hq'⟩, hfree, hshape⟩ :=
        ih operands_nil (ne_close_of_sign hs) (Ne.symm hnone.1) hnone.2 hrest
      refine ⟨⟨q', hm.append (.sign hs hfol hq')⟩, by simp [hheld.sign_not_mem, hnone.1, hfree], ?_⟩
      by_cases hpow : c = '^'
      · subst hpow
        -- nothing comes after a power that keeps its place
        obtain ⟨hopened, hend⟩ : opened = true ∧ (exponentItems rest).2 = [] := by simpa using hcond
        have hall := exponentItems_append rest
        rw [hend, List.append_nil] at hall
        have hkept := afterPowers_of_exponent hheld hrest
        have hnopow : Item.sign '^' ∉ rest := hall ▸ not_mem_exponentItems rest
        rw [hall] at hkept
        rw [enfoldPowers_of_not_mem hnopow]
        exact .inl ⟨hopened, by simpa using hkept⟩
      · have hnot : Item.sign '^' ∉ enfoldPowers false [] rest := by simpa using hshape
        exact .inr (by simp [hheld.sign_not_mem, hnot, Ne.symm hpow])
  | case4 opened held x rest hx ih =>
    simp only [List.mem_cons, not_or] at hnone
    exact ih (operands_concat hheld (isOperand_of_ne hx)) hc hf hnone.2 (by simpa using h)

theorem sign_not_mem_plusAfter {before : Option Char} {c : Char} (h : c ≠ '+') :
    Item.sign c ∉ plusAfter before := by
  unfold plusAfter
  split
  · simp
  · split <;> simp [h]

theorem laid_plusAfter {before : Option Char} (hbefore : before = none ∧ p = '(' ∨ before = some p)
    (hne : before ≠ some '(') :
    ∃ k, Laid (.leveled run name level) p (plusAfter before) k ∧ k ≠ ')' ∧ k ≠ '!' := by
  rcases hbefore with ⟨rfl, rfl⟩ | rfl
  · exact ⟨'(', .nil _, by decide, by decide⟩
  · by_cases hc : ['*', '/', ',', '^'].contains p = true
    · refine ⟨p, by simpa only [plusAfter, hc, if_true] using Laid.nil p, ?_, ?_⟩ <;> rintro rfl <;>
        exact absurd hc (by decide)
    · refine ⟨'+', ?_, by decide, by decide⟩
      simp only [plusAfter, hc]
      exact .sign (by decide) (fun h => absurd h (by decide)) (.nil _)

theorem laid_enfoldNegatives {before : Option Char}
    (hbefore : before = none ∧ p = '(' ∨ before = some p)
    (hfree : .sign '!' ∉ items ∧ .sign '^' ∉ items)
    (h : Laid (.leveled run name AfterNegatives) p items q) :
    (∃ q', Laid (.leveled run name AfterNegatives) p (enfoldNegatives before items) q') ∧
      .sign '!' ∉ enfoldNegatives before items ∧ .sign '^' ∉ enfoldNegatives before items ∧
      .sign '-' ∉ (enfoldNegatives before items).tail ∧
      (before ≠ some '(' → .sign '-' ∉ enfoldNegatives before items) := by
  fun_induction enfoldNegatives before items generalizing p q with
  | case1 before => exact ⟨⟨q, h⟩, by simp, by simp, by simp, by simp⟩
  | case2 before c rest hcond ih =>
    obtain ⟨rfl, hne⟩ := hcond
    have hsplit := termItems_append rest
    obtain ⟨k, hk, hck, hfk⟩ : ∃ k, Laid (.leveled run name AfterNegatives) p (plusAfter before) k ∧
        k ≠ ')' ∧ k ≠ '!' :=
      laid_plusAfter hbefore hne
    simp only [List.mem_cons, not_or] at hfree
    rw [← hsplit, List.mem_append, List.mem_append, not_or, not_or] at hfree
    cases h with
    | sign hs hfol hrest =>
      rw [← hsplit] at hrest
      obtain ⟨m, hterm, hafter⟩ := hrest.exists_of_append
      obtain ⟨m', hm'⟩ := hafter.leveled_sign ')' fun x hx => by
        obtain ⟨c, rfl, -⟩ := head_itemsBefore _ x hx
        rfl
      obtain ⟨⟨q', hq'⟩, hf, hp, -, hn⟩ := ih (.inr rfl) ⟨hfree.1.2.2, hfree.2.2.2⟩ hm'
      have hlevel : AfterNegatives (.sign '-' :: (termItems rest).1) :=
        .other (by simpa using hfree.1.2.1) (by simpa using hfree.2.2.1)
          (minus_not_mem_termItems rest)
      have hgroup :=
        Laid.enclose hck hfk hlevel (.sign hs (fun h => absurd h (by decide)) hterm) hq'
      have hnone : Item.sign '-' ∉ plusAfter before ++ .group (.sign '-' :: (termItems rest).1) ::
          enfoldNegatives (some ')') (termItems rest).2 := by
        simpa [sign_not_mem_plusAfter] using hn (by decide)
      exact ⟨⟨q', hk.append hgroup⟩, by simpa [sign_not_mem_plusAfter] using hf,
        by simpa [sign_not_mem_plusAfter] using hp, fun h => hnone (List.mem_of_mem_tail h),
        fun _ => hnone⟩
  | case3 before c rest hcond ih =>
    simp only [List.mem_cons, Item.sign.injEq, not_or] at hfree
    cases h with
    | sign hs hfol hrest =>
      obtain ⟨⟨q', hq'⟩, hf, hp, -, hn⟩ := ih (.inr rfl) ⟨hfree.1.2, hfree.2.2⟩ hrest
      have hnone := hn (by simpa using ne_open_of_sign hs)
      refine ⟨⟨q', .sign hs hfol hq'⟩, by simp [hfree.1.1, hf], by simp [hfree.2.1, hp], hnone,
        fun hne => ?_⟩
      have hc : c ≠ '-' := fun hc => hcond ⟨hc, hne⟩
      simp [hnone, Ne.symm hc]
  | case4 before x rest hx ih =>
    have hop := isOperand_of_ne hx
    simp only [List.mem_cons, not_or] at hfree
    obtain ⟨hfirst, hrest⟩ := h.of_cons
    rw [ending_of_isOperand hop] at hfirst hrest
    obtain ⟨⟨q', hq'⟩, hf, hp, -, hn⟩ := ih (.inr rfl) ⟨hfree.1.2, hfree.2.2⟩ hrest
    have hnone := hn (by decide)
    exact ⟨⟨q', hfirst.append hq'⟩, by simp [hfree.1.1, hf], by simp [hfree.2.1, hp], hnone,
      fun _ => by simp [Ne.symm (hx '-'), hnone]⟩

theorem enfoldNegatives_operands {before : Option Char} (hheld : Operands held) :
    enfoldNegatives before (held ++ items) =
      held ++ enfoldNegatives (if held = [] then before else some ')') items := by
  induction held generalizing before with
  | nil => simp
  | cons x rest ih =>
    have hrest : Operands rest := fun y hy => hheld y (List.mem_cons_of_mem _ hy)
    have hstep : enfoldNegatives before (x :: (rest ++ items)) =
        x :: enfoldNegatives (some ')') (rest ++ items) := by
      cases x with
      | sign c => exact absurd List.mem_cons_self (hheld.sign_not_mem c)
      | run t | group inner | call name inner => rw [enfoldNegatives]; simp
    rw [List.cons_append, hstep, ih hrest]
    simp

theorem itemsBefore_operands {stops : Char → Bool} (h : Operands items) :
    itemsBefore stops items = (items, []) := by
  have hnone : (itemsBefore stops items).2 = [] := by
    by_contra hne
    obtain ⟨x, rest, hx⟩ := List.exists_cons_of_ne_nil hne
    obtain ⟨c, rfl, -⟩ := head_itemsBefore stops x (by rw [hx]; rfl)
    refine h.sign_not_mem c ?_
    rw [← itemsBefore_append stops items, hx]
    simp
  have happ := itemsBefore_append stops items
  rw [hnone, List.append_nil] at happ
  exact Prod.ext happ hnone

theorem termItems_operands (h : Operands items) : termItems items = (items, []) :=
  itemsBefore_operands h

theorem afterNegatives_enfoldNegatives {before : Option Char}
    (hbefore : before = none ∧ p = '(' ∨ before = some p) (hshape : AfterPowers items)
    (h : Laid (.leveled run name AfterNegatives) p items q) :
    AfterNegatives (enfoldNegatives before items) ∧
      ∃ q', Laid (.leveled run name AfterNegatives) p (enfoldNegatives before items) q' := by
  cases hshape with
  | @factorial held hheld =>
    rw [enfoldNegatives_of_not_mem (by simp [hheld.sign_not_mem])]
    exact ⟨.factorial hheld, q, h⟩
  | @power base exponent hb he =>
    rw [enfoldNegatives_of_not_mem (by simp [hb.sign_not_mem, he.sign_not_mem])]
    exact ⟨.power hb he, q, h⟩
  | @negativePower base exponent hb he =>
    have hgroup : enfoldNegatives before (base ++ .sign '^' :: .sign '-' :: exponent) =
        base ++ .sign '^' :: [.group (.sign '-' :: exponent)] := by
      rw [enfoldNegatives_operands hb, enfoldNegatives, if_neg (by simp), enfoldNegatives,
        if_pos (by simp), termItems_operands he, enfoldNegatives]
      rfl
    rw [hgroup]
    obtain ⟨m, hbase, hpower⟩ := h.exists_of_append
    obtain ⟨hcaret, hminus⟩ := hpower.of_cons
    refine ⟨.power hb (by simp [Operands, Item.isOperand]), ')', hbase.append (hcaret.append ?_)⟩
    refine Laid.enclose (by decide) (by decide) (.other ?_ ?_ ?_) hminus (.nil _)
    · simp [he.sign_not_mem]
    · simp [he.sign_not_mem]
    · exact he.sign_not_mem _
  | other hf hp =>
    obtain ⟨hlaid, hf, hp, hn, -⟩ := laid_enfoldNegatives hbefore ⟨hf, hp⟩ h
    exact ⟨.other hf hp hn, hlaid⟩

theorem afterPowers_enfoldPowers (opened : Bool) (hshape : AfterFactorials items)
    (h : Laid (.leveled run name AfterPowers) '(' items q) :
    AfterPowers (enfoldPowers opened [] items) ∧
      ∃ q', Laid (.leveled run name AfterPowers) '(' (enfoldPowers opened [] items) q' := by
  cases hshape with
  | @factorial held hheld =>
    rw [enfoldPowers_of_not_mem (by simp [hheld.sign_not_mem])]
    exact ⟨.factorial hheld, q, h⟩
  | other hf =>
    obtain ⟨hlaid, hnone, hpower⟩ :=
      laid_enfoldPowers opened operands_nil (by decide) (by decide) hf h
    refine ⟨?_, hlaid⟩
    rcases hpower with ⟨-, hpower⟩ | hpower
    · exact hpower
    · exact .other hnone hpower

theorem afterFactorials_enfoldFactorials (opened : Bool) (hback : Backed '(' items)
    (h : Laid (.leveled run name AfterFactorials) '(' items q) :
    AfterFactorials (enfoldFactorials opened [] items) ∧
      ∃ q', Laid (.leveled run name AfterFactorials) '(' (enfoldFactorials opened [] items) q' := by
  obtain ⟨hlaid, hshape⟩ := laid_enfoldFactorials opened operands_nil (by decide) (by decide)
    (by simpa using hback) h
  refine ⟨?_, hlaid⟩
  rcases hshape with ⟨-, held, hheld, he⟩ | hnone
  · rw [he]
    exact .factorial hheld
  · exact .other hnone

end

/-- A layout with its factorials, then its powers and then its negative terms in groups, in every
level. -/
def regrouped (items : List Item) : List Item :=
  apartNegatives (apartPowers (apartFactorials items))

section

variable {run name : Text → Prop} {items : List Item}

theorem Laid.toLoose {p q : Char} {level : List Item → Prop}
    (h : Laid (.leveled run name level) p items q) (hrun : ∀ t, run t → Rules.loose.run t)
    (hname : ∀ t, name t → Rules.loose.run t) : Loose items :=
  (h.imp (fun _ _ _ => trivial) hrun (fun _ _ => trivial) fun n _ hc => hname n hc.1).loose

theorem Loose.regrouped (h : Loose items) : Loose (regrouped items) :=
  h.apartFactorials.apartPowers.apartNegatives

/-- Grouping in a text is grouping in its layout. -/
theorem textOf_regrouped (h : Loose items) :
    groupNegatives [] (scopePowers (scopeFactorials (textOf items))) =
      textOf (regrouped items) := by
  rw [scopeFactorials_textOf h, scopePowers_textOf h.apartFactorials,
    groupNegatives_nil_textOf h.apartFactorials.apartPowers, regrouped]

/-- Where no factorial lacks its operand in the end, every level has its final form. -/
theorem laid_regrouped {q : Char} (hrun : ∀ t, run t → Rules.loose.run t)
    (hname : ∀ t, name t → Rules.loose.run t)
    (h : Laid (.leveled run name fun _ => True) '(' items q)
    (hv : Level .viable (regrouped items)) :
    AfterNegatives (regrouped items) ∧
      ∃ q', Laid (.leveled run name AfterNegatives) '(' (regrouped items) q' := by
  have hloose := h.toLoose hrun hname
  obtain ⟨m, hviable, -⟩ := viable_of_apartFactorials hloose
    (viable_of_apartPowers hloose.apartFactorials
      (viable_of_apartNegatives hloose.apartFactorials.apartPowers hv))
  have hback := hviable.backed rfl
  have hfactorials := (h.leveled_backed hviable).deep (fun _ hg => hg.deep) fun _ _ =>
    afterFactorials_enfoldFactorials true
  obtain ⟨hf, q₃, hq₃⟩ := afterFactorials_enfoldFactorials false hback.deep hfactorials
  have hpowers := hq₃.deep (fun _ hg => hg.deep) fun _ _ => afterPowers_enfoldPowers true
  obtain ⟨hp, q₄, hq₄⟩ := afterPowers_enfoldPowers false hf.deep hpowers
  have hnegatives := hq₄.deep (fun _ hg => hg.deep) fun _ _ =>
    afterNegatives_enfoldNegatives (.inr rfl)
  exact afterNegatives_enfoldNegatives (.inl ⟨rfl, rfl⟩) hp.deep hnegatives

end

end Abacus
