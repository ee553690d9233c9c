import Abacus.Proofs.Canonical.InOrder

/-! Texts that are in order stay so when signs without effect, empty groups and points at the ends
of numbers are taken out of them. -/

namespace Abacus

section Splitting

variable {t x y left right : Text} {s : Char}

theorem split_run (hs : s ∉ t) (h : t ++ y = left ++ s :: right) :
    ∃ l, left = t ++ l ∧ y = l ++ s :: right := by
  rcases List.append_eq_append_iff.mp h with ⟨l, rfl, hy⟩ | ⟨r, rfl, hr⟩
  · exact ⟨l, rfl, hy⟩
  · cases r with
    | nil => exact ⟨[], by simp, by simpa using hr.symm⟩
    | cons d r =>
      obtain ⟨rfl, -⟩ := List.cons.inj hr
      simp at hs

theorem split_group (ho : s ≠ '(') (hc : s ≠ ')')
    (h : '(' :: (x ++ ')' :: y) = left ++ s :: right) :
    (∃ l, left = '(' :: (x ++ ')' :: l) ∧ y = l ++ s :: right) ∨
      ∃ l r, left = '(' :: l ∧ x = l ++ s :: r ∧ right = r ++ ')' :: y := by
  cases left with
  | nil => exact absurd (List.cons.inj h).1.symm ho
  | cons d left =>
    obtain ⟨rfl, hinner⟩ := List.cons.inj h
    rcases List.append_eq_append_iff.mp hinner with ⟨l, rfl, hy⟩ | ⟨r, rfl, hr⟩
    · cases l with
      | nil => exact absurd (List.cons.inj hy).1.symm hc
      | cons d l =>
        obtain ⟨rfl, rfl⟩ := List.cons.inj hy
        exact .inl ⟨l, rfl, rfl⟩
    · cases r with
      | nil => exact absurd (List.cons.inj hr).1 hc
      | cons d r =>
        obtain ⟨rfl, rfl⟩ := List.cons.inj hr
        exact .inr ⟨left, r, rfl, rfl, rfl⟩

end Splitting

def Item.sign? : Item → Option Char
  | .sign c => some c
  | _ => none

theorem Item.eq_sign {x : Item} {c : Char} (h : x.sign? = some c) : x = .sign c := by
  cases x <;> simp_all [Item.sign?]

/-- The signs of a level. -/
def signs (items : List Item) : List Char := items.filterMap Item.sign?

@[simp]
theorem signs_sign (c : Char) (rest : List Item) : signs (.sign c :: rest) = c :: signs rest := rfl

@[simp]
theorem signs_operand {x : Item} (hx : x.isOperand = true) (rest : List Item) :
    signs (x :: rest) = signs rest := by
  cases x with
  | sign c => cases hx
  | run t | group inner | call name inner => rfl

theorem signs_append (items others : List Item) :
    signs (items ++ others) = signs items ++ signs others :=
  List.filterMap_append

/-- Without a plus or an operand, or with another operand in the place of one. -/
inductive Thinned : List Item → List Item → Prop
  | erase (first : List Item) {x : Item} (last : List Item)
    (hx : x = .sign '+' ∨ x.isOperand = true) : Thinned (first ++ x :: last) (first ++ last)
  | replace (first : List Item) {x y : Item} (last : List Item) (hx : x.isOperand = true)
    (hy : y.isOperand = true) : Thinned (first ++ x :: last) (first ++ y :: last)

/-- With another operand in the place of one; it is an empty group only if that was one. -/
inductive Trimmed : List Item → List Item → Prop
  | replace (first : List Item) {x y : Item} (last : List Item) (hx : x.isOperand = true)
    (hy : y.isOperand = true) (hempty : y = .group [] → x = .group []) :
    Trimmed (first ++ x :: last) (first ++ y :: last)

section

variable {items others : List Item}

theorem Thinned.cons (x : Item) (h : Thinned items others) :
    Thinned (x :: items) (x :: others) := by
  cases h with
  | erase first last hx => exact .erase (x :: first) last hx
  | replace first last hx hy => exact .replace (x :: first) last hx hy

theorem Trimmed.cons (x : Item) (h : Trimmed items others) :
    Trimmed (x :: items) (x :: others) := by
  cases h with
  | replace first last hx hy he => exact .replace (x :: first) last hx hy he

theorem Trimmed.thinned (h : Trimmed items others) : Thinned items others := by
  cases h with
  | replace first last hx hy _ => exact .replace first last hx hy

theorem Trimmed.ne_nil (h : Trimmed items others) : others ≠ [] := by
  cases h
  simp

theorem not_sign_of_isOperand {x : Item} {c : Char} (h : x.isOperand = true) : x ≠ .sign c := by
  rintro rfl
  cases h

theorem signs_eq_nil : signs items = [] ↔ Operands items := by
  rw [signs, List.filterMap_eq_nil_iff]
  refine forall₂_congr fun x _ => ?_
  cases x <;> simp [Item.sign?, Item.isOperand]

theorem signs_operands (h : Operands items) : signs items = [] := signs_eq_nil.mpr h

theorem mem_signs {c : Char} : c ∈ signs items ↔ .sign c ∈ items := by
  rw [signs, List.mem_filterMap]
  constructor
  · rintro ⟨x, hx, hc⟩
    cases x <;> simp_all [Item.sign?]
  · exact fun h => ⟨_, h, rfl⟩

/-- The form of a level can be seen from its signs, what it ends with and where its minus is. -/
theorem afterNegatives_iff : AfterNegatives items ↔
    (signs items = ['!'] ∧ items.getLast? = some (.sign '!')) ∨ signs items = ['^'] ∨
      .sign '!' ∉ items ∧ .sign '^' ∉ items ∧ .sign '-' ∉ items.tail := by
  constructor
  · intro h
    cases h with
    | factorial h => exact .inl ⟨by rw [signs_append, signs_operands h]; rfl, by simp⟩
    | power hb he =>
      refine .inr (.inl ?_)
      rw [signs_append, signs_operands hb, signs_sign, signs_operands he]
      rfl
    | other hf hp hn => exact .inr (.inr ⟨hf, hp, hn⟩)
  · rintro (⟨hs, hlast⟩ | hs | ⟨hf, hp, hn⟩)
    · obtain ⟨held, x, rest, rfl, hheld, hx, hrest⟩ := List.filterMap_eq_cons_iff.mp hs
      obtain rfl := Item.eq_sign hx
      have hnil : rest = [] := by
        by_contra hne
        rw [List.getLast?_append_of_ne_nil _ (by simp), List.getLast?_cons_of_ne_nil hne] at hlast
        exact (signs_eq_nil.mp hrest).sign_not_mem _ (List.mem_of_getLast? hlast)
      subst hnil
      exact .factorial (signs_eq_nil.mp (List.filterMap_eq_nil_iff.mpr hheld))
    · obtain ⟨base, x, rest, rfl, hbase, hx, hrest⟩ := List.filterMap_eq_cons_iff.mp hs
      obtain rfl := Item.eq_sign hx
      exact .power (signs_eq_nil.mp (List.filterMap_eq_nil_iff.mpr hbase)) (signs_eq_nil.mp hrest)
    · exact .other hf hp hn

/-- The form of a level does not depend on plus signs, on how many operands there are or on what
they are. -/
theorem AfterNegatives.thinned (h : AfterNegatives items) (ht : Thinned items others) :
    AfterNegatives others := by
  rw [afterNegatives_iff] at h ⊢
  cases ht with
  | @erase first x last hx =>
    have hmem {y : Item} (hy : y ∈ first ++ last) : y ∈ first ++ x :: last := by
      simp only [List.mem_append, List.mem_cons] at hy ⊢
      tauto
    have htail (hn : Item.sign '-' ∉ (first ++ x :: last).tail) :
        Item.sign '-' ∉ (first ++ last).tail := by
      intro hm
      refine hn ?_
      cases first with
      | nil => exact List.mem_of_mem_tail hm
      | cons y first =>
        simp only [List.cons_append, List.tail_cons, List.mem_append, List.mem_cons] at hm ⊢
        tauto
    have hother : Item.sign '!' ∉ first ++ x :: last ∧ Item.sign '^' ∉ first ++ x :: last ∧
        Item.sign '-' ∉ (first ++ x :: last).tail → Item.sign '!' ∉ first ++ last ∧
        Item.sign '^' ∉ first ++ last ∧ Item.sign '-' ∉ (first ++ last).tail :=
      fun ⟨hf, hp, hn⟩ => ⟨fun hm => hf (hmem hm), fun hm => hp (hmem hm), htail hn⟩
    rcases hx with rfl | hx
    · -- a level with a plus has neither a factorial nor a power
      have hplus : '+' ∈ signs (first ++ .sign '+' :: last) := mem_signs.mpr (by simp)
      rcases h with ⟨hs, -⟩ | hs | h
      · rw [hs] at hplus
        exact absurd hplus (by decide)
      · rw [hs] at hplus
        exact absurd hplus (by decide)
      · exact .inr (.inr (hother h))
    · have hsigns : signs (first ++ x :: last) = signs (first ++ last) := by simp [signs_append, hx]
      rw [hsigns] at h
      refine h.imp (fun ⟨hs, hlast⟩ => ⟨hs, ?_⟩) (Or.imp_right hother)
      have hne : last ≠ [] := by
        rintro rfl
        rw [List.getLast?_concat] at hlast
        exact not_sign_of_isOperand hx (Option.some.inj hlast)
      rw [List.getLast?_append_of_ne_nil _ (by simp), List.getLast?_cons_of_ne_nil hne] at hlast
      rwa [List.getLast?_append_of_ne_nil _ hne]
  | @replace first x y last hx hy =>
    have hsigns : signs (first ++ x :: last) = signs (first ++ y :: last) := by
      simp [signs_append, hx, hy]
    have hmem {c : Char} (hm : Item.sign c ∈ first ++ y :: last) :
        Item.sign c ∈ first ++ x :: last := by
      rwa [← mem_signs, hsigns, mem_signs]
    rw [hsigns] at h
    refine h.imp (fun ⟨hs, hlast⟩ => ⟨hs, ?_⟩)
      (Or.imp_right fun ⟨hf, hp, hn⟩ =>
        ⟨fun hm => hf (hmem hm), fun hm => hp (hmem hm), fun hm => hn ?_⟩)
    · cases last with
      | nil =>
        rw [List.getLast?_concat] at hlast
        exact absurd (Option.some.inj hlast) (not_sign_of_isOperand hx)
      | cons z last =>
        rw [List.getLast?_append_of_ne_nil _ (by simp), List.getLast?_cons_cons] at hlast ⊢
        exact hlast
    · cases first with
      | nil => exact hm
      | cons z first =>
        simp only [List.cons_append, List.tail_cons, List.mem_append, List.mem_cons] at hm ⊢
        rcases hm with hm | hm | hm
        · exact .inl hm
        · exact absurd hm.symm (not_sign_of_isOperand hy)
        · exact .inr (.inr hm)

end

/-- Whatever may be called has an identifier for a name. -/
def Vocabulary.Identified (v : Vocabulary) : Prop :=
  ∀ name, v.isCallable name = true → isIdentifier name = true

theorem IsAtom.erase_point {left right : Text} (h : IsAtom (left ++ '.' :: right)) :
    IsAtom (left ++ right) := by
  have hmem {c : Char} (hc : c ∈ left ++ right) : c ∈ left ++ '.' :: right := by
    simp only [List.mem_append, List.mem_cons] at hc ⊢
    tauto
  rcases h with h | h
  · obtain ⟨c, rest, hfirst, hc⟩ := h.first
    refine .inl ⟨fun c hc => h.digits c (hmem hc), ?_, ?_⟩
    · cases left with
      | nil =>
        obtain ⟨rfl, -⟩ := List.cons.inj hfirst
        exact absurd hc (by decide)
      | cons d left =>
        obtain ⟨rfl, -⟩ := List.cons.inj hfirst
        exact ⟨d, left ++ right, rfl, hc⟩
    · have hpoint := h.point
      rw [List.count_append, List.count_cons] at hpoint
      rw [List.count_append]
      omega
  · obtain ⟨c, rest, hfirst, hc⟩ := h.first
    refine .inr ⟨?_, fun c hc => h.characters c (hmem hc), ?_⟩
    · cases left with
      | nil =>
        obtain ⟨rfl, -⟩ := List.cons.inj hfirst
        exact absurd hc (by decide)
      | cons d left =>
        obtain ⟨rfl, -⟩ := List.cons.inj hfirst
        exact ⟨d, left ++ right, rfl, hc⟩
    · obtain ⟨hl, hr, hlink⟩ := List.isChain_append.mp h.points
      exact List.isChain_append.mpr ⟨hl, hr.tail, fun x hx _ _ _ => hlink x hx '.' rfl rfl⟩

theorem IsCalled.no_point {v : Vocabulary} (hv : v.Identified) {name : Text} (h : IsCalled v name) :
    '.' ∉ name := by
  intro hmem
  have hid := hv name h.2
  cases name with
  | nil => cases hmem
  | cons c rest =>
    simp only [isIdentifier, Bool.and_eq_true, List.all_eq_true] at hid
    rcases List.mem_cons.mp hmem with rfl | hmem
    · exact absurd hid.1 (by decide)
    · exact absurd (hid.2 '.' hmem) (by decide)

section

variable {v : Vocabulary} {level : List Item → Prop} {p q : Char} {items : List Item}
  {left right : Text}

theorem not_mem_of_operands {t : Text} {s : Char} (ht : ∀ c ∈ t, isOperandCharacter c = true)
    (hs : isOperandCharacter s = false) : s ∉ t := fun h => by
  rw [ht s h] at hs
  cases hs

theorem Laid.erase_plus (h : Laid (.leveled IsAtom (IsCalled v) AfterNegatives) p items q)
    (ht : textOf items = left ++ '+' :: right) (hp : left = [] → p ≠ ')' ∧ p ≠ '!')
    (hleft : ∀ c ∈ left.getLast?, c ≠ ')' ∧ c ≠ '!' ∧ isOperandCharacter c = false) :
    ∃ others q', textOf others = left ++ right ∧
      Laid (.leveled IsAtom (IsCalled v) AfterNegatives) p others q' ∧ Thinned items others := by
  induction h generalizing left right with
  | nil => simp at ht
  | @sign p c q rest hs hf hrest ih =>
    rw [textOf_sign] at ht
    cases left with
    | nil =>
      obtain ⟨rfl, rfl⟩ := List.cons.inj ht
      obtain ⟨q', hq', -⟩ := hrest.leveled_restart _ (hp rfl).1 (hp rfl).2
      exact ⟨rest, q', rfl, hq', .erase [] rest (.inl rfl)⟩
    | cons d left =>
      obtain ⟨rfl, hsplit⟩ := List.cons.inj ht
      obtain ⟨others, q', htext, hlaid, hthin⟩ := ih hsplit
        (fun hnil => by subst hnil; exact ⟨(hleft c rfl).1, (hleft c rfl).2.1⟩)
        (fun x hx => hleft x (by rw [List.getLast?_cons, Option.mem_def.mp hx]; rfl))
      exact ⟨.sign c :: others, q', by simp [htext], .sign hs hf hlaid, hthin.cons _⟩
  | @run p q t rest hf hrun hrest ih =>
    rw [textOf_run] at ht
    obtain ⟨l, rfl, hsplit⟩ := split_run (not_mem_of_operands hrun.loose.2 (by decide)) ht
    have hne : l ≠ [] := by
      rintro rfl
      obtain ⟨first, last, hconcat⟩ := (List.eq_nil_or_concat t).resolve_left hrun.loose.1
      subst hconcat
      have hlast := hleft last (by simp)
      rw [hrun.loose.2 last (by simp)] at hlast
      exact absurd hlast.2.2 (by decide)
    obtain ⟨others, q', htext, hlaid, hthin⟩ := ih hsplit (fun h => absurd h hne)
      (fun x hx => hleft x (by rw [List.getLast?_append_of_ne_nil _ hne]; exact hx))
    exact ⟨.run t :: others, q', by simp [htext], .run hf hrun hlaid, hthin.cons _⟩
  | @group p m q inner rest hf hg hinner hend hrest ihinner ih =>
    rw [textOf_group] at ht
    rcases split_group (by decide) (by decide) ht with ⟨l, rfl, hsplit⟩ | ⟨l, r, rfl, hsplit, rfl⟩
    · have hne : l ≠ [] := by
        rintro rfl
        exact (hleft ')' (by rw [← List.cons_append, List.getLast?_concat]; rfl)).1 rfl
      obtain ⟨others, q', htext, hlaid, hthin⟩ := ih hsplit (fun h => absurd h hne)
        (fun x hx => hleft x (by
          rw [← List.cons_append, List.getLast?_append_of_ne_nil _ (by simp),
            List.getLast?_cons_of_ne_nil hne]
          exact hx))
      exact ⟨.group inner :: others, q', by simp [htext], .group hf hg hinner hend hlaid,
        hthin.cons _⟩
    · obtain ⟨others, q', htext, hlaid, hthin⟩ := ihinner hsplit (fun _ => by decide)
        (fun x hx => hleft x (by rw [List.getLast?_cons, Option.mem_def.mp hx]; rfl))
      exact ⟨.group others :: rest, q, by simp [htext], .group hf (hg.thinned hthin) hlaid
        (fun h => absurd h (by decide)) hrest, .replace [] rest rfl rfl⟩
  | @call p m q name inner rest hf hc hinner hend hrest ihinner ih =>
    rw [textOf_call] at ht
    obtain ⟨tail, rfl, hafter⟩ := split_run (not_mem_of_operands hc.1.loose.2 (by decide)) ht
    rcases split_group (by decide) (by decide) hafter with ⟨l, rfl, hsplit⟩
      | ⟨l, r, rfl, hsplit, rfl⟩
    · have hne : l ≠ [] := by
        rintro rfl
        exact (hleft ')'
          (by rw [← List.cons_append, ← List.append_assoc, List.getLast?_concat]; rfl)).1 rfl
      obtain ⟨others, q', htext, hlaid, hthin⟩ := ih hsplit (fun h => absurd h hne)
        (fun x hx => hleft x (by
          rw [List.getLast?_append_of_ne_nil _ (by simp), ← List.cons_append,
            List.getLast?_append_of_ne_nil _ (by simp), List.getLast?_cons_of_ne_nil hne]
          exact hx))
      exact ⟨.call name inner :: others, q', by simp [htext], .call hf hc hinner hend hlaid,
        hthin.cons _⟩
    · obtain ⟨others, q', htext, hlaid, hthin⟩ := ihinner hsplit (fun _ => by decide)
        (fun x hx => hleft x (by
          rw [List.getLast?_append_of_ne_nil _ (by simp), List.getLast?_cons, Option.mem_def.mp hx]
          rfl))
      exact ⟨.call name others :: rest, q, by simp [htext], .call hf ⟨hc.1, hc.2.thinned hthin⟩
        hlaid (fun h => absurd h (by decide)) hrest, .replace [] rest rfl rfl⟩

theorem Laid.erase_point (hv : v.Identified)
    (hlevel : ∀ items others, level items → Trimmed items others → level others)
    (h : Laid (.leveled IsAtom (IsCalled v) level) p items q)
    (ht : textOf items = left ++ '.' :: right) :
    ∃ others, textOf others = left ++ right ∧ Laid (.leveled IsAtom (IsCalled v) level) p others q ∧
      Trimmed items others := by
  induction h generalizing left right with
  | nil => simp at ht
  | @sign p c q rest hs hf hrest ih =>
    rw [textOf_sign] at ht
    cases left with
    | nil =>
      obtain ⟨rfl, -⟩ := List.cons.inj ht
      exact absurd hs (by decide)
    | cons d left =>
      obtain ⟨rfl, hsplit⟩ := List.cons.inj ht
      obtain ⟨others, htext, hlaid, htrim⟩ := ih hsplit
      exact ⟨.sign c :: others, by simp [htext], .sign hs hf hlaid, htrim.cons _⟩
  | @run p q t rest hf hrun hrest ih =>
    rw [textOf_run] at ht
    rcases List.append_eq_append_iff.mp ht with ⟨l, rfl, hsplit⟩ | ⟨r, rfl, hr⟩
    · obtain ⟨others, htext, hlaid, htrim⟩ := ih hsplit
      exact ⟨.run t :: others, by simp [htext], .run hf hrun hlaid, htrim.cons _⟩
    · cases r with
      | nil =>
        obtain ⟨others, htext, hlaid, htrim⟩ :=
          ih (show textOf rest = [] ++ '.' :: right by simpa using hr.symm)
        exact ⟨.run (left ++ []) :: others, by simpa using htext, .run hf hrun hlaid, htrim.cons _⟩
      | cons d r =>
        obtain ⟨rfl, rfl⟩ := List.cons.inj hr
        exact ⟨.run (left ++ r) :: rest, by simp, .run hf hrun.erase_point hrest,
          .replace [] rest rfl rfl (by simp)⟩
  | @group p m q inner rest hf hg hinner hend hrest ihinner ih =>
    rw [textOf_group] at ht
    rcases split_group (by decide) (by decide) ht with ⟨l, rfl, hsplit⟩ | ⟨l, r, rfl, hsplit, rfl⟩
    · obtain ⟨others, htext, hlaid, htrim⟩ := ih hsplit
      exact ⟨.group inner :: others, by simp [htext], .group hf hg hinner hend hlaid, htrim.cons _⟩
    · obtain ⟨others, htext, hlaid, htrim⟩ := ihinner hsplit
      exact ⟨.group others :: rest, by simp [htext],
        .group hf (hlevel _ _ hg htrim) hlaid (fun h => absurd h (by decide)) hrest,
        .replace [] rest rfl rfl fun he => absurd (Item.group.inj he) htrim.ne_nil⟩
  | @call p m q name inner rest hf hc hinner hend hrest ihinner ih =>
    rw [textOf_call] at ht
    obtain ⟨tail, rfl, hafter⟩ := split_run (hc.1.no_point hv) ht
    rcases split_group (by decide) (by decide) hafter with ⟨l, rfl, hsplit⟩
      | ⟨l, r, rfl, hsplit, rfl⟩
    · obtain ⟨others, htext, hlaid, htrim⟩ := ih hsplit
      exact ⟨.call name inner :: others, by simp [htext], .call hf hc hinner hend hlaid,
        htrim.cons _⟩
    · obtain ⟨others, htext, hlaid, htrim⟩ := ihinner hsplit
      exact ⟨.call name others :: rest, by simp [htext],
        .call hf ⟨hc.1, hlevel _ _ hc.2 htrim⟩ hlaid (fun h => absurd h (by decide)) hrest,
        .replace [] rest rfl rfl (by simp)⟩

end

end Abacus
