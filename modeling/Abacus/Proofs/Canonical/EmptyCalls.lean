import Abacus.Proofs.Canonical.EmptyGroups

/-! Texts in which every empty pair of parentheses is the argument list of a call. Nothing is taken
out of these, and tidying them is a matter of one round. -/

namespace Abacus

/-- Every empty pair of parentheses is the argument list of a call. -/
def EmptyCalled (v : Vocabulary) (t : Text) : Prop :=
  ∀ left right, t = left ++ '(' :: ')' :: right → v.isCallable (nameBefore left.reverse) = true

section

variable {v : Vocabulary} {left m k right t n : Text}

theorem nameBefore_append {before : Text}
    (hb : ∀ c ∈ before.takeWhile isWordCharacter, c.isDigit = true) (near : Text) :
    nameBefore (near ++ before) = nameBefore near := by
  rw [nameBefore, nameBefore, List.takeWhile_append]
  split
  · next hall =>
    rw [(List.takeWhile_prefix _).eq_of_length hall, List.reverse_append,
      List.dropWhile_append_of_pos fun c hc => hb c (List.mem_reverse.mp hc)]
  · rfl

theorem nameBefore_append_of_stop {before : Text}
    (hb : ∀ c ∈ before.head?, isWordCharacter c = false) (near : Text) :
    nameBefore (near ++ before) = nameBefore near := by
  refine nameBefore_append ?_ near
  cases before with
  | nil => simp
  | cons c before => simp [hb c rfl]

theorem nameBefore_run {before run : Text}
    (hbefore : ∀ c ∈ before.getLast?, isWordCharacter c = false)
    (hrun : ∀ c ∈ run, isWordCharacter c = true) :
    nameBefore (before ++ run).reverse = run.dropWhile Char.isDigit := by
  rw [List.reverse_append, nameBefore_append_of_stop (by rwa [List.head?_reverse]), nameBefore,
    List.takeWhile_eq_self_iff.mpr fun c hc => hrun c (List.mem_reverse.mp hc),
    List.reverse_reverse]

theorem EmptyCalled.replace (h : EmptyCalled v (left ++ (m ++ right))) (hparens : '(' ∉ k ∧ ')' ∉ k)
    (hhead : k = [] → right.head? ≠ some ')')
    (hname : ∀ near rest, right = near ++ '(' :: ')' :: rest →
      v.isCallable (nameBefore (near.reverse ++ (left ++ m).reverse)) = true →
      v.isCallable (nameBefore (near.reverse ++ (left ++ k).reverse)) = true) :
    EmptyCalled v (left ++ (k ++ right)) := by
  intro l rest ht
  have hright (near : Text) (hr : right = near ++ '(' :: ')' :: rest) :
      v.isCallable (nameBefore (left ++ (k ++ near)).reverse) = true := by
    have hcall := h (left ++ (m ++ near)) rest (by rw [hr]; simp)
    rw [← List.append_assoc, List.reverse_append] at hcall ⊢
    exact hname near rest hr hcall
  rcases List.append_eq_append_iff.mp ht with ⟨others, rfl, hothers⟩ | ⟨others, rfl, hothers⟩
  · rcases List.append_eq_append_iff.mp hothers with ⟨near, rfl, hnear⟩ | ⟨inner, rfl, hinner⟩
    · exact hright near hnear
    · cases inner with
      | nil => simpa using hright [] hinner.symm
      | cons c inner =>
        obtain ⟨rfl, -⟩ := List.cons.inj hinner
        exact absurd (by simp) hparens.1
  · cases others with
    | nil =>
      cases k with
      | nil => simpa using hright [] hothers.symm
      | cons c k =>
        obtain ⟨rfl, -⟩ := List.cons.inj hothers
        exact absurd (by simp) hparens.1
    | cons c others =>
      obtain ⟨rfl, hbehind⟩ := List.cons.inj hothers
      cases others with
      | nil =>
        cases k with
        | nil => exact absurd (congrArg List.head? hbehind.symm) (hhead rfl)
        | cons c k =>
          obtain ⟨rfl, -⟩ := List.cons.inj hbehind
          exact absurd (by simp) hparens.2
      | cons c others =>
        obtain ⟨rfl, -⟩ := List.cons.inj hbehind
        exact h l (others ++ (m ++ right)) (by simp)

theorem EmptyCalled.replace_signs (h : EmptyCalled v (left ++ (m ++ right)))
    (hm : ∀ c ∈ (left ++ m).getLast?, isWordCharacter c = false)
    (hm' : ∀ c ∈ (left ++ k).getLast?, isWordCharacter c = false) (hparens : '(' ∉ k ∧ ')' ∉ k)
    (hhead : k = [] → right.head? ≠ some ')') : EmptyCalled v (left ++ (k ++ right)) := by
  refine h.replace hparens hhead fun near rest _ hcall => ?_
  rw [nameBefore_append_of_stop (by simpa [List.head?_reverse] using hm)] at hcall
  rwa [nameBefore_append_of_stop (by simpa [List.head?_reverse] using hm')]

protected theorem EmptyCalled.settled (h : EmptyCalled v t) : EmptyCalled v (settled t) := by
  have hkept : KeptBy settlingPairs (EmptyCalled v) := by
    have hpairs : ∀ e ∈ settlingPairs, isWordCharacter e.2.1 = false ∧ ('(' ∉ e.2.2 ∧ ')' ∉ e.2.2) ∧
        e.2.2.getLast?.map isWordCharacter = some false := by decide
    intro e he left right hleft
    obtain ⟨hsecond, hparens, hlast⟩ := hpairs e he
    obtain ⟨c, hlast, hc⟩ := Option.map_eq_some_iff.mp hlast
    obtain ⟨first, hfirst⟩ := List.getLast?_eq_some_iff.mp hlast
    refine EmptyCalled.replace_signs (m := [e.1, e.2.1]) (by simpa using hleft)
      (by simpa [List.getLast?_cons] using hsecond)
      (by simpa [hfirst, List.getLast?_append] using hc) hparens ?_
    simp [hfirst]
  refine completePoints_induction hkept ?_ (collapseSigns_induction hkept h)
  rintro t ht left right rfl
  exact ht left (right ++ ['.']) (by simp)

protected theorem EmptyCalled.dropPlus (hclose : hasPair '+' ')' t = false) (h : EmptyCalled v t) :
    EmptyCalled v (dropPlus t) := by
  have hdrop (left : Text) {right : Text} (hleft : EmptyCalled v (left ++ '+' :: right))
      (hlast : ∀ c ∈ left.getLast?, isWordCharacter c = false) (hhead : right.head? ≠ some ')') :
        EmptyCalled v (left ++ right) :=
    EmptyCalled.replace_signs (m := ['+']) (k := []) hleft (by simp; decide) (by simpa using hlast)
      (by simp) fun _ => hhead
  have hafter {right : Text}
      (hchain : List.IsChain (fun x y => ¬ (x = '+' ∧ y = ')')) ('+' :: right)) :
      right.head? ≠ some ')' := by
    intro hhead
    obtain ⟨rest, rfl⟩ := List.head?_eq_some_iff.mp hhead
    exact hchain.rel ⟨rfl, rfl⟩
  have hpairs : ∀ e ∈ leadingPairs, isWordCharacter e.1 = false ∧ e.1 ≠ '+' ∧ e.2.1 = '+' ∧
      e.2.2 = [e.1] := by decide
  have hclosed : KeptBy leadingPairs (List.IsChain fun x y => ¬ (x = '+' ∧ y = ')')) :=
    keptBy_isChain fun e he => by
    obtain ⟨-, hne, -, hr⟩ := hpairs e he
    exact ⟨hr, fun b hp => hne hp.1⟩
  have hkept : KeptBy leadingPairs fun t => EmptyCalled v t ∧
      List.IsChain (fun x y => ¬ (x = '+' ∧ y = ')')) t := by
    rintro ⟨x, y, r⟩ he left right ⟨hleft, hchain⟩
    refine ⟨?_, hclosed _ he left right hchain⟩
    obtain ⟨hx, -, hy, hr⟩ := hpairs _ he
    dsimp only at hx hy hr hleft hchain ⊢
    subst hy hr
    have hbehind := (List.isChain_append_cons_cons.mp hchain).2.2
    simpa using hdrop (left ++ [x]) (by simpa using hleft) (by simpa using hx) (hafter hbehind)
  refine (dropPlus_induction hkept ?_ ⟨h, hasPair_eq_false_iff.mp hclose⟩).1
  rintro t ⟨ht, hchain⟩
  exact ⟨hdrop [] ht (by simp) (hafter hchain), hchain.tail⟩

theorem dropEmptyGroup?_eq_none_iff : dropEmptyGroup? v [] t = none ↔ EmptyCalled v t := by
  suffices hall : ∀ before, dropEmptyGroup? v before t = none ↔ ∀ left right,
    t = left ++ '(' :: ')' :: right → v.isCallable (nameBefore (left.reverse ++ before)) = true by
    simpa [EmptyCalled] using hall []
  intro before
  fun_induction dropEmptyGroup? v before t with
  | case1 before rest hcall ih =>
    rw [Option.map_eq_none_iff, ih]
    constructor
    · intro hrest left right ht
      cases left with
      | nil => exact hcall
      | cons c left =>
        obtain ⟨rfl, htail⟩ := List.cons.inj ht
        cases left with
        | nil => exact absurd (List.cons.inj htail).1 (by decide)
        | cons d left =>
          obtain ⟨rfl, rfl⟩ := List.cons.inj htail
          simpa using hrest left right rfl
    · intro hall left right ht
      simpa using hall ('(' :: ')' :: left) right (by rw [ht]; rfl)
  | case2 before rest hcall =>
    constructor
    · intro hsome
      cases hsome
    · exact fun hall => absurd (hall [] rest rfl) hcall
  | case3 before c rest hopen ih =>
    rw [Option.map_eq_none_iff, ih]
    constructor
    · intro hrest left right ht
      cases left with
      | nil =>
        obtain ⟨rfl, rfl⟩ := List.cons.inj ht
        exact absurd rfl (hopen right rfl)
      | cons d left =>
        obtain ⟨rfl, htail⟩ := List.cons.inj ht
        simpa using hrest left right htail
    · intro hall left right ht
      simpa using hall (c :: left) right (by rw [ht]; rfl)
  | case4 => simp

theorem EmptyCalled.dropEmptyGroup? {u : Text} (h : EmptyCalled v t) (hs : Settles t u) :
    dropEmptyGroup? v [] u = none := by
  have hclose : hasPair '+' ')' (Abacus.settled t) = false := hasPair_eq_false_iff.mpr
    ((isChain_of_checkPairs hs.pairs).imp fun x y hxy hp => hxy (by rw [hp.1, hp.2]; decide))
  rw [hs.result]
  exact dropEmptyGroup?_eq_none_iff.mpr (h.settled.dropPlus hclose)

/-- Where no empty group is to be taken out there is one round of tidying. -/
theorem EmptyCalled.tidyFrom_iff (h : EmptyCalled v t) (ht : checkNotTrivial t = .ok ()) :
    tidyFrom v t = .ok n ↔
      Settles t (dropPlus (settled t)) ∧ Written v (dropPlus (settled t)) n := by
  rw [tidyFrom_eq, bind_eq_ok]
  constructor
  · rintro ⟨u, hu, hn⟩
    have hsettles := settleSigns_eq_ok hu
    obtain rfl := hsettles.result
    simp only [h.dropEmptyGroup? hsettles] at hn
    exact ⟨hsettles, writeProducts_eq_ok hn⟩
  · rintro ⟨hsettles, hwritten⟩
    refine ⟨_, (settleSigns_iff ht).mpr hsettles, ?_⟩
    simp only [h.dropEmptyGroup? hsettles]
    exact writeProducts_iff.mpr hwritten

end

end Abacus
