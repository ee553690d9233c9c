import Abacus.Proofs.Canonical.EmptyCalls
import Abacus.Proofs.Canonical.Joints
import Abacus.Proofs.Canonical.NormalForm
import Abacus.Proofs.Canonical.Runs

/-! A product that is understood is the same as one that is written out: where an operand follows an
operand, a product sign between the two does not change what a text is read as. -/

namespace Abacus

/-- Between a text that ends so and one that begins with this character a product is understood. -/
inductive Understood (v : Vocabulary) : Text → Char → Prop where
  | group {left : Text} {a b : Char} (ha : a = ')' ∨ a = '!')
    (hb : isWordCharacter b = true ∨ b = '(') : Understood v (left ++ [a]) b
  | number {left : Text} {a b : Char} (hrun : EndsRun [] (left ++ [a])) (ha : a.isDigit = true)
    (hb : isNameStart b = true ∨ b = '(') : Understood v (left ++ [a]) b
  | word {left word : Text} (hrun : EndsRun word left) (hword : IsBareWord word) (hne : word ≠ [])
    (hcall : v.isCallable word = false) : Understood v left '('

section Joining

variable {v : Vocabulary} {t left left' right : Text} {a b : Char}

theorem Understood.joint (h : Understood v t b) : ∃ left a, t = left ++ [a] ∧ Joint a b := by
  cases h with
  | @group left a b ha hb => exact ⟨left, a, rfl, .inr ha, hb⟩
  | @number left a b hrun ha hb =>
    exact ⟨left, a, rfl, .inl (isWordCharacter_iff.mpr (.inl ha)),
      hb.imp_left fun hb => isWordCharacter_iff.mpr (.inr hb)⟩
  | @word left word hrun hword hne =>
    obtain ⟨before, run, rfl, -, -⟩ := hrun
    obtain ⟨first, c, rfl⟩ := (List.eq_nil_or_concat' word).resolve_left hne
    exact ⟨before ++ (run ++ first), c, by simp, .inl (hword.characters c (by simp)), .inr rfl⟩

/-- A pass that keeps numbers and words at the end keeps the product understood. -/
theorem Understood.keep (h : Understood v (left ++ [a]) b)
    (hkeep : ∀ word, IsBareWord word → EndsRun word (left ++ [a]) → EndsRun word (left' ++ [a])) :
    Understood v (left' ++ [a]) b := by
  generalize ht : left ++ [a] = t at h
  cases h with
  | group ha hb =>
    obtain ⟨rfl, hlast⟩ := List.append_inj' ht rfl
    obtain rfl := List.singleton_inj.mp hlast
    exact .group ha hb
  | number hrun ha hb =>
    obtain ⟨rfl, hlast⟩ := List.append_inj' ht rfl
    obtain rfl := List.singleton_inj.mp hlast
    exact .number (hkeep [] ⟨by simp, by simp⟩ hrun) ha hb
  | @word _ word hrun hword hne hcall =>
    subst ht
    exact .word (hkeep word hword hrun) hword hne hcall

theorem digits_of_run {before run : Text}
    (hbefore : ∀ c ∈ before.getLast?, isOperandCharacter c = false)
    (hrun : ∀ c ∈ run, c.isDigit = true ∨ c = '.') :
    ∀ c ∈ (run.reverse ++ before.reverse).takeWhile isWordCharacter, c.isDigit = true := by
  have hstop : before.reverse.takeWhile isWordCharacter = [] := by
    rcases List.eq_nil_or_concat' before with rfl | ⟨first, z, rfl⟩
    · rfl
    · simp [not_wordCharacter (hbefore z (by simp))]
  intro c hc
  have hword := List.mem_takeWhile_imp hc
  have hmem : c ∈ run := by
    rw [List.takeWhile_append, hstop] at hc
    split at hc
    · simpa using hc
    · exact List.mem_reverse.mp ((List.takeWhile_prefix _).subset hc)
  refine (hrun c hmem).resolve_right ?_
  rintro rfl
  exact absurd hword (by decide)

theorem Understood.nameBefore_reverse (h : Understood v t b) :
    (∀ near, nameBefore (near ++ t.reverse) = nameBefore near) ∨
      b = '(' ∧ v.isCallable (nameBefore t.reverse) = false := by
  cases h with
  | @group left a b ha hb =>
    refine .inl (nameBefore_append_of_stop ?_)
    rcases ha with rfl | rfl <;> simp [isWordCharacter]
  | @number left a b hrun ha hb =>
    obtain ⟨before, run, ht, hbefore, hrun⟩ := hrun
    refine .inl (nameBefore_append ?_)
    rw [ht, List.append_nil, List.reverse_append]
    exact digits_of_run hbefore hrun
  | @word left word hrun hword hne hcall =>
    obtain ⟨before, run, rfl, hbefore, hrun⟩ := hrun
    refine .inr ⟨rfl, ?_⟩
    have hself : nameBefore word.reverse = word := by
      obtain ⟨c, rest, rfl⟩ := List.exists_cons_of_ne_nil hne
      rw [nameBefore,
        List.takeWhile_eq_self_iff.mpr fun d hd => hword.characters d (List.mem_reverse.mp hd),
        List.reverse_reverse, List.dropWhile_cons_of_neg (isDigit_of_nameStart (hword.first c rfl))]
    rwa [List.reverse_append, List.reverse_append, List.append_assoc,
      nameBefore_append (digits_of_run hbefore hrun), hself]

theorem Understood.emptyCalled (h : Understood v t b) (hcalled : EmptyCalled v (t ++ b :: right)) :
    EmptyCalled v (t ++ '*' :: b :: right) := by
  refine EmptyCalled.replace (m := []) (k := ['*']) hcalled (by decide) (by simp)
    fun near rest hright hcall => ?_
  rw [List.append_nil] at hcall
  have hstop : nameBefore (near.reverse ++ '*' :: t.reverse) = nameBefore near.reverse :=
    nameBefore_append_of_stop (by simp [isWordCharacter]) _
  rw [List.reverse_append, List.reverse_singleton, List.singleton_append, hstop]
  rcases h.nameBefore_reverse with hname | ⟨rfl, hnot⟩
  · rwa [hname] at hcall
  · cases near with
    | nil =>
      rw [List.reverse_nil, List.nil_append, hnot] at hcall
      cases hcall
    | cons c near =>
      obtain ⟨rfl, -⟩ := List.cons.inj hright
      have hopen (before : Text) : nameBefore (near.reverse ++ '(' :: before) =
          nameBefore near.reverse :=
        nameBefore_append_of_stop (by simp [isWordCharacter]) _
      rw [List.reverse_cons, List.append_assoc, List.singleton_append, hopen] at hcall
      rwa [List.reverse_cons, hopen]

end Joining

section Checking

variable {v : Vocabulary} {t left right : Text} {a b : Char}

theorem checkArguments_step {x x' rest rest' : Text} {c : Char}
    (hframe : c = '(' → Frame.opened v x rest = Frame.opened v x' rest') (frames : List Frame)
    (hrest : ∀ frames, checkArguments v (c :: x) frames rest = .ok () ↔
      checkArguments v (c :: x') frames rest' = .ok ()) :
    checkArguments v x frames (c :: rest) = .ok () ↔
      checkArguments v x' frames (c :: rest') = .ok () := by
  simp only [checkArguments]
  split
  · next hopen => rw [hframe hopen, hrest]
  split
  · cases frames with
    | nil => simp
    | cons frame outer =>
      cases frame with
      | group => simp
      | call => exact hrest _
  split
  · cases frames with
    | nil => exact hrest _
    | cons frame outer =>
      cases frame with
      | group => exact hrest _
      | call name arity commas isEmpty =>
        simp only
        generalize (if isEmpty = true then 0 else commas + 1) = count
        split
        · exact hrest _
        · simp
  · exact hrest _

theorem checkArguments_congr {x x' : Text}
    (h : ∀ near, nameBefore (near ++ x) = nameBefore (near ++ x')) (frames : List Frame)
    (t : Text) : checkArguments v x frames t = .ok () ↔ checkArguments v x' frames t = .ok () := by
  induction t generalizing x x' frames with
  | nil => rfl
  | cons c rest ih =>
    refine checkArguments_step (fun _ => ?_) frames fun frames =>
      ih (fun near => by simpa using h (near ++ [c])) frames
    rw [Frame.opened, Frame.opened, show nameBefore x = nameBefore x' from h []]

theorem checkArguments_append {y y' : Text} (ha : a ≠ '(') (left before : Text)
    (frames : List Frame)
    (h : ∀ frames, checkArguments v ((left ++ [a]).reverse ++ before) frames y = .ok () ↔
      checkArguments v ((left ++ [a]).reverse ++ before) frames y' = .ok ()) :
    checkArguments v before frames (left ++ a :: y) = .ok () ↔
      checkArguments v before frames (left ++ a :: y') = .ok () := by
  induction left generalizing before frames with
  | nil => exact checkArguments_step (fun hopen => absurd hopen ha) frames h
  | cons c left ih =>
    refine checkArguments_step (fun _ => ?_) frames fun frames =>
      ih (c :: before) frames (by simpa using h)
    rw [Frame.opened, Frame.opened]
    cases left <;> rfl

/-- A product sign changes nothing for the arguments. -/
protected theorem Understood.checkArguments (hv : v.Identified) (h : Understood v t b)
    (right : Text) :
    checkArguments v [] [] (t ++ b :: right) = .ok () ↔
      Abacus.checkArguments v [] [] (t ++ '*' :: b :: right) = .ok () := by
  obtain ⟨left, a, rfl, hjoint⟩ := h.joint
  simp only [List.append_assoc, List.singleton_append]
  refine checkArguments_append (hjoint.last_ne (by decide)) left [] [] fun frames => ?_
  have hstop : nameBefore ('*' :: (left ++ [a]).reverse) = [] :=
    nameBefore_of_stop (by simp [isOperandCharacter])
  rw [List.append_nil, checkArguments_push (c := '*') (by decide) (by decide) (by decide)]
  rcases h.nameBefore_reverse with hname | ⟨rfl, hnot⟩
  · refine checkArguments_congr (fun near => ?_) frames (b :: right)
    rw [hname, nameBefore_append_of_stop (by simp [isWordCharacter])]
  · refine checkArguments_step (fun _ => ?_) frames fun frames =>
      checkArguments_congr (fun near => ?_) frames right
    · have hnone : v.arity? (nameBefore (left ++ [a]).reverse) = none := by
        rw [← Option.not_isSome_iff_eq_none, arity?_isSome, hnot]
        decide
      rw [Frame.opened, Frame.opened, hstop, hnone, arity?_nil hv]
    · rw [nameBefore_append_of_stop (by simp [isWordCharacter]),
        nameBefore_append_of_stop (by simp [isWordCharacter])]

end Checking

section Writing

variable {v : Vocabulary} {word t left right n : Text} {a b : Char}

/-- The numbers and groups are separated. -/
def separated (t : Text) : Text := separateGroups none (separateNumbers none .neither t)

/-- The numbers of both texts are in order or those of neither are, and the words come apart in the
same way. -/
def SpelledAlike (v : Vocabulary) (t u : Text) : Prop :=
  (checkNumbers 0 false 0 t = .ok () ↔ checkNumbers 0 false 0 u = .ok ()) ∧
    separateWords v [] false t = separateWords v [] false u

theorem SpelledAlike.of_eq {u : Text} (h : t = u) : SpelledAlike v t u := by
  rw [h]
  exact ⟨.rfl, rfl⟩

theorem EndsRun.spelledAlike (hword : IsBareWord word) (hrun : EndsRun word (left ++ [a]))
    (hnumber : word = [] → a.isDigit = true ∧ isNameStart b = true)
    (hcall : word ≠ [] → v.isCallable word = false ∧ b = '(') (right : Text) :
    SpelledAlike v (left ++ a :: b :: right) (left ++ a :: '*' :: b :: right) := by
  have hb : isNameStart b = true ∨ b = '(' := by
    by_cases hne : word = []
    · exact .inl (hnumber hne).2
    · exact .inr (hcall hne).2
  have hnumbers := checkNumbers_congr
    (fun position inWord points => checkNumbers_star hb position points inWord right)
    (left ++ [a]) 0 0 false
  have hwords :=
    hrun.separateWords_star hword (fun hne => ⟨⟨left, a, rfl, (hnumber hne).1⟩, hb⟩) hcall right
  simp only [List.append_assoc, List.singleton_append] at hnumbers hwords
  exact ⟨hnumbers, hwords⟩

theorem separated_group (ha : a = ')' ∨ a = '!') (hb : isWordCharacter b = true ∨ b = '(')
    (left right : Text) :
    separated (left ++ a :: b :: right) = separated (left ++ a :: '*' :: b :: right) := by
  obtain ⟨first, hfirst⟩ := exists_separateNumbers_concat none .neither left a
  obtain ⟨second, hsecond⟩ := exists_separateGroups_concat none first a
  have hstop : isOperandCharacter a = false := by rcases ha with rfl | rfl <;> decide
  have hends : endsGroup (some a) = true := by rcases ha with rfl | rfl <;> rfl
  rw [List.foldl_concat, Within.after_of_stop hstop] at hfirst
  rw [separated, separated, hfirst, hfirst, hsecond, hsecond, separateNumbers_star,
    separateGroups_star]
  congr 2
  rcases hb with hb | rfl
  · rcases isWordCharacter_iff.mp hb with hd | hs
    · rw [separateNumbers, if_pos hd, if_neg (by decide), if_pos ⟨rfl, hends⟩, separateGroups_star,
        separateNumbers, if_pos hd, if_neg (by decide), if_neg (by decide)]
    · rw [separateNumbers_nameStart hs, separateNumbers_nameStart hs, separateGroups,
        if_pos ⟨.inr hs, hends⟩, separateGroups, if_neg (by simp [endsGroup])]
  · rw [separateNumbers_open, separateNumbers_open, separateGroups, if_pos ⟨.inl rfl, hends⟩,
      separateGroups, if_neg (by decide)]

theorem EndsRun.endsGroup_last (hword : IsBareWord word) (hne : word ≠ [])
    (hrun : EndsRun word (left ++ [a])) : endsGroup (some a) = false := by
  obtain ⟨first, c, rfl⟩ := (List.eq_nil_or_concat' word).resolve_left hne
  obtain ⟨before, run, ht, -, -⟩ := hrun
  have hlast := congrArg List.getLast? ht
  simp only [← List.append_assoc, List.getLast?_concat, Option.some.injEq] at hlast
  subst hlast
  exact endsGroup_of_operand (operand_of_wordCharacter (hword.characters a (by simp)))

/-- Once the numbers and groups are separated the sign that is written is there, or will be
there. -/
theorem Understood.spelledAlike (h : Understood v (left ++ [a]) b) (right : Text) :
    SpelledAlike v (separated (left ++ a :: b :: right))
      (separated (left ++ a :: '*' :: b :: right)) := by
  generalize ht : left ++ [a] = t at h
  cases h with
  | @group _ a' b ha hb =>
    obtain ⟨rfl, hlast⟩ := List.append_inj' ht rfl
    obtain rfl := List.singleton_inj.mp hlast
    exact .of_eq (separated_group ha hb left right)
  | @number _ a' b hrun ha hb =>
    obtain ⟨rfl, hlast⟩ := List.append_inj' ht rfl
    obtain rfl := List.singleton_inj.mp hlast
    obtain ⟨left', hrun', hseparated⟩ := hrun.separated ⟨by simp, by simp⟩ fun _ => ha
    have hends : endsGroup (some a) = false :=
      endsGroup_of_operand (isOperandCharacter_iff.mpr (.inl ha))
    rcases hb with hb | rfl
    · have halike := hrun'.spelledAlike (v := v) ⟨by simp, by simp⟩ (fun _ => ⟨ha, hb⟩)
        (fun hne => absurd rfl hne) (separateGroups (some b) (separateNumbers (some b) .word right))
      rwa [separated, separated, hseparated, hseparated, separateNumbers_star, separateGroups_star,
        separateNumbers_nameStart hb, separateNumbers_nameStart hb, separateGroups,
        if_neg (by simp [hends]), separateGroups, if_neg (by simp [endsGroup])]
    · refine .of_eq ?_
      rw [separated, separated, hseparated, hseparated, separateNumbers_star, separateNumbers_open]
      rw [separateNumbers, if_neg (by decide), if_neg (by decide), if_pos rfl,
        if_pos (show Within.ofWord [] = .number from rfl)]
  | @word _ word hrun hword hne hcall =>
    subst ht
    obtain ⟨left', hrun', hseparated⟩ := hrun.separated hword fun hnil => absurd hnil hne
    have hends := hrun.endsGroup_last hword hne
    have hwithin : Within.ofWord word = .word := if_neg hne
    have halike := hrun'.spelledAlike hword (fun hnil => absurd hnil hne) (fun _ => ⟨hcall, rfl⟩)
      (separateGroups (some '(') (separateNumbers (some '(') .neither right))
    rwa [separated, separated, hseparated, hseparated, hwithin, separateNumbers_star,
      separateGroups_star, separateNumbers_open, separateNumbers, if_neg (by decide),
      if_neg (by decide), if_pos rfl, if_neg (by decide), separateGroups, if_neg (by simp [hends]),
      separateGroups, if_neg (by simp [endsGroup])]

/-- Once the products are written out the sign makes no difference. -/
theorem Understood.written_iff (hv : v.Identified) (h : Understood v t b) (right : Text) :
    Written v (t ++ b :: right) n ↔ Written v (t ++ '*' :: b :: right) n := by
  obtain ⟨left, a, rfl, hjoint⟩ := h.joint
  obtain ⟨left', right', hlast, -, hplain, hstar⟩ := hjoint.passes_dropPoints left right
  have h' : Understood v (left' ++ [a]) b := h.keep fun word hword hrun =>
    hlast ▸ hrun.dropPoints hword.characters
  obtain ⟨hnumbers, hwords⟩ := h'.spelledAlike right'
  have harguments := h'.checkArguments hv right'
  simp only [List.append_assoc, List.singleton_append] at harguments ⊢
  constructor
  · rintro ⟨ha, hn, hw⟩
    rw [hplain] at ha hn hw
    exact ⟨by rw [hstar]; exact harguments.mp ha, by rw [hstar]; exact hnumbers.mp hn,
      by rw [hstar]; exact hwords ▸ hw⟩
  · rintro ⟨ha, hn, hw⟩
    rw [hstar] at ha hn hw
    exact ⟨by rw [hplain]; exact harguments.mpr ha, by rw [hplain]; exact hnumbers.mpr hn,
      by rw [hplain]; exact hwords ▸ hw⟩

theorem Understood.tidyFrom_iff (hv : v.Identified) (h : Understood v left b)
    (hcalled : EmptyCalled v (left ++ b :: right)) :
    tidyFrom v (left ++ b :: right) = .ok n ↔ tidyFrom v (left ++ '*' :: b :: right) = .ok n := by
  obtain ⟨left, a, rfl, hjoint⟩ := h.joint
  obtain ⟨left', right', hlast, -, hplain, hstar⟩ :=
    (hjoint.passes_dropPlus.comp hjoint.passes_settled) left right
  dsimp only at hlast hplain hstar
  have h' : Understood v (left' ++ [a]) b := h.keep fun word hword hrun =>
    hlast ▸ hrun.settled hword.characters
  have hcalledStar := h.emptyCalled hcalled
  have htrivial (rest : Text) (hne : rest ≠ []) : checkNotTrivial (left ++ a :: rest) = .ok () := by
    obtain ⟨c, rest, rfl⟩ := List.exists_cons_of_ne_nil hne
    cases left with
    | nil => rfl
    | cons d left => cases left <;> rfl
  have hwritten := h'.written_iff hv right' (n := n)
  simp only [List.append_assoc, List.singleton_append] at hcalled hcalledStar hwritten ⊢
  rw [hcalled.tidyFrom_iff (htrivial _ (by simp)), hcalledStar.tidyFrom_iff (htrivial _ (by simp)),
    hjoint.settles]
  refine and_congr_right fun _ => ?_
  rw [hplain, hstar]
  exact hwritten

theorem withoutBlanks_star (h : withoutBlanks (left ++ right) = left ++ right) :
    withoutBlanks (left ++ '*' :: right) = left ++ '*' :: right := by
  simp only [withoutBlanks, List.filter_eq_self, List.forall_mem_append,
    List.forall_mem_cons] at h ⊢
  exact ⟨h.1, by decide, h.2⟩

theorem lowercase_star (h : lowercase (left ++ right) = left ++ right) :
    lowercase (left ++ '*' :: right) = left ++ '*' :: right := by
  rw [lowercase_eq_self_iff] at h ⊢
  simp only [List.forall_mem_append, List.forall_mem_cons] at h ⊢
  exact ⟨h.1, by decide, h.2⟩

theorem Understood.canonical_iff (hv : v.Identified) (h : Understood v left b)
    (hcalled : EmptyCalled v (left ++ b :: right))
    (hblanks : withoutBlanks (left ++ b :: right) = left ++ b :: right)
    (hlower : lowercase (left ++ b :: right) = left ++ b :: right) :
    canonical v (left ++ b :: right) = .ok n ↔ canonical v (left ++ '*' :: b :: right) = .ok n := by
  have htidy (m : Text) : tidy v (left ++ b :: right) = .ok m ↔
      tidy v (left ++ '*' :: b :: right) = .ok m := by
    rw [tidy, tidy, hblanks, hlower, withoutBlanks_star hblanks, lowercase_star hlower,
      h.tidyFrom_iff hv hcalled]
  simp only [canonical, bind_eq_ok, htidy]

theorem canonical_ne_ok_of_not_allowed {c : Char} (hblanks : withoutBlanks t = t)
    (hlower : lowercase t = t) (hmem : c ∈ t) (hc : ¬ IsAllowed c) : canonical v t ≠ .ok n := by
  intro h
  obtain ⟨m, hm, -⟩ := bind_eq_ok.mp h
  rw [tidy, hblanks, hlower, tidyFrom_eq] at hm
  obtain ⟨u, hu, -⟩ := bind_eq_ok.mp hm
  have hkept : KeptBy settlingPairs fun u => ∀ d ∈ t, d ∈ u ∨ IsAllowed d :=
    keptBy_contains (by simp [settlingPairs, IsAllowed]; decide) t
  have hsettled : ∀ d ∈ t, d ∈ settled t ∨ IsAllowed d := by
    refine completePoints_induction hkept (fun u hall d hd => ?_)
      (collapseSigns_induction hkept fun d hd => .inl hd)
    rcases hall d hd with hmem | hallowed
    · rcases List.mem_append.mp hmem with hmem | hmem
      · exact .inl hmem
      · obtain rfl := List.mem_singleton.mp hmem
        exact .inr (.inr (by decide))
    · exact .inr hallowed
  exact hc ((hsettled c hmem).elim ((settleSigns_eq_ok hu).settled_allowed c) id)

end Writing

namespace Workspace

/-- A product that is understood is the one that is written out, in every context and in every
workspace that can be reached. That holds also if the operands have letters that no formula may
hold: then neither text is read. -/
theorem canonical_understood (l : Library) (ops : List Operation) {left right n : Text} {b : Char}
    (hblanks : withoutBlanks (left ++ b :: right) = left ++ b :: right)
    (hlower : lowercase (left ++ b :: right) = left ++ b :: right)
    (hcalled : EmptyCalled (run l ops).vocabulary (left ++ b :: right))
    (h : Understood (run l ops).vocabulary left b ∨ ∃ c ∈ left ++ b :: right, ¬ IsAllowed c) :
    canonical (run l ops).vocabulary (left ++ b :: right) = .ok n ↔
      canonical (run l ops).vocabulary (left ++ '*' :: b :: right) = .ok n := by
  rcases h with h | ⟨c, hmem, hc⟩
  · exact h.canonical_iff (wellFormed_run l ops).identified hcalled hblanks hlower
  · have hmem' : c ∈ left ++ '*' :: b :: right := by
      simp only [List.mem_append, List.mem_cons] at hmem ⊢
      tauto
    exact iff_of_false (canonical_ne_ok_of_not_allowed hblanks hlower hmem hc)
      (canonical_ne_ok_of_not_allowed (withoutBlanks_star hblanks) (lowercase_star hlower) hmem' hc)

theorem canonical_understood_call :
    canonical (run .full [.createFormula "f".toList "2".toList]).vocabulary "f()x!".toList =
      .ok "f()*(x!)".toList ∧
      canonical (run .full [.createFormula "f".toList "2".toList]).vocabulary "f()*x!".toList =
        .ok "f()*(x!)".toList := by
  have hplain : canonical (run .full [.createFormula "f".toList "2".toList]).vocabulary
      "f()x!".toList = .ok "f()*(x!)".toList := by with_unfolding_all rfl
  have hunderstood : Understood (run .full [.createFormula "f".toList "2".toList]).vocabulary
      ("f(".toList ++ [')']) 'x' :=
    .group (.inl rfl) (.inl rfl)
  exact ⟨hplain,
    (canonical_understood .full _ (by decide) (by decide)
      (dropEmptyGroup?_eq_none_iff.mp (by with_unfolding_all rfl)) (.inl hunderstood)).mp hplain⟩

end Workspace

end Abacus
